import Course.Lib.Machine
import Course.Lib.Objects
import Course.Stl.ListSort

/-! Programs with several lists, and the sequences they stand for. -/

open Course.Lib Heap HeapRing

namespace Course.Stl.LinkedList

/-- The operations of a program; the iterators are `k` steps from `begin()`, and a list
is destroyed once at most. -/
inductive Op (T : Type)
  | create
  | insert (i k : ℕ) (x : T)
  | erase (i k : ℕ)
  | push_back (i : ℕ) (x : T)
  | pop_back (i : ℕ)
  | push_front (i : ℕ) (x : T)
  | pop_front (i : ℕ)
  | clear (i : ℕ)
  | copy (i : ℕ)
  | assign (i j : ℕ)
  | sort (i : ℕ)
  | merge (i j : ℕ)
  | reverse (i : ℕ)
  | unique (i : ℕ)
  | destroy (i : ℕ)

inductive Answer
  | done
  | thrown (e : Exception)

def Answer.of {α : Type} : Except Exception α → Answer
  | .ok _ => .done
  | .error e => .thrown e

/-- The memory, the lists, of which some are destroyed, and the answers so far. -/
structure World (T : Type) where
  heap : Heap (Cell T)
  lists : List (Option LinkedList)
  answers : List Answer

variable {T : Type}

namespace World

def start : World T := ⟨⟨fun _ => none, 0⟩, [], []⟩

def list (w : World T) (i : ℕ) : Option LinkedList := w.lists[i]?.join

def add (w : World T) (h : Heap (Cell T)) (o : LinkedList) : World T :=
  ⟨h, w.lists ++ [some o], w.answers ++ [.done]⟩

def store (w : World T) (h : Heap (Cell T)) (i : ℕ) (o : Option LinkedList) : World T :=
  { w with heap := h, lists := w.lists.set i o }

def answer (w : World T) (a : Answer) : World T := { w with answers := w.answers ++ [a] }

def finish {α : Type} (w : World T) (h : Heap (Cell T)) (i : ℕ) (r : Except Exception α)
    (o : LinkedList) : World T :=
  (w.store h i o).answer (.of r)

end World

variable (lt eq : T → T → Bool)

/-- A list is neither merged with nor assigned to itself. -/
def step (w : World T) : Op T → Option (World T)
  | .create => do
    let (o, h) ← create w.heap
    some (w.add h o)
  | .insert i k x => do
    let o ← w.list i
    let (r, h) ← iterator o k w.heap
    match r with
    | .error e => some (w.finish h i (.error (α := Unit) e) o)
    | .ok pos =>
      let ((cur, o), h) ← insert o pos x h
      some (w.finish h i (.ok cur) o)
  | .erase i k => do
    let o ← w.list i
    let (r, h) ← iterator o k w.heap
    match r with
    | .error e => some (w.finish h i (.error (α := Unit) e) o)
    | .ok pos =>
      let ((r, o), h) ← erase o pos h
      some (w.finish h i r o)
  | .push_back i x => do
    let o ← w.list i
    let (o, h) ← push_back o x w.heap
    some (w.finish h i (.ok ()) o)
  | .pop_back i => do
    let o ← w.list i
    let ((r, o), h) ← pop_back o w.heap
    some (w.finish h i r o)
  | .push_front i x => do
    let o ← w.list i
    let (o, h) ← push_front o x w.heap
    some (w.finish h i (.ok ()) o)
  | .pop_front i => do
    let o ← w.list i
    let ((r, o), h) ← pop_front o w.heap
    some (w.finish h i r o)
  | .clear i => do
    let o ← w.list i
    let (o, h) ← clear o w.heap
    some (w.finish h i (.ok ()) o)
  | .copy i => do
    let other ← w.list i
    let (o, h) ← createCopy other w.heap
    some (w.add h o)
  | .assign i j => do
    let o ← w.list i
    let other ← w.list j
    if i = j then none
    else
      let (o, h) ← assignFrom o other w.heap
      some (w.finish h i (.ok ()) o)
  | .sort i => do
    let o ← w.list i
    let ((), h) ← sort lt o w.heap
    some (w.finish h i (.ok ()) o)
  | .merge i j => do
    let o ← w.list i
    let other ← w.list j
    if i = j then none
    else
      let ((o, other), h) ← merge lt o other w.heap
      some ((w.store h i o).finish h j (.ok ()) other)
  | .reverse i => do
    let o ← w.list i
    let ((), h) ← reverse o w.heap
    some (w.finish h i (.ok ()) o)
  | .unique i => do
    let o ← w.list i
    let (o, h) ← unique eq o w.heap
    some (w.finish h i (.ok ()) o)
  | .destroy i => do
    let o ← w.list i
    let ((), h) ← destroy o w.heap
    some ((w.store h i none).answer .done)

def machine : Machine (World T) (Op T) where
  step := step lt eq

/-- The lists that an operation names exist, and are two for `merge` and assignments;
an iterator is not past the end. -/
def Op.Fits (w : World T) : Op T → Prop
  | .create => True
  | .insert i k _ | .erase i k => ∃ o, w.list i = some o ∧ k ≤ o.size
  | .push_back i _ | .pop_back i | .push_front i _ | .pop_front i | .clear i | .copy i | .sort i
  | .reverse i | .unique i | .destroy i => (w.list i).isSome
  | .assign i j | .merge i j => (w.list i).isSome ∧ (w.list j).isSome ∧ i ≠ j

/-! ### Sequences -/

abbrev Seqs (T : Type) := List (Option (List T))

/-- No element is less than one before it. -/
def Ordered (lt : T → T → Bool) (l : List T) : Prop := l.Pairwise fun x y => lt y x = false

/-- What an operation may do to the sequences, and what it answers. -/
inductive Acts (lt eq : T → T → Bool) : Seqs T → Op T → Answer → Seqs T → Prop
  | create {ls : Seqs T} : Acts lt eq ls .create .done (ls ++ [some []])
  | insert {ls : Seqs T} {i k : ℕ} {x : T} {l : List T} : ls[i]? = some (some l) →
    Acts lt eq ls (.insert i k x) .done (ls.set i (some (l.take k ++ x :: l.drop k)))
  | erase {ls : Seqs T} {i k : ℕ} {l : List T} : ls[i]? = some (some l) → k < l.length →
    Acts lt eq ls (.erase i k) .done (ls.set i (some (l.eraseIdx k)))
  | eraseEmpty {ls : Seqs T} {i : ℕ} : ls[i]? = some (some []) →
    Acts lt eq ls (.erase i 0) (.thrown .container_is_empty) ls
  | eraseEnd {ls : Seqs T} {i : ℕ} {l : List T} : ls[i]? = some (some l) → l ≠ [] →
    Acts lt eq ls (.erase i l.length) (.thrown .invalid_iterator) ls
  | push_back {ls : Seqs T} {i : ℕ} {x : T} {l : List T} : ls[i]? = some (some l) →
    Acts lt eq ls (.push_back i x) .done (ls.set i (some (l ++ [x])))
  | pop_back {ls : Seqs T} {i : ℕ} {l : List T} : ls[i]? = some (some l) → l ≠ [] →
    Acts lt eq ls (.pop_back i) .done (ls.set i (some l.dropLast))
  | popBackEmpty {ls : Seqs T} {i : ℕ} : ls[i]? = some (some []) →
    Acts lt eq ls (.pop_back i) (.thrown .container_is_empty) ls
  | push_front {ls : Seqs T} {i : ℕ} {x : T} {l : List T} : ls[i]? = some (some l) →
    Acts lt eq ls (.push_front i x) .done (ls.set i (some (x :: l)))
  | pop_front {ls : Seqs T} {i : ℕ} {l : List T} : ls[i]? = some (some l) → l ≠ [] →
    Acts lt eq ls (.pop_front i) .done (ls.set i (some l.tail))
  | popFrontEmpty {ls : Seqs T} {i : ℕ} : ls[i]? = some (some []) →
    Acts lt eq ls (.pop_front i) (.thrown .container_is_empty) ls
  | clear {ls : Seqs T} {i : ℕ} {l : List T} : ls[i]? = some (some l) →
    Acts lt eq ls (.clear i) .done (ls.set i (some []))
  | copy {ls : Seqs T} {i : ℕ} {l : List T} : ls[i]? = some (some l) →
    Acts lt eq ls (.copy i) .done (ls ++ [some l])
  | assign {ls : Seqs T} {i j : ℕ} {l m : List T} : ls[i]? = some (some l) →
    ls[j]? = some (some m) → Acts lt eq ls (.assign i j) .done (ls.set i (some m))
  | sort {ls : Seqs T} {i : ℕ} {l l' : List T} : ls[i]? = some (some l) → l'.Perm l →
    Ordered lt l' → Acts lt eq ls (.sort i) .done (ls.set i (some l'))
  | merge {ls : Seqs T} {i j : ℕ} {l m l' : List T} : ls[i]? = some (some l) →
    ls[j]? = some (some m) → l' = merged lt l m → l'.Perm (l ++ m) →
    (Ordered lt l → Ordered lt m → Ordered lt l') →
    Acts lt eq ls (.merge i j) .done ((ls.set i (some l')).set j (some []))
  | reverse {ls : Seqs T} {i : ℕ} {l : List T} : ls[i]? = some (some l) →
    Acts lt eq ls (.reverse i) .done (ls.set i (some l.reverse))
  | unique {ls : Seqs T} {i : ℕ} {l : List T} : ls[i]? = some (some l) →
    Acts lt eq ls (.unique i) .done (ls.set i (some (firsts eq l)))
  | destroy {ls : Seqs T} {i : ℕ} {l : List T} : ls[i]? = some (some l) →
    Acts lt eq ls (.destroy i) .done (ls.set i none)

/-- What a list of operations may answer, and the sequences afterwards. -/
inductive Runs (lt eq : T → T → Bool) : List (Op T) → List Answer → Seqs T → Prop
  | nil : Runs lt eq [] [] []
  | concat {ops : List (Op T)} {as : List Answer} {ls ls' : Seqs T} {op : Op T} {a : Answer} :
    Runs lt eq ops as ls → Acts lt eq ls op a ls' → Runs lt eq (ops ++ [op]) (as ++ [a]) ls'

variable {lt eq} {l m : List T}

theorem merged_perm : (merged lt l m).Perm (l ++ m) :=
  (List.merge_perm_append ..).trans List.perm_append_comm

theorem Ordered.merged (hlt : StrictWeak lt) (hl : Ordered lt l) (hm : Ordered lt m) :
    Ordered lt (merged lt l m) := by
  have hmerge : (m.merge l fun y x => !lt x y).Pairwise fun y x => (!lt x y) = true := by
    apply List.pairwise_merge
    · intro x y z hxy hyz
      simp only [Bool.not_eq_true'] at hxy hyz ⊢
      exact hlt.ge_trans hyz hxy
    · intro x y
      cases hxy : lt x y with
      | true => simp [hlt.asymm hxy]
      | false => simp
    · exact hm.imp fun h => by simpa using h
    · exact hl.imp fun h => by simpa using h
  exact hmerge.imp fun h => by simpa using h

/-! ### Lists and their nodes -/

variable {w : World T} {ls : Seqs T} {i j k : ℕ} {o : LinkedList} {x : T}

/-- The lists as objects: their nodes with the elements, and the sequences of these. -/
def kind (T : Type) : Kind LinkedList (List (Item T)) (List T) (Cell T) where
  Rep o g := o.size = g.length
  cells o := whole o.node
  value := values

/-- No two lists have a node or an element in common. -/
def Shows (w : World T) (ls : Seqs T) : Prop := (kind T).Shows w.heap w.lists ls

/-- The operation does to the lists, and answers, what it may. -/
def Does (lt eq : T → T → Bool) (w : World T) (ls : Seqs T) (op : Op T) : Prop :=
  ∃ w' a ls', step lt eq w op = some w' ∧ w'.answers = w.answers ++ [a] ∧
    Acts lt eq ls op a ls' ∧ Shows w' ls'

section Steps

theorem length_of_values {g g' : List (Item T)} (h : values g' = values g) :
    g'.length = g.length := by
  have hlength := congrArg List.length h
  rwa [values, values, List.length_map, List.length_map] at hlength

variable {F : Multiset (ℕ × Cell T)} {g g' : List (Item T)}

theorem Does.of_finish {α : Type} {op : Op T} {r : Except Exception α} {h' : Heap (Cell T)}
    {o' : LinkedList} (hf : (kind T).Focus w.heap w.lists ls i o g F)
    (hstep : step lt eq w op = some (w.finish h' i r o')) (hsize : o'.size = g'.length)
    (hs' : Holds h' [] (whole o'.node g' + F))
    (hacts : Acts lt eq ls op (.of r) (ls.set i (some (values g')))) : Does lt eq w ls op :=
  ⟨_, _, _, hstep, rfl, hacts, hf.put hsize hs'⟩

theorem iterator_run (hf : (kind T).Focus w.heap w.lists ls i o g F) (hk : k ≤ g.length) :
    iterator o k w.heap = some (.ok (some (head o.node (chain (g.drop k)))), w.heap) := by
  have hs : Holds w.heap [] (whole o.node g + F) := hf.holds
  rw [whole, add_assoc] at hs
  have hwp : wp (iterator o k) (fun r h' => r = .ok (some (head o.node (chain (g.drop k)))) ∧
      h' = w.heap) w.heap := wp_iterator hk hs ⟨rfl, rfl⟩
  obtain ⟨_, _, hrun, rfl, rfl⟩ := hwp
  exact hrun

theorem Does.of_throw {α : Type} {op : Op T} {e : Exception}
    (hf : (kind T).Focus w.heap w.lists ls i o g F)
    (hstep : step lt eq w op = some (w.finish w.heap i (.error (α := α) e) o))
    (hacts : Acts lt eq ls op (.thrown e) ls) : Does lt eq w ls op :=
  ⟨_, _, _, hstep, rfl, hacts, hf.keep rfl hf.rep hf.holds⟩

variable (hw : Shows w ls)

include hw

theorem does_create : Does lt eq w ls .create := by
  obtain ⟨F, hs, hnew⟩ := hw.new
  have hwp : wp create (fun o h' => o.size = 0 ∧ Holds h' [] (whole o.node [] + F)) w.heap :=
    wp_create hs fun s h' hs' => ⟨rfl, hs'⟩
  obtain ⟨o, h', hrun, hsize, hs'⟩ := hwp
  exact ⟨w.add h' o, .done, _, by simp [step, hrun], rfl, .create, hnew (g := []) hsize hs'⟩

theorem does_copy (hi : (w.list i).isSome) : Does lt eq w ls (.copy i) := by
  obtain ⟨o, ho⟩ := Option.isSome_iff_exists.mp hi
  obtain ⟨g, F, hf⟩ := hw.focus ho
  have hwp : wp (createCopy o) (fun o' h' => ∃ g', values g' = values g ∧ o'.size = o.size ∧
      Holds h' [] (whole o'.node g' + (whole o.node g + F))) w.heap :=
    wp_createCopy hf.holds fun s h' g' hvalues hs' => ⟨g', hvalues, rfl, hs'⟩
  obtain ⟨o', h', hrun, g', hvalues, hsize, hs'⟩ := hwp
  have hrep : o'.size = g'.length := hsize.trans (hf.rep.trans (length_of_values hvalues).symm)
  refine ⟨w.add h' o', .done, _, by simp [step, ho, hrun], rfl, ?_, hf.concat hrep hs'⟩
  change Acts lt eq ls _ _ (ls ++ [some (values g')])
  rw [hvalues]
  exact .copy hf.value

theorem does_destroy (hi : (w.list i).isSome) : Does lt eq w ls (.destroy i) := by
  obtain ⟨o, ho⟩ := Option.isSome_iff_exists.mp hi
  obtain ⟨g, F, hf⟩ := hw.focus ho
  have hwp : wp (destroy o) (fun _ h' => Holds h' [] F) w.heap :=
    wp_destroy hf.holds fun h' hs' => hs'
  obtain ⟨_, h', hrun, hs'⟩ := hwp
  exact ⟨(w.store h' i none).answer .done, .done, _, by simp [step, ho, hrun], rfl,
    .destroy hf.value, hf.erase hs'⟩

theorem does_clear (hi : (w.list i).isSome) : Does lt eq w ls (.clear i) := by
  obtain ⟨o, ho⟩ := Option.isSome_iff_exists.mp hi
  obtain ⟨g, F, hf⟩ := hw.focus ho
  have hwp : wp (clear o) (fun o' h' => o' = { o with size := 0 } ∧
      Holds h' [] (whole o.node [] + F)) w.heap :=
    wp_clear hf.holds fun h' hs' => ⟨rfl, hs'⟩
  obtain ⟨o', h', hrun, rfl, hs'⟩ := hwp
  have hstep : step lt eq w (.clear i) =
      some (w.finish h' i (.ok ()) { o with size := 0 }) := by simp [step, ho, hrun]
  exact Does.of_finish hf hstep rfl hs' (.clear hf.value)

theorem does_push_back (hi : (w.list i).isSome) : Does lt eq w ls (.push_back i x) := by
  obtain ⟨o, ho⟩ := Option.isSome_iff_exists.mp hi
  obtain ⟨g, F, hf⟩ := hw.focus ho
  have hwp : wp (push_back o x) (fun o' h' => ∃ e : Item T, e.val = x ∧
      o' = { o with size := o.size + 1 } ∧ Holds h' [] (whole o.node (g ++ [e]) + F)) w.heap :=
    wp_push_back hf.holds fun e h' he hs' => ⟨e, he, rfl, hs'⟩
  obtain ⟨o', h', hrun, e, rfl, rfl, hs'⟩ := hwp
  have hstep : step lt eq w (.push_back i e.val) =
      some (w.finish h' i (.ok ()) { o with size := o.size + 1 }) := by simp [step, ho, hrun]
  apply Does.of_finish hf hstep _ hs'
  · rw [values_append]
    exact .push_back hf.value
  · rw [List.length_append]
    exact congrArg (· + 1) hf.rep

theorem does_push_front (hi : (w.list i).isSome) : Does lt eq w ls (.push_front i x) := by
  obtain ⟨o, ho⟩ := Option.isSome_iff_exists.mp hi
  obtain ⟨g, F, hf⟩ := hw.focus ho
  have hwp : wp (push_front o x) (fun o' h' => ∃ e : Item T, e.val = x ∧
      o' = { o with size := o.size + 1 } ∧ Holds h' [] (whole o.node (e :: g) + F)) w.heap :=
    wp_push_front hf.holds fun e h' he hs' => ⟨e, he, rfl, hs'⟩
  obtain ⟨o', h', hrun, e, rfl, rfl, hs'⟩ := hwp
  have hstep : step lt eq w (.push_front i e.val) =
      some (w.finish h' i (.ok ()) { o with size := o.size + 1 }) := by simp [step, ho, hrun]
  apply Does.of_finish hf hstep _ hs'
  · exact .push_front hf.value
  · exact congrArg (· + 1) hf.rep

theorem does_pop_back (hi : (w.list i).isSome) : Does lt eq w ls (.pop_back i) := by
  obtain ⟨o, ho⟩ := Option.isSome_iff_exists.mp hi
  obtain ⟨g, F, hf⟩ := hw.focus ho
  have hsize : o.size = g.length := hf.rep
  rcases List.eq_nil_or_concat g with rfl | ⟨g, e, rfl⟩
  · apply Does.of_throw (α := Unit) (e := .container_is_empty) hf
    · simp [step, ho, pop_back, hsize]
      rfl
    · exact .popBackEmpty hf.value
  · rw [List.concat_eq_append] at hf hsize
    have hne : o.size ≠ 0 := by simp [hsize]
    have hwp : wp (pop_back o) (fun r h' => r = (.ok (), { o with size := o.size - 1 }) ∧
        Holds h' [] (whole o.node g + F)) w.heap :=
      wp_pop_back hne hf.holds fun h' hs' => ⟨rfl, hs'⟩
    obtain ⟨_, h', hrun, rfl, hs'⟩ := hwp
    have hstep : step lt eq w (.pop_back i) =
        some (w.finish h' i (.ok ()) { o with size := o.size - 1 }) := by simp [step, ho, hrun]
    have hvalue : ls[i]? = some (some (values g ++ [e.val])) := by
      have hvalue : ls[i]? = some (some (values (g ++ [e]))) := hf.value
      rwa [values_append] at hvalue
    apply Does.of_finish hf hstep _ hs'
    · have hacts : Acts lt eq ls (.pop_back i) .done _ := .pop_back hvalue (by simp)
      rwa [List.dropLast_concat] at hacts
    · simp [hsize]

theorem does_pop_front (hi : (w.list i).isSome) : Does lt eq w ls (.pop_front i) := by
  obtain ⟨o, ho⟩ := Option.isSome_iff_exists.mp hi
  obtain ⟨g, F, hf⟩ := hw.focus ho
  have hsize : o.size = g.length := hf.rep
  cases g with
  | nil =>
    apply Does.of_throw (α := Unit) (e := .container_is_empty) hf
    · simp [step, ho, pop_front, hsize]
      rfl
    · exact .popFrontEmpty hf.value
  | cons e g =>
    have hne : o.size ≠ 0 := by simp [hsize]
    have hwp : wp (pop_front o) (fun r h' => r = (.ok (), { o with size := o.size - 1 }) ∧
        Holds h' [] (whole o.node g + F)) w.heap :=
      wp_pop_front hne hf.holds fun h' hs' => ⟨rfl, hs'⟩
    obtain ⟨_, h', hrun, rfl, hs'⟩ := hwp
    have hstep : step lt eq w (.pop_front i) =
        some (w.finish h' i (.ok ()) { o with size := o.size - 1 }) := by simp [step, ho, hrun]
    apply Does.of_finish hf hstep _ hs'
    · have hvalue : ls[i]? = some (some (e.val :: values g)) := hf.value
      exact .pop_front hvalue (List.cons_ne_nil _ _)
    · simp [hsize]

theorem does_insert (hi : ∃ o, w.list i = some o ∧ k ≤ o.size) :
    Does lt eq w ls (.insert i k x) := by
  obtain ⟨o, ho, hk⟩ := hi
  obtain ⟨g, F, hf⟩ := hw.focus ho
  have hsize : o.size = g.length := hf.rep
  have hwalk := iterator_run hf (hsize ▸ hk)
  have hs : Holds w.heap [] (whole o.node (g.take k ++ g.drop k) + F) := by
    rw [List.take_append_drop]
    exact hf.holds
  have hwp : wp (insert o (some (head o.node (chain (g.drop k)))) x) (fun r h' => ∃ e : Item T,
      e.val = x ∧ r = (some e.addr, { o with size := o.size + 1 }) ∧
      Holds h' [] (whole o.node (g.take k ++ e :: g.drop k) + F)) w.heap :=
    wp_insert hs fun e h' he hs' => ⟨e, he, rfl, hs'⟩
  obtain ⟨_, h', hrun, e, rfl, rfl, hs'⟩ := hwp
  have hstep : step lt eq w (.insert i k e.val) =
      some (w.finish h' i (.ok (some e.addr)) { o with size := o.size + 1 }) := by
    simp [step, ho, hwalk, hrun]
  apply Does.of_finish hf hstep _ hs'
  · have hacts : Acts lt eq ls (.insert i k e.val) .done _ := .insert hf.value
    have hvalues : values (g.take k ++ e :: g.drop k) =
        (values g).take k ++ e.val :: (values g).drop k := by
      rw [values_append, values_cons, values, values, values, List.map_take, List.map_drop]
    rwa [hvalues]
  · rw [List.length_append, List.length_cons, ← Nat.add_assoc, ← List.length_append,
      List.take_append_drop]
    exact congrArg (· + 1) hsize

theorem does_erase (hi : ∃ o, w.list i = some o ∧ k ≤ o.size) :
    Does lt eq w ls (.erase i k) := by
  obtain ⟨o, ho, hk⟩ := hi
  obtain ⟨g, F, hf⟩ := hw.focus ho
  have hsize : o.size = g.length := hf.rep
  have hwalk := iterator_run hf (hsize ▸ hk)
  rcases Nat.lt_or_eq_of_le hk with hlt | rfl
  · rw [hsize] at hlt
    have hg : g = g.take k ++ g[k] :: g.drop (k + 1) := by
      rw [← List.drop_eq_getElem_cons hlt, List.take_append_drop]
    have hs : Holds w.heap [] (whole o.node (g.take k ++ g[k] :: g.drop (k + 1)) + F) := by
      rw [← hg]
      exact hf.holds
    have hne : o.size ≠ 0 := by
      rw [hsize]
      exact Nat.ne_of_gt (Nat.zero_lt_of_lt hlt)
    have hwp : wp (erase o (some g[k].addr)) (fun r h' =>
        r = (.ok (some (head o.node (chain (g.drop (k + 1))))), { o with size := o.size - 1 }) ∧
        Holds h' [] (whole o.node (g.take k ++ g.drop (k + 1)) + F)) w.heap :=
      wp_erase hne hs fun h' hs' => ⟨rfl, hs'⟩
    obtain ⟨_, h', hrun, rfl, hs'⟩ := hwp
    rw [List.drop_eq_getElem_cons hlt, chain_cons, head_cons] at hwalk
    have hstep : step lt eq w (.erase i k) =
        some (w.finish h' i (.ok (some (head o.node (chain (g.drop (k + 1))))))
          { o with size := o.size - 1 }) := by
      simp [step, ho, hwalk, hrun]
    apply Does.of_finish hf hstep _ hs'
    · have hacts : Acts lt eq ls (.erase i k) .done _ :=
        .erase hf.value (by simpa [kind, values] using hlt)
      have hvalues : values (g.take k ++ g.drop (k + 1)) = (values g).eraseIdx k := by
        rw [values_append, values, values, values, List.map_take, List.map_drop,
          List.eraseIdx_eq_take_drop_succ]
      rwa [hvalues]
    · rw [← List.eraseIdx_eq_take_drop_succ, List.length_eraseIdx_of_lt hlt]
      exact congrArg (· - 1) hsize
  · have hend : g.drop o.size = [] := List.drop_eq_nil_of_le (Nat.le_of_eq hsize.symm)
    rw [hend, chain_nil, head_nil] at hwalk
    cases g with
    | nil =>
      rw [hsize, List.length_nil] at hwalk ⊢
      apply Does.of_throw (α := Ptr) (e := .container_is_empty) hf
      · simp [step, ho, hwalk, erase, hsize]
        rfl
      · exact .eraseEmpty hf.value
    | cons e g =>
      have hne : o.size ≠ 0 := by simp [hsize]
      apply Does.of_throw (α := Ptr) (e := .invalid_iterator) hf
      · simp [step, ho, hwalk, erase, hne]
        rfl
      · have hvalue : ls[i]? = some (some (values (e :: g))) := hf.value
        have hlength : (values (e :: g)).length = o.size := by simp [values, hsize]
        rw [← hlength]
        exact .eraseEnd hvalue (List.cons_ne_nil _ _)

theorem does_sort (hlt : StrictWeak lt) (hi : (w.list i).isSome) :
    Does lt eq w ls (.sort i) := by
  obtain ⟨o, ho⟩ := Option.isSome_iff_exists.mp hi
  obtain ⟨g, F, hf⟩ := hw.focus ho
  have hwp : wp (sort lt o) (fun _ h' => ∃ g', (values g').Perm (values g) ∧
      Ordered lt (values g') ∧ Holds h' [] (whole o.node g' + F)) w.heap :=
    wp_sort hlt hf.holds fun h' g' hperm hordered hs' => ⟨g', hperm, hordered, hs'⟩
  obtain ⟨_, h', hrun, g', hperm, hordered, hs'⟩ := hwp
  have hstep : step lt eq w (.sort i) = some (w.finish h' i (.ok ()) o) := by
    simp [step, ho, hrun]
  apply Does.of_finish hf hstep _ hs'
  · exact .sort hf.value hperm hordered
  · have hlength := hperm.length_eq
    rw [values, values, List.length_map, List.length_map] at hlength
    exact hf.rep.trans hlength.symm

theorem does_reverse (hi : (w.list i).isSome) : Does lt eq w ls (.reverse i) := by
  obtain ⟨o, ho⟩ := Option.isSome_iff_exists.mp hi
  obtain ⟨g, F, hf⟩ := hw.focus ho
  have hwp : wp (reverse o) (fun _ h' => ∃ g', values g' = (values g).reverse ∧
      Holds h' [] (whole o.node g' + F)) w.heap :=
    wp_reverse hf.holds fun h' g' hvalues hs' => ⟨g', hvalues, hs'⟩
  obtain ⟨_, h', hrun, g', hvalues, hs'⟩ := hwp
  have hstep : step lt eq w (.reverse i) = some (w.finish h' i (.ok ()) o) := by
    simp [step, ho, hrun]
  apply Does.of_finish hf hstep _ hs'
  · rw [hvalues]
    exact .reverse hf.value
  · rw [values, values, ← List.map_reverse] at hvalues
    exact hf.rep.trans (List.length_reverse.symm.trans (length_of_values hvalues).symm)

theorem does_unique (hi : (w.list i).isSome) : Does lt eq w ls (.unique i) := by
  obtain ⟨o, ho⟩ := Option.isSome_iff_exists.mp hi
  obtain ⟨g, F, hf⟩ := hw.focus ho
  have hwp : wp (unique eq o) (fun o' h' =>
      o' = { o with size := (firstsItems eq g).length } ∧
      Holds h' [] (whole o.node (firstsItems eq g) + F)) w.heap :=
    wp_unique hf.rep hf.holds fun h' hs' => ⟨rfl, hs'⟩
  obtain ⟨_, h', hrun, rfl, hs'⟩ := hwp
  have hstep : step lt eq w (.unique i) =
      some (w.finish h' i (.ok ()) { o with size := (firstsItems eq g).length }) := by
    simp [step, ho, hrun]
  apply Does.of_finish hf hstep rfl hs'
  rw [values_firstsItems]
  exact .unique hf.value

theorem does_assign (hi : (w.list i).isSome) (hj : (w.list j).isSome) (hij : i ≠ j) :
    Does lt eq w ls (.assign i j) := by
  obtain ⟨o, ho⟩ := Option.isSome_iff_exists.mp hi
  obtain ⟨other, hother⟩ := Option.isSome_iff_exists.mp hj
  obtain ⟨g₀, g, F, hf⟩ := hw.focus₂ hij ho hother
  have hwp : wp (assignFrom o other) (fun o' h' => ∃ g', values g' = values g ∧
      o' = { o with size := other.size } ∧
      Holds h' [] (whole o.node g' + (whole other.node g + F))) w.heap :=
    wp_assignFrom hf.holds fun h' g' hvalues hs' => ⟨g', hvalues, rfl, hs'⟩
  obtain ⟨_, h', hrun, g', hvalues, rfl, hs'⟩ := hwp
  have hrep : (kind T).Rep { o with size := other.size } g' :=
    hf.rep'.trans (length_of_values hvalues).symm
  refine ⟨w.finish h' i (.ok ()) { o with size := other.size }, .done, _,
    by simp [step, ho, hother, hij, hrun], rfl, ?_, hf.put hrep hs'⟩
  change Acts lt eq ls _ _ (ls.set i (some (values g')))
  rw [hvalues]
  exact .assign hf.value hf.value'

theorem does_merge (hlt : StrictWeak lt) (hi : (w.list i).isSome) (hj : (w.list j).isSome)
    (hij : i ≠ j) : Does lt eq w ls (.merge i j) := by
  obtain ⟨o, ho⟩ := Option.isSome_iff_exists.mp hi
  obtain ⟨other, hother⟩ := Option.isSome_iff_exists.mp hj
  obtain ⟨g, m, F, hf⟩ := hw.focus₂ hij ho hother
  have hwp : wp (merge lt o other) (fun r h' =>
      r = ({ o with size := o.size + m.length }, { other with size := 0 }) ∧
      Holds h' [] (whole o.node (mergedItems lt g m) + (whole other.node [] + F))) w.heap :=
    wp_merge hf.holds fun h' hs' => ⟨rfl, hs'⟩
  obtain ⟨_, h', hrun, rfl, hs'⟩ := hwp
  have hrep : (kind T).Rep { o with size := o.size + m.length } (mergedItems lt g m) := by
    change o.size + m.length = (mergedItems lt g m).length
    rw [mergedItems, List.length_merge, Nat.add_comm m.length]
    exact congrArg (· + m.length) hf.rep
  have hrep' : (kind T).Rep { other with size := 0 } [] := rfl
  refine ⟨(w.store h' i (some { o with size := o.size + m.length })).finish h' j (.ok ())
    { other with size := 0 }, .done, _, by simp [step, ho, hother, hij, hrun], rfl, ?_,
    hf.put₂ hrep hrep' hs'⟩
  change Acts lt eq ls _ _ ((ls.set i (some (values (mergedItems lt g m)))).set j (some []))
  rw [values_mergedItems]
  exact .merge hf.value hf.value' rfl merged_perm (Ordered.merged hlt)

end Steps

theorem step_spec (hlt : StrictWeak lt) (hw : Shows w ls) {op : Op T} (hfits : op.Fits w) :
    Does lt eq w ls op := by
  cases op with
  | create => exact does_create hw
  | insert i k x => exact does_insert hw hfits
  | erase i k => exact does_erase hw hfits
  | push_back i x => exact does_push_back hw hfits
  | pop_back i => exact does_pop_back hw hfits
  | push_front i x => exact does_push_front hw hfits
  | pop_front i => exact does_pop_front hw hfits
  | clear i => exact does_clear hw hfits
  | copy i => exact does_copy hw hfits
  | assign i j => exact does_assign hw hfits.1 hfits.2.1 hfits.2.2
  | sort i => exact does_sort hw hlt hfits
  | merge i j => exact does_merge hw hlt hfits.1 hfits.2.1 hfits.2.2
  | reverse i => exact does_reverse hw hfits
  | unique i => exact does_unique hw hfits
  | destroy i => exact does_destroy hw hfits

/-! ### Rings -/

/-- `q` is the next node of `p`, and `p` the previous one of `q`. -/
def Linked (h : Heap (Cell T)) (p q : ℕ) : Prop :=
  ∃ n n', h.cells p = some (.node n) ∧ h.cells q = some (.node n') ∧ n.next = some q ∧
    n'.prev = some p

/-- The sentinel and the nodes of a list, from the first to the last. -/
def ringOf (o : LinkedList) (g : List (Item T)) : List ℕ := o.node :: g.map Item.addr

/-- The nodes lead through the list and back to the sentinel, and to its elements. -/
structure WellFormed (h : Heap (Cell T)) (o : LinkedList) (g : List (Item T)) : Prop where
  linked : (ringOf o g ++ [o.node]).IsChain (Linked h)
  nodup : (ringOf o g).Nodup
  size : o.size = g.length
  data : ∀ e ∈ g, ∃ n, h.cells e.addr = some (.node n) ∧ n.data = some e.data ∧
    h.cells e.data = some (.object e.val)

/-- Every list is well formed, and no node is in two lists. -/
structure Separate (w : World T) (ls : Seqs T) (es : List (Option (LinkedList × List (Item T)))) :
    Prop where
  lists : w.lists = es.map (Option.map Prod.fst)
  values : ls = es.map (Option.map fun e => values e.2)
  wellFormed : ∀ (i : ℕ) (o : LinkedList) (g : List (Item T)), es[i]? = some (some (o, g)) →
    WellFormed w.heap o g
  disjoint : ∀ (i j : ℕ) (o o' : LinkedList) (g g' : List (Item T)), i ≠ j →
    es[i]? = some (some (o, g)) → es[j]? = some (some (o', g')) → (ringOf o g).Disjoint (ringOf o' g')

section Rings

variable {h : Heap (Cell T)} {F : Multiset (ℕ × Cell T)} {g g₁ g₂ : List (Item T)}

theorem linked_of_append (hs : Holds h [] (whole o.node (g₁ ++ g₂) + F)) :
    Linked h (last o.node (chain g₁)) (head o.node (chain g₂)) := by
  rw [whole, add_assoc] at hs
  obtain ⟨d, p, hlast⟩ := exists_node_before o.node g₁ g₂
  obtain ⟨d', n, hhead⟩ := exists_node o.node g₁ g₂
  exact ⟨_, _, hs.cells_of_mem (Multiset.mem_add.mpr (.inl hlast)),
    hs.cells_of_mem (Multiset.mem_add.mpr (.inl hhead)), rfl, rfl⟩

theorem isChain_linked (hs : Holds h [] (whole o.node g + F)) :
    (ringOf o g ++ [o.node]).IsChain (Linked h) := by
  have haddrs : (chain g).map Prod.fst = g.map Item.addr := by
    rw [chain, List.map_map]
    rfl
  rw [ringOf, List.cons_append, ← haddrs]
  refine isChain_ring fun l₁ l₂ heq => ?_
  obtain ⟨g₁, g₂, rfl, rfl, rfl⟩ := List.map_eq_append_iff.mp heq
  exact linked_of_append hs

theorem wellFormed (hsize : o.size = g.length) (hs : Holds h [] (whole o.node g + F)) :
    WellFormed h o g := by
  refine ⟨isChain_linked hs, whole_addrs_nodup hs, hsize, fun e he => ?_⟩
  have hdata := hs.cells_of_mem (mem_whole_object he)
  obtain ⟨g₁, g₂, rfl⟩ := List.append_of_mem he
  exact ⟨_, hs.cells_of_mem (mem_whole_node o.node g₁ e g₂), rfl, hdata⟩

theorem mem_addrs {p : ℕ} (hp : p ∈ ringOf o g) : p ∈ (whole o.node g).map Prod.fst := by
  rw [whole_eq, Multiset.map_add, Multiset.map_add, Multiset.map_singleton, seg_addrs]
  rcases List.mem_cons.mp hp with rfl | hp
  · simp
  · exact Multiset.mem_add.mpr (.inr (Multiset.mem_add.mpr (.inl (Multiset.mem_coe.mpr hp))))

theorem disjoint_rings {o' : LinkedList} {g' : List (Item T)}
    (hs : Holds h [] (whole o.node g + (whole o'.node g' + F))) :
    (ringOf o g).Disjoint (ringOf o' g') := by
  intro p hp hp'
  have hnodup := hs.nodup
  rw [Multiset.coe_nil, zero_add, Multiset.map_add, Multiset.map_add] at hnodup
  have hdisjoint := (Multiset.nodup_add.mp hnodup).2.2
  exact Multiset.disjoint_left.mp hdisjoint (mem_addrs hp)
    (Multiset.mem_add.mpr (.inl (mem_addrs hp')))

theorem Shows.separate (hw : Shows w ls) : ∃ es, Separate w ls es := by
  obtain ⟨es, hes, hs⟩ := hw
  refine ⟨es, hes.objects, hes.values, fun i o g he => ?_, fun i j o o' g g' hij he he' => ?_⟩
  · rw [Kind.memory_eq he] at hs
    exact wellFormed (hes.rep o g (List.mem_of_getElem? he)) hs
  · have he' : (es.set i none)[j]? = some (some (o', g')) := by
      rw [List.getElem?_set_ne hij, he']
    rw [Kind.memory_eq he, Kind.memory_eq he'] at hs
    exact disjoint_rings hs

end Rings

/-! ### Runs -/

/-- The operations end, and after them the lists are well formed, no node is in two of
them, and they hold what the sequences do. -/
def Refines (lt eq : T → T → Bool) (ops : List (Op T)) : Prop :=
  ∃ w ls es, (machine lt eq).exec World.start ops = some w ∧ Runs lt eq ops w.answers ls ∧
    Separate w ls es

theorem exec_shows (hlt : StrictWeak lt) {ops : List (Op T)}
    (hfits : (machine lt eq).Along (fun w op => op.Fits w) World.start ops) :
    ∃ w ls, (machine lt eq).exec World.start ops = some w ∧ Runs lt eq ops w.answers ls ∧
      Shows w ls := by
  induction ops using List.reverseRecOn with
  | nil => exact ⟨World.start, [], rfl, .nil, Kind.Shows.empty⟩
  | append_singleton ops op ih =>
    obtain ⟨hops, hlast⟩ := Machine.along_concat.mp hfits
    obtain ⟨w, ls, hexec, hruns, hw⟩ := ih hops
    have hdoes : Does lt eq w ls op := step_spec hlt hw (hlast w hexec)
    obtain ⟨w', a, ls', hstep, hanswers, hacts, hw'⟩ := hdoes
    refine ⟨w', ls', ?_, hanswers ▸ hruns.concat hacts, hw'⟩
    rw [Machine.exec_concat, hexec]
    exact hstep

/-- Lists behave as sequences do under the same operations. -/
theorem refines (hlt : StrictWeak lt) {ops : List (Op T)}
    (hfits : (machine lt eq).Along (fun w op => op.Fits w) World.start ops) :
    Refines lt eq ops := by
  obtain ⟨w, ls, hexec, hruns, hw⟩ := exec_shows hlt hfits
  obtain ⟨es, hes⟩ := hw.separate
  exact ⟨w, ls, es, hexec, hruns, hes⟩

/-- Two lists become one. -/
def pushMerge : List (Op ℕ) :=
  [.create, .push_back 0 5, .push_front 0 3, .create, .insert 1 0 4, .merge 0 1]

theorem pushMerge_fits :
    (machine (fun x y => decide (x < y)) (· == ·)).Along (fun w op => op.Fits w) World.start
      pushMerge := by
  change Machine.Along _ _ _ (((((([] ++ [_]) ++ [_]) ++ [_]) ++ [_]) ++ [_]) ++ [_])
  simp only [Machine.along_concat]
  refine ⟨⟨⟨⟨⟨⟨Machine.along_nil, ?_⟩, ?_⟩, ?_⟩, ?_⟩, ?_⟩, ?_⟩
  all_goals
    rintro w ⟨⟩
    simp [Op.Fits, World.list, World.add, World.finish, World.store, World.answer, World.start]

theorem refines_pushMerge : Refines (fun x y => decide (x < y)) (· == ·) pushMerge :=
  refines .of_linearOrder pushMerge_fits

end Course.Stl.LinkedList
