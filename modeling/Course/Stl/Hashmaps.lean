import Course.Lib.Machine
import Course.Lib.Objects
import Course.Stl.HashmapActions
import Mathlib.Data.PNat.Defs

/-! Programs with several linked hash maps, and the association lists they stand for. -/

open Course.Lib Heap

namespace Course.Stl.LinkedHashmap

/-- The operations of a program; `eraseFound` is `i.erase(j.find(key))`, and a map is destroyed
once at most. -/
inductive Op (K V L : Type)
  | create (capacity : ℕ+) (loadFactor : L)
  | copy (i : ℕ)
  | assign (i j : ℕ)
  | destroy (i : ℕ)
  | eraseFound (i j : ℕ) (key : K)
  | act (i : ℕ) (a : Action K V)

/-- The memory, the maps, of which some are destroyed, and the answers so far. -/
structure World (K V L : Type) where
  heap : Heap (Node K V)
  maps : List (Option (LinkedHashmap L))
  answers : List (Answer K V)

variable {K V L : Type}

namespace World

def start : World K V L := ⟨⟨fun _ => none, 0⟩, [], []⟩

def map (w : World K V L) (i : ℕ) : Option (LinkedHashmap L) := w.maps[i]?.join

def add (w : World K V L) (h : Heap (Node K V)) (m : LinkedHashmap L) : World K V L :=
  ⟨h, w.maps ++ [some m], w.answers ++ [.done]⟩

def finish (w : World K V L) (h : Heap (Node K V)) (i : ℕ) (m : Option (LinkedHashmap L))
    (r : Answer K V) : World K V L :=
  ⟨h, w.maps.set i m, w.answers ++ [r]⟩

end World

section

variable [Inhabited V] (hash : K → ℕ) (equal : K → K → Bool) (exceeds : ℕ → ℕ → L → Bool)

def step (w : World K V L) : Op K V L → Option (World K V L)
  | .create capacity loadFactor => do
    let (m, h) ← create capacity loadFactor w.heap
    some (w.add h m)
  | .copy i => do
    let other ← w.map i
    let (m, h) ← createCopy hash other w.heap
    some (w.add h m)
  | .assign i j => do
    let m ← w.map i
    let other ← w.map j
    let (m, h) ← assignFrom hash m other w.heap
    some (w.finish h i m .done)
  | .destroy i => do
    let m ← w.map i
    let ((), h) ← destroy m w.heap
    some (w.finish h i none .done)
  | .eraseFound i j key => do
    let m ← w.map i
    let other ← w.map j
    let (pos, h) ← find hash equal other key w.heap
    let (r, h) ← erase hash m pos h
    match r with
    | .ok m => some (w.finish h i m .done)
    | .error e => some (w.finish h i m (.thrown e))
  | .act i a => do
    let m ← w.map i
    let ((m, r), h) ← act hash equal exceeds m a w.heap
    some (w.finish h i m r)

def machine : Machine (World K V L) (Op K V L) where
  step := step hash equal exceeds

end

/-! ### Association lists -/

/-- The association lists of a program, and the answers so far. -/
structure Assocs (K V : Type) where
  maps : List (Option (List (K × V)))
  answers : List (Answer K V)

namespace Assocs

def start : Assocs K V := ⟨[], []⟩

def map (d : Assocs K V) (i : ℕ) : Option (List (K × V)) := d.maps[i]?.join

def add (d : Assocs K V) (s : List (K × V)) : Assocs K V :=
  ⟨d.maps ++ [some s], d.answers ++ [.done]⟩

def finish (d : Assocs K V) (i : ℕ) (s : Option (List (K × V))) (r : Answer K V) : Assocs K V :=
  ⟨d.maps.set i s, d.answers ++ [r]⟩

def step [Inhabited V] (equal : K → K → Bool) (d : Assocs K V) :
    Op K V L → Option (Assocs K V)
  | .create _ _ => some (d.add [])
  | .copy i => do
    let s ← d.map i
    some (d.add s)
  | .assign i j => do
    let _ ← d.map i
    let s ← d.map j
    some (d.finish i s .done)
  | .destroy i => do
    let _ ← d.map i
    some (d.finish i none .done)
  | .eraseFound i j key => do
    let s ← d.map i
    let _ ← d.map j
    let (s', r) := if i = j then (Action.erase key).on equal s else (s, .thrown .invalid_iterator)
    some (d.finish i s' r)
  | .act i a => do
    let s ← d.map i
    let (s, r) := a.on equal s
    some (d.finish i s r)

def machine [Inhabited V] (equal : K → K → Bool) : Machine (Assocs K V) (Op K V L) where
  step := step equal

end Assocs

/-! ### Maps and their nodes -/

variable {hash : K → ℕ} {equal : K → K → Bool} {exceeds : ℕ → ℕ → L → Bool} {w : World K V L}
  {d : Assocs K V} {i j : ℕ} {m other : LinkedHashmap L}

/-- The maps as objects, with the `next` pointers and the elements of each. -/
def kind (L : Type) (hash : K → ℕ) (equal : K → K → Bool) :
    Kind (LinkedHashmap L) ((ℕ → Ptr) × List (Item K V)) (List (K × V)) (Node K V) where
  Rep m g := Valid hash equal m g.1 g.2
  cells m g := cells g.1 (shape m g.2)
  value g := g.2.map Prod.snd

/-- The association lists are those of the maps, no two of which have a node in common. -/
structure Matches (hash : K → ℕ) (equal : K → K → Bool) (w : World K V L) (d : Assocs K V) :
    Prop where
  shows : (kind L hash equal).Shows w.heap w.maps d.maps
  answers : w.answers = d.answers

theorem Matches.absent (hm : Matches hash equal w d) (hi : w.map i = none) : d.map i = none := by
  obtain ⟨es, hes, -⟩ := hm.shows
  rw [Assocs.map, hes.absent hi]
  cases w.maps[i]? <;> rfl

theorem Matches.focus (hm : Matches hash equal w d) (hi : w.map i = some m) : ∃ next l F,
    Valid hash equal m next l ∧ d.map i = some (l.map Prod.snd) ∧
      (kind L hash equal).Focus w.heap w.maps d.maps i m (next, l) F := by
  obtain ⟨⟨next, l⟩, F, hf⟩ := hm.shows.focus hi
  exact ⟨next, l, F, hf.rep, by rw [Assocs.map, hf.value]; rfl, hf⟩

section Steps

variable {h : Heap (Node K V)} {s : List (K × V)} {r : Answer K V} {l l' : List (Item K V)}
  {next next' : ℕ → Ptr}

theorem Unique.congr (hu : Unique equal l) (hl : l'.map Prod.snd = l.map Prod.snd) :
    Unique equal l' := by
  have hpairs : (l'.map Prod.snd).Pairwise fun e e' => equal e.1 e'.1 = false := by
    rw [hl]
    exact List.pairwise_map.mpr hu
  exact List.pairwise_map.mp hpairs

theorem Valid.copy (hv : Valid hash equal other next l) (hl : l'.map Prod.snd = l.map Prod.snd)
    (hcopied : Copied m other) (hchained : Chained hash m.table m.capacity next' l') :
    Valid hash equal m next' l' where
  capacity := hcopied.capacity ▸ hv.capacity
  chained := hchained
  unique := hv.unique.congr hl
  size := by
    have hlength := congrArg List.length hl
    rw [List.length_map, List.length_map] at hlength
    rw [hcopied.size, hv.size, hlength]

theorem Matches.add (hm : Matches hash equal w d)
    (hshows : (kind L hash equal).Shows h (w.maps ++ [some m]) (d.maps ++ [some s])) :
    Matches hash equal (w.add h m) (d.add s) :=
  ⟨hshows, by rw [World.add, Assocs.add, hm.answers]⟩

theorem Matches.finish {o : Option (LinkedHashmap L)} {s : Option (List (K × V))}
    (hm : Matches hash equal w d)
    (hshows : (kind L hash equal).Shows h (w.maps.set i o) (d.maps.set i s)) :
    Matches hash equal (w.finish h i o r) (d.finish i s r) :=
  ⟨hshows, by rw [World.finish, Assocs.finish, hm.answers]⟩

theorem heads_ne {F : Multiset (ℕ × Node K V)}
    (hs : Holds h [] (cells next (shape m l) + (cells next' (shape other l') + F))) :
    m.head ≠ other.head := by
  have hother : (other.head, _) ∈ cells next' (shape other l') :=
    Multiset.mem_map.mpr ⟨_, Multiset.mem_add.mpr (.inl mem_nodes_head), rfl⟩
  exact HeapThread.ne_of_mem hs (Multiset.mem_add.mpr (.inl mem_nodes_head))
    (Multiset.mem_add.mpr (.inl hother))

/-- A step on a map, which is there on both sides or on neither. -/
theorem Matches.bind {f : LinkedHashmap L → Option (World K V L)}
    {g : List (K × V) → Option (Assocs K V)} (hm : Matches hash equal w d)
    (hsome : ∀ m next l F, Valid hash equal m next l →
      (kind L hash equal).Focus w.heap w.maps d.maps i m (next, l) F →
      Option.Rel (Matches hash equal) (f m) (g (l.map Prod.snd))) :
    Option.Rel (Matches hash equal) (w.map i >>= f) (d.map i >>= g) := by
  cases hi : w.map i with
  | none =>
    rw [hm.absent hi]
    exact .none
  | some m =>
    obtain ⟨next, l, F, hvalid, hs, hf⟩ := hm.focus hi
    rw [hs]
    exact hsome m next l F hvalid hf

/-- A step on two maps, which may be one. -/
theorem Matches.bind₂ {f : LinkedHashmap L → LinkedHashmap L → Option (World K V L)}
    {g : List (K × V) → List (K × V) → Option (Assocs K V)} (hm : Matches hash equal w d)
    (hself : ∀ m next l F, i = j → Valid hash equal m next l →
      (kind L hash equal).Focus w.heap w.maps d.maps i m (next, l) F →
      Option.Rel (Matches hash equal) (f m m) (g (l.map Prod.snd) (l.map Prod.snd)))
    (hother : ∀ m other next l next' l' F, i ≠ j → Valid hash equal m next l →
      Valid hash equal other next' l' →
      (kind L hash equal).Focus₂ w.heap w.maps d.maps i j m other (next, l) (next', l') F →
      Option.Rel (Matches hash equal) (f m other) (g (l.map Prod.snd) (l'.map Prod.snd))) :
    Option.Rel (Matches hash equal) (w.map i >>= fun m => w.map j >>= f m)
      (d.map i >>= fun s => d.map j >>= g s) := by
  cases hi : w.map i with
  | none =>
    rw [hm.absent hi]
    exact .none
  | some m =>
    obtain ⟨next, l, F, hvalid, hs, hf⟩ := hm.focus hi
    cases hj : w.map j with
    | none =>
      rw [hm.absent hj, hs]
      exact .none
    | some other =>
      by_cases hij : i = j
      · subst hij
        obtain rfl : m = other := Option.some.inj (hi.symm.trans hj)
        rw [hs]
        exact hself m next l F rfl hvalid hf
      · obtain ⟨⟨next, l⟩, ⟨next', l'⟩, F, hf⟩ := hm.shows.focus₂ hij hi hj
        have hs : d.map i = some (l.map Prod.snd) := by
          rw [Assocs.map, hf.value]
          rfl
        have hs' : d.map j = some (l'.map Prod.snd) := by
          rw [Assocs.map, hf.value']
          rfl
        rw [hs, hs']
        exact hother m other next l next' l' F hij hf.rep hf.rep' hf

variable [Inhabited V] (hm : Matches hash equal w d)

include hm

theorem step_create (capacity : ℕ+) (loadFactor : L) : Option.Rel (Matches hash equal)
    (step hash equal exceeds w (.create capacity loadFactor))
    (d.step equal (.create capacity loadFactor)) := by
  obtain ⟨F, hs, hnew⟩ := hm.shows.new
  have hwp : wp (create capacity loadFactor) (fun m h' => ∃ next,
      Valid hash equal m next ([] : List (Item K V)) ∧
      Holds h' [] (cells next (shape m []) + F)) w.heap :=
    wp_create hs fun table head next h' hchained hs' =>
      ⟨next, ⟨capacity.2, hchained, .nil, rfl⟩, hs'⟩
  obtain ⟨m, h', hrun, next, hvalid, hs'⟩ := hwp
  have hrep : (kind L hash equal).Rep m (next, ([] : List (Item K V))) := hvalid
  rw [step, Assocs.step, hrun]
  exact .some (hm.add (hnew hrep hs'))

theorem step_copy (i : ℕ) : Option.Rel (Matches hash equal)
    (step hash equal exceeds w (.copy i)) (d.step (L := L) equal (.copy i)) := by
  rw [step, Assocs.step]
  refine hm.bind fun other next l F hvalid hf => ?_
  have hwp : wp (createCopy hash other) (fun m h' => ∃ next' l', Valid hash equal m next' l' ∧
      l'.map Prod.snd = l.map Prod.snd ∧
      Holds h' [] (cells next' (shape m l') + (cells next (shape other l) + F))) w.heap :=
    wp_createCopy hf.holds hvalid.capacity fun m next' h' l' hl' hcopied hchained hs' =>
      ⟨next', l', hvalid.copy hl' hcopied hchained, hl', hs'⟩
  obtain ⟨m, h', hrun, next', l', hvalid', hl', hs'⟩ := hwp
  have hrep : (kind L hash equal).Rep m (next', l') := hvalid'
  rw [hrun, ← hl']
  exact .some (hm.add (hf.concat hrep hs'))

theorem step_destroy (i : ℕ) : Option.Rel (Matches hash equal)
    (step hash equal exceeds w (.destroy i)) (d.step (L := L) equal (.destroy i)) := by
  rw [step, Assocs.step]
  refine hm.bind fun m next l F hvalid hf => ?_
  have hwp : wp (destroy m) (fun _ h' => Holds h' [] F) w.heap :=
    wp_destroy hf.holds hvalid.size fun h' hs' => hs'
  obtain ⟨_, h', hrun, hs'⟩ := hwp
  rw [hrun]
  exact .some (hm.finish (hf.erase hs'))

theorem step_act (hk : Hashes hash equal) (i : ℕ) (a : Action K V) :
    Option.Rel (Matches hash equal) (step hash equal exceeds w (.act i a))
      (d.step (L := L) equal (.act i a)) := by
  rw [step, Assocs.step]
  refine hm.bind fun m next l F hvalid hf => ?_
  have hwp : wp (act hash equal exceeds m a) (fun p h' => ∃ next' l',
      Valid hash equal p.1 next' l' ∧ a.on equal (l.map Prod.snd) = (l'.map Prod.snd, p.2) ∧
      Holds h' [] (cells next' (shape p.1 l') + F)) w.heap :=
    wp_act hk hf.holds hvalid fun m' next' l' h' r hvalid' hon hs' =>
      ⟨next', l', hvalid', hon, hs'⟩
  obtain ⟨⟨m', r⟩, h', hrun, next', l', hvalid', hon, hs'⟩ := hwp
  have hrep : (kind L hash equal).Rep m' (next', l') := hvalid'
  rw [hrun, hon]
  exact .some (hm.finish (hf.put hrep hs'))

theorem step_assign (i j : ℕ) : Option.Rel (Matches hash equal)
    (step hash equal exceeds w (.assign i j)) (d.step (L := L) equal (.assign i j)) := by
  rw [step, Assocs.step]
  refine hm.bind₂ (fun m next l F hij hvalid hf => ?_)
    fun m other next l next' l' F hij hvalid hvalid' hf => ?_
  · have hrun : assignFrom hash m m w.heap = some (m, w.heap) := by
      rw [assignFrom, if_pos rfl]
      rfl
    rw [hrun]
    exact .some (hm.finish (hf.put hf.rep hf.holds))
  · have hwp : wp (assignFrom hash m other) (fun m' h' => ∃ next₁ l₁,
        Valid hash equal m' next₁ l₁ ∧ l₁.map Prod.snd = l'.map Prod.snd ∧
        Holds h' [] (cells next₁ (shape m' l₁) + (cells next' (shape other l') + F))) w.heap :=
      wp_assignFrom hf.holds (heads_ne hf.holds) hvalid.size hvalid.chained hvalid'.capacity
        fun table next₁ h' l₁ hl₁ hchained hs =>
          ⟨next₁, l₁, hvalid'.copy hl₁ ⟨rfl, rfl⟩ hchained, hl₁, hs⟩
    obtain ⟨m', h', hrun, next₁, l₁, hvalid₁, hl₁, hs⟩ := hwp
    have hrep : (kind L hash equal).Rep m' (next₁, l₁) := hvalid₁
    rw [hrun, ← hl₁]
    exact .some (hm.finish (hf.put hrep hs))

theorem step_eraseFound (hk : Hashes hash equal) (i j : ℕ) (key : K) :
    Option.Rel (Matches hash equal) (step hash equal exceeds w (.eraseFound i j key))
      (d.step (L := L) equal (.eraseFound i j key)) := by
  rw [step, Assocs.step]
  refine hm.bind₂ (fun m next l F hij hvalid hf => ?_)
    fun m other next l next' l' F hij hvalid hvalid' hf => ?_
  · have hwp : wp (find hash equal m key) (fun pos => wp (erase hash m pos) fun r h' =>
        ∃ m' next' l' a, Valid hash equal m' next' l' ∧
          (Action.erase key).on equal (l.map Prod.snd) = (l'.map Prod.snd, a) ∧
          Holds h' [] (cells next' (shape m' l') + F) ∧
          (r = .ok m' ∧ a = .done ∨ ∃ e, r = .error e ∧ m' = m ∧ a = .thrown e)) w.heap :=
      wp_erase_find hk hf.holds hvalid
        (fun m' next' l' h' hvalid' hon hs =>
          ⟨m', next', l', .done, hvalid', hon, hs, .inl ⟨rfl, rfl⟩⟩)
        fun hon => ⟨m, next, l, _, hvalid, hon, hf.holds, .inr ⟨_, rfl, rfl, rfl⟩⟩
    obtain ⟨pos, h', hfind, r, h'', herase, m', next', l', a, hvalid', hon, hs, hr⟩ := hwp
    have hrep : (kind L hash equal).Rep m' (next', l') := hvalid'
    have hshows := hf.put hrep hs
    rw [hfind, if_pos hij, hon]
    simp only [Option.bind_eq_bind, Option.bind_some, herase]
    obtain ⟨rfl, rfl⟩ | ⟨e, rfl, rfl, rfl⟩ := hr
    · exact .some (hm.finish hshows)
    · exact .some (hm.finish hshows)
  · -- An iterator of another map is not taken.
    have hwp : wp (find hash equal other key) (fun pos h' =>
        pos.hashmap = other.head ∧ h' = w.heap) w.heap :=
      wp_find hk (holds_left_comm hf.holds) hvalid' (fun x _ _ => ⟨rfl, rfl⟩) fun _ => ⟨rfl, rfl⟩
    obtain ⟨pos, _, hfind, hpos, rfl⟩ := hwp
    have herase : erase hash m pos w.heap = some (.error .invalid_iterator, w.heap) := by
      rw [erase, if_pos (.inr (hpos.trans_ne (heads_ne hf.holds).symm))]
      rfl
    rw [hfind, if_neg hij]
    simp only [Option.bind_eq_bind, Option.bind_some, herase]
    exact .some (hm.finish (hf.put hf.rep hf.holds))

/-- One operation on both sides, where they match. -/
theorem step_matches (hk : Hashes hash equal) (op : Op K V L) : Option.Rel (Matches hash equal)
    (step hash equal exceeds w op) (d.step equal op) := by
  cases op with
  | create capacity loadFactor => exact step_create hm capacity loadFactor
  | copy i => exact step_copy hm i
  | assign i j => exact step_assign hm i j
  | destroy i => exact step_destroy hm i
  | eraseFound i j key => exact step_eraseFound hm hk i j key
  | act i a => exact step_act hm hk i a

end Steps

theorem exec_matches [Inhabited V] (hk : Hashes hash equal) (exceeds : ℕ → ℕ → L → Bool)
    (ops : List (Op K V L)) :
    Option.Rel (Matches hash equal) ((machine hash equal exceeds).exec World.start ops)
      ((Assocs.machine equal).exec Assocs.start ops) := by
  induction ops using List.reverseRecOn with
  | nil => exact .some ⟨Kind.Shows.empty, rfl⟩
  | append_singleton ops op ih =>
    rw [Machine.exec_concat, Machine.exec_concat]
    generalize (machine hash equal exceeds).exec World.start ops = w at ih
    generalize (Assocs.machine equal).exec Assocs.start ops = d at ih
    cases ih with
    | none => exact .none
    | some hm => exact step_matches hm hk op

/-! ### Rings and chains in memory -/

/-- `b` is the next node of the ring after `a`, and `a` the one before `b`. -/
def Linked (h : Heap (Node K V)) (a b : ℕ) : Prop :=
  ∃ n n', h.cells a = some n ∧ h.cells b = some n' ∧ n.after = some b ∧ n'.before = some a

/-- The `next` pointers lead from `a` through the addresses, and end there. -/
def Leads (h : Heap (Node K V)) : ℕ → List ℕ → Prop
  | a, [] => ∃ n, h.cells a = some n ∧ n.next = none
  | a, b :: bs => (∃ n, h.cells a = some n ∧ n.next = some b) ∧ Leads h b bs

/-- The ring goes through the elements in their order, and the chain of every bucket through
those whose keys hash to it. -/
structure WellFormed (hash : K → ℕ) (equal : K → K → Bool) (h : Heap (Node K V))
    (m : LinkedHashmap L) (l : List (Item K V)) : Prop where
  linked : (m.head :: (l.map Prod.fst ++ [m.head])).IsChain (Linked h)
  nodup : (m.head :: l.map Prod.fst).Nodup
  entries : ∀ x ∈ l, ∃ n, h.cells x.1 = some n ∧ n.val = some x.2
  index : ∀ x ∈ l, index hash m.capacity x.2.1 < m.capacity
  chains : ∀ i < m.capacity, ∃ c : List (Item K V), Leads h (m.table + i) (c.map Prod.fst) ∧
    c.Perm (inBucket hash m.capacity i l)
  unique : l.Pairwise fun x y => equal x.2.1 y.2.1 = false
  size : m.numOfElements = l.length

/-- The answers are those of the association lists, which have the entries of the maps in
the order of their rings. -/
structure Agrees (hash : K → ℕ) (equal : K → K → Bool) (w : World K V L) (d : Assocs K V) :
    Prop where
  answers : w.answers = d.answers
  destroyed : ∀ i, w.map i = none ↔ d.map i = none
  maps : ∀ (i : ℕ) (m : LinkedHashmap L) (s : List (K × V)), w.map i = some m →
    d.map i = some s → ∃ l, WellFormed hash equal w.heap m l ∧ l.map Prod.snd = s

section Memory

variable {h : Heap (Node K V)} {F : Multiset (ℕ × Node K V)} {S : Multiset (ℕ × Bare K V)}
  {next : ℕ → Ptr} {l l₁ l₂ c : List (Item K V)} {q : ℕ} {b : Bare K V}

theorem cells_of_mem (hs : Holds h [] (cells next S + F)) (hq : (q, b) ∈ S) :
    h.cells q = some (b.node (next q)) :=
  hs.cells_of_mem (Multiset.mem_add.mpr (.inl (Multiset.mem_map.mpr ⟨_, hq, rfl⟩)))

theorem leads (hs : Holds h [] (cells next S + F)) (hq : (q, b) ∈ S) (hc : Listed S c)
    (hpath : HeapThread.Path next q (c.map Prod.fst)) : Leads h q (c.map Prod.fst) := by
  induction c generalizing q b with
  | nil => exact ⟨_, cells_of_mem hs hq, hpath⟩
  | cons x c ih =>
    obtain ⟨hx, hpath⟩ := hpath
    obtain ⟨before, after, hmem⟩ := hc x List.mem_cons_self
    exact ⟨⟨_, cells_of_mem hs hq, hx⟩,
      ih hmem (fun y hy => hc y (List.mem_cons_of_mem x hy)) hpath⟩

/-- The record in front of a place of the ring. -/
theorem exists_mem_nodes_before (head : ℕ) (l₁ l₂ : List (Item K V)) : ∃ val before,
    (HeapRing.last head (chain l₁), link val before (HeapRing.head head (chain l₂))) ∈
      nodes head (l₁ ++ l₂) := by
  rcases List.eq_nil_or_concat' l₁ with rfl | ⟨l₁, x, rfl⟩
  · exact ⟨_, _, mem_nodes_head⟩
  · rw [chain_append, HeapRing.last_append, ← List.append_cons]
    exact ⟨_, _, mem_nodes head l₁ l₂ x⟩

theorem linked_of_append {head : ℕ}
    (hs : Holds h [] (cells next (nodes head (l₁ ++ l₂) + S) + F)) :
    Linked h (HeapRing.last head (chain l₁)) (HeapRing.head head (chain l₂)) := by
  obtain ⟨val, before, hbefore⟩ := exists_mem_nodes_before head l₁ l₂
  obtain ⟨val', after, hafter⟩ := exists_mem_nodes_after head l₁ l₂
  exact ⟨_, _, cells_of_mem hs (Multiset.mem_add.mpr (.inl hbefore)),
    cells_of_mem hs (Multiset.mem_add.mpr (.inl hafter)), rfl, rfl⟩

theorem isChain_linked {head : ℕ} (hs : Holds h [] (cells next (nodes head l + S) + F)) :
    (head :: (l.map Prod.fst ++ [head])).IsChain (Linked h) := by
  have haddrs : (chain l).map Prod.fst = l.map Prod.fst := by
    rw [chain, List.map_map]
    rfl
  rw [← haddrs]
  refine HeapRing.isChain_ring fun l₁ l₂ heq => ?_
  obtain ⟨l₁, l₂, rfl, rfl, rfl⟩ := List.map_eq_append_iff.mp heq
  exact linked_of_append hs

theorem Valid.wellFormed (hv : Valid hash equal m next l)
    (hs : Holds h [] (cells next (shape m l) + F)) : WellFormed hash equal h m l where
  linked := isChain_linked hs
  nodup := nodes_nodup hs
  entries x hx := by
    obtain ⟨before, after, hmem⟩ := listed_nodes m.head l x hx
    exact ⟨_, cells_of_mem hs (Multiset.mem_add.mpr (.inl hmem)), rfl⟩
  index x _ := index_lt hash hv.capacity x.2.1
  chains i hi := by
    obtain ⟨c, hpath, hperm⟩ := hv.chained i hi
    have hlisted := ((listed_nodes m.head l).add_right
      (buckets K V m.table m.capacity)).of_perm hperm
    exact ⟨c, leads hs (Multiset.mem_add.mpr (.inr (mem_buckets hi))) hlisted hpath, hperm⟩
  unique := hv.unique
  size := hv.size

end Memory

theorem Matches.agrees (hm : Matches hash equal w d) : Agrees hash equal w d := by
  refine ⟨hm.answers, fun i => ⟨hm.absent, fun hi => ?_⟩, fun i m s hi hs => ?_⟩
  · by_contra hne
    obtain ⟨m, hmap⟩ := Option.ne_none_iff_exists'.mp hne
    obtain ⟨next, l, F, -, hs, -⟩ := hm.focus hmap
    rw [hi] at hs
    cases hs
  · obtain ⟨next, l, F, hvalid, hs', hf⟩ := hm.focus hi
    exact ⟨l, hvalid.wellFormed hf.holds, Option.some.inj (hs'.symm.trans hs)⟩

/-- Linked hash maps answer as association lists do under the same operations, and their
rings and chains stay well formed; there is no other way to fail than to name a map that does
not exist. -/
theorem hashmaps_agree [Inhabited V] (hk : Hashes hash equal) (exceeds : ℕ → ℕ → L → Bool)
    (ops : List (Op K V L)) :
    Option.Rel (Agrees hash equal) ((machine hash equal exceeds).exec World.start ops)
      ((Assocs.machine equal).exec Assocs.start ops) := by
  have hmatches := exec_matches hk exceeds ops
  generalize (machine hash equal exceeds).exec World.start ops = w at hmatches
  generalize (Assocs.machine equal).exec Assocs.start ops = d at hmatches
  cases hmatches with
  | none => exact .none
  | some hm => exact .some hm.agrees

/-- Two keys collide until the table is resized, and a copy keeps a node that is erased in the
first map. -/
def eraseCopied : List (Op ℕ ℕ Unit) :=
  [.create ⟨2, Nat.two_pos⟩ (), .act 0 (.insert (2, 20)), .act 0 (.insert (4, 40)),
    .act 0 (.write 1 10), .copy 0, .act 0 (.erase 4), .act 0 (.insert (1, 11)), .act 0 .forward,
    .create 1 (), .assign 2 1, .eraseFound 0 1 2, .act 2 .backward, .act 0 (.count 4),
    .act 1 (.at' 4)]

def eraseCopiedAssocs : Assocs ℕ ℕ :=
  ⟨[some [(2, 20), (1, 10)], some [(2, 20), (4, 40), (1, 10)], some [(2, 20), (4, 40), (1, 10)]],
    [.done, .inserted (2, 20) true, .inserted (4, 40) true, .done, .done, .done,
      .inserted (1, 10) false, .entries [(2, 20), (1, 10)], .done, .done,
      .thrown .invalid_iterator, .entries [(1, 10), (4, 40), (2, 20)], .size 0, .value 40]⟩

theorem exec_eraseCopied : (Assocs.machine fun x y : ℕ => x == y).exec Assocs.start
    eraseCopied = some eraseCopiedAssocs := rfl

theorem hashes_id : Hashes id fun x y : ℕ => x == y where
  equivalence := ⟨fun x => beq_self_eq_true x, BEq.symm, BEq.trans⟩
  hash _ _ := eq_of_beq

theorem hashmaps_agree_eraseCopied : ∃ w,
    (machine id (fun x y => x == y) fun n c _ => decide (c * 3 < n * 4)).exec World.start
      eraseCopied = some w ∧ Agrees id (fun x y => x == y) w eraseCopiedAssocs := by
  have hagree := hashmaps_agree hashes_id (fun n c _ => decide (c * 3 < n * 4)) eraseCopied
  rw [exec_eraseCopied] at hagree
  generalize (machine id (fun x y : ℕ => x == y) fun n c _ => decide (c * 3 < n * 4)).exec
    World.start eraseCopied = w at *
  cases hagree with
  | some hagrees => exact ⟨_, rfl, hagrees⟩

end Course.Stl.LinkedHashmap
