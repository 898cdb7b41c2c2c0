import Course.Lib.Machine
import Course.Lib.Objects
import Course.Stl.QueueMembers
import Mathlib.Data.List.Induction

/-! Programs with several priority queues, and what they may observe of multisets. -/

open Course.Lib Heap

namespace Course.Stl.PriorityQueue

/-- The operations of a program; a queue is destroyed once at most. -/
inductive Op (T : Type)
  | create
  | push (i : ℕ) (e : T)
  | pop (i : ℕ)
  | top (i : ℕ)
  | size (i : ℕ)
  | empty (i : ℕ)
  | merge (i j : ℕ)
  | copy (i : ℕ)
  | assign (i j : ℕ)
  | destroy (i : ℕ)

inductive Answer (T : Type)
  | done
  | thrown (e : Exception)
  | element (t : T)
  | size (n : ℕ)
  | flag (b : Bool)

/-- The memory, the queues, of which some are destroyed, and the answers so far. -/
structure World (T : Type) where
  heap : Heap (Node T)
  queues : List (Option PriorityQueue)
  answers : List (Answer T)

variable {T : Type}

namespace World

def start : World T := ⟨⟨fun _ => none, 0⟩, [], []⟩

def queue (w : World T) (i : ℕ) : Option PriorityQueue := w.queues[i]?.join

def add (w : World T) (h : Heap (Node T)) (q : PriorityQueue) : World T :=
  ⟨h, w.queues ++ [some q], w.answers ++ [.done]⟩

def store (w : World T) (h : Heap (Node T)) (i : ℕ) (q : Option PriorityQueue) : World T :=
  { w with heap := h, queues := w.queues.set i q }

def answer (w : World T) (a : Answer T) : World T := { w with answers := w.answers ++ [a] }

end World

variable (cmp : T → T → Bool)

/-- All queues have the comparison `cmp`. A queue is not merged with itself. -/
def step (w : World T) : Op T → Option (World T)
  | .create => some (w.add w.heap create)
  | .push i e => do
    let q ← w.queue i
    let (q, h) ← push cmp q e w.heap
    some ((w.store h i q).answer .done)
  | .pop i => do
    let q ← w.queue i
    let ((r, q), h) ← pop cmp q w.heap
    match r with
    | .ok () => some ((w.store h i q).answer .done)
    | .error e => some ((w.store h i q).answer (.thrown e))
  | .top i => do
    let q ← w.queue i
    let ((r, q), h) ← top cmp q w.heap
    match r with
    | .ok t => some ((w.store h i q).answer (.element t))
    | .error e => some ((w.store h i q).answer (.thrown e))
  | .size i => do
    let q ← w.queue i
    some (w.answer (.size q.size))
  | .empty i => do
    let q ← w.queue i
    some (w.answer (.flag q.empty))
  | .merge i j => do
    let q ← w.queue i
    let other ← w.queue j
    if i = j then none
    else
      let ((q, other), h) ← merge cmp q other w.heap
      some (((w.store h i q).store h j other).answer .done)
  | .copy i => do
    let other ← w.queue i
    let (q, h) ← createCopy other w.heap
    some (w.add h q)
  | .assign i j => do
    let q ← w.queue i
    let other ← w.queue j
    if i = j then some (w.answer .done)
    else
      let (q, h) ← assignFrom q other w.heap
      some ((w.store h i q).answer .done)
  | .destroy i => do
    let q ← w.queue i
    let ((), h) ← destroy q w.heap
    some ((w.store h i none).answer .done)

def machine : Machine (World T) (Op T) where
  step := step cmp

/-- The queues that an operation names exist, and are two for `merge`. -/
def Op.Fits (w : World T) : Op T → Prop
  | .create => True
  | .push i _ | .pop i | .top i | .size i | .empty i | .copy i | .destroy i =>
    (w.queue i).isSome
  | .merge i j => (w.queue i).isSome ∧ (w.queue j).isSome ∧ i ≠ j
  | .assign i j => (w.queue i).isSome ∧ (w.queue j).isSome

/-- An empty queue is not copied, nor assigned to another one that is not empty. -/
def Op.Safe (w : World T) : Op T → Prop
  | .copy i => ∀ q, w.queue i = some q → q.length ≠ 0
  | .assign i j => i = j ∨ ∀ q other, w.queue i = some q → w.queue j = some other →
    other.length ≠ 0 ∨ q.length = 0
  | _ => True

def Op.Copies : Op T → Prop
  | .copy _ | .assign _ _ => True
  | _ => False

/-! ### Multisets -/

abbrev Bags (T : Type) := List (Option (Multiset T))

/-- What an operation may do to the elements of the queues, and what it may answer. -/
inductive Acts (cmp : T → T → Bool) : Bags T → Op T → Answer T → Bags T → Prop
  | create {ms : Bags T} : Acts cmp ms .create .done (ms ++ [some 0])
  | push {ms : Bags T} {i : ℕ} {e : T} {s : Multiset T} : ms[i]? = some (some s) →
    Acts cmp ms (.push i e) .done (ms.set i (some (e ::ₘ s)))
  | pop {ms : Bags T} {i : ℕ} {t : T} {s : Multiset T} : ms[i]? = some (some (t ::ₘ s)) →
    Tops cmp t (t ::ₘ s) → Acts cmp ms (.pop i) .done (ms.set i (some s))
  | popEmpty {ms : Bags T} {i : ℕ} : ms[i]? = some (some 0) →
    Acts cmp ms (.pop i) (.thrown .container_is_empty) ms
  | top {ms : Bags T} {i : ℕ} {t : T} {s : Multiset T} : ms[i]? = some (some s) → t ∈ s →
    Tops cmp t s → Acts cmp ms (.top i) (.element t) ms
  | topEmpty {ms : Bags T} {i : ℕ} : ms[i]? = some (some 0) →
    Acts cmp ms (.top i) (.thrown .container_is_empty) ms
  | size {ms : Bags T} {i : ℕ} {s : Multiset T} : ms[i]? = some (some s) →
    Acts cmp ms (.size i) (.size s.card) ms
  | empty {ms : Bags T} {i : ℕ} {s : Multiset T} : ms[i]? = some (some s) →
    Acts cmp ms (.empty i) (.flag (s.card = 0)) ms
  | merge {ms : Bags T} {i j : ℕ} {s t : Multiset T} : i ≠ j → ms[i]? = some (some s) →
    ms[j]? = some (some t) →
    Acts cmp ms (.merge i j) .done ((ms.set i (some (s + t))).set j (some 0))
  | copy {ms : Bags T} {i : ℕ} {s : Multiset T} : ms[i]? = some (some s) →
    Acts cmp ms (.copy i) .done (ms ++ [some s])
  | assign {ms : Bags T} {i j : ℕ} {s t : Multiset T} : ms[i]? = some (some s) →
    ms[j]? = some (some t) → Acts cmp ms (.assign i j) .done (ms.set i (some t))
  | destroy {ms : Bags T} {i : ℕ} {s : Multiset T} : ms[i]? = some (some s) →
    Acts cmp ms (.destroy i) .done (ms.set i none)

/-- The answers that a list of operations may get, and the elements afterwards. -/
inductive Runs (cmp : T → T → Bool) : List (Op T) → List (Answer T) → Bags T → Prop
  | nil : Runs cmp [] [] []
  | concat {ops : List (Op T)} {as : List (Answer T)} {ms ms' : Bags T} {op : Op T}
    {a : Answer T} : Runs cmp ops as ms → Acts cmp ms op a ms' →
    Runs cmp (ops ++ [op]) (as ++ [a]) ms'

/-! ### Queues and their trees -/

variable {cmp} {w : World T} {ms : Bags T} {i j : ℕ} {q : PriorityQueue} {f g : Forest T}

/-- The queues as objects: their trees, and the elements in these. -/
def kind (cmp : T → T → Bool) : Kind PriorityQueue (Forest T) (Multiset T) (Node T) where
  Rep := Represents cmp
  cells _ f := f.cells
  value := Forest.keys

/-- No two queues have a node in common. -/
def Shows (cmp : T → T → Bool) (w : World T) (ms : Bags T) : Prop :=
  (kind cmp).Shows w.heap w.queues ms

/-- The operation does to the queues, and answers, what it may. -/
def Does (cmp : T → T → Bool) (w : World T) (ms : Bags T) (op : Op T) : Prop :=
  ∃ w' a ms', step cmp w op = some w' ∧ w'.answers = w.answers ++ [a] ∧
    Acts cmp ms op a ms' ∧ Shows cmp w' ms'

/-- The trees of the queues. -/
abbrev Groves (T : Type) := List (Option (Forest T))

/-- The queues as objects that stand for their trees. -/
def trees (cmp : T → T → Bool) : Kind PriorityQueue (Forest T) (Forest T) (Node T) where
  Rep := Represents cmp
  cells _ f := f.cells
  value := id

def ShowsTrees (cmp : T → T → Bool) (w : World T) (fs : Groves T) : Prop :=
  (trees cmp).Shows w.heap w.queues fs

/-- The elements in the trees. -/
def bags (fs : Groves T) : Bags T := fs.map (Option.map Forest.keys)

theorem shows_iff : Shows cmp w ms ↔ ∃ fs, ShowsTrees cmp w fs ∧ ms = bags fs :=
  Kind.shows_mapValue (k := trees cmp) (f := Forest.keys)

/-- What an operation makes of the trees, and what it answers. -/
inductive Makes (cmp : T → T → Bool) : Groves T → Op T → Answer T → Groves T → Prop
  | create {fs : Groves T} : Makes cmp fs .create .done (fs ++ [some .nil])
  | push {fs : Groves T} {i : ℕ} {e : T} {f : Forest T} (a : ℕ) : fs[i]? = some (some f) →
    Makes cmp fs (.push i e) .done
      (fs.set i (some (.mergeTrees cmp (f.link (.node a e 0 .nil .nil)))))
  | pop {fs : Groves T} {i : ℕ} {l : List (Forest.Root T)} {m : Forest.Root T}
    {s : List (Forest.Root T)} : fs[i]? = some (some (.ofRoots (l ++ m :: s))) →
    Tops cmp m.key (Forest.ofRoots (l ++ m :: s)).keys → (∀ r ∈ l, cmp r.key m.key = true) →
    Makes cmp fs (.pop i) .done (fs.set i (some (.adopt cmp (.ofRoots (l ++ s)) m.child)))
  | popEmpty {fs : Groves T} {i : ℕ} : fs[i]? = some (some .nil) →
    Makes cmp fs (.pop i) (.thrown .container_is_empty) fs
  | top {fs : Groves T} {i : ℕ} {t : T} {f : Forest T} : fs[i]? = some (some f) → t ∈ f.keys →
    Tops cmp t f.keys → Makes cmp fs (.top i) (.element t) fs
  | topEmpty {fs : Groves T} {i : ℕ} : fs[i]? = some (some .nil) →
    Makes cmp fs (.top i) (.thrown .container_is_empty) fs
  | size {fs : Groves T} {i : ℕ} {f : Forest T} : fs[i]? = some (some f) →
    Makes cmp fs (.size i) (.size f.keys.card) fs
  | empty {fs : Groves T} {i : ℕ} {f : Forest T} : fs[i]? = some (some f) →
    Makes cmp fs (.empty i) (.flag (f.keys.card = 0)) fs
  | merge {fs : Groves T} {i j : ℕ} {f g : Forest T} : i ≠ j → fs[i]? = some (some f) →
    fs[j]? = some (some g) →
    Makes cmp fs (.merge i j) .done
      ((fs.set i (some (.mergeTrees cmp (f.link g)))).set j (some .nil))
  | copy {fs : Groves T} {i : ℕ} {f x : Forest T} : fs[i]? = some (some f) → x.keys = f.keys →
    Makes cmp fs (.copy i) .done (fs ++ [some x])
  | assign {fs : Groves T} {i j : ℕ} {f g x : Forest T} : fs[i]? = some (some f) →
    fs[j]? = some (some g) → x.keys = g.keys → Makes cmp fs (.assign i j) .done (fs.set i (some x))
  | destroy {fs : Groves T} {i : ℕ} {f : Forest T} : fs[i]? = some (some f) →
    Makes cmp fs (.destroy i) .done (fs.set i none)

theorem bags_getElem? {fs : Groves T} {i : ℕ} {f : Forest T} (h : fs[i]? = some (some f)) :
    (bags fs)[i]? = some (some f.keys) := by
  rw [bags, List.getElem?_map, h]
  rfl

theorem bags_set (fs : Groves T) (i : ℕ) (f : Option (Forest T)) :
    bags (fs.set i f) = (bags fs).set i (f.map Forest.keys) := List.map_set

theorem bags_concat (fs : Groves T) (f : Forest T) :
    bags (fs ++ [some f]) = bags fs ++ [some f.keys] := List.map_append

/-- What is made of the trees is done to the elements. -/
theorem Makes.acts {fs fs' : Groves T} {op : Op T} {a : Answer T} (h : Makes cmp fs op a fs') :
    Acts cmp (bags fs) op a (bags fs') := by
  cases h with
  | create =>
    rw [bags_concat]
    exact .create
  | push a hf =>
    rw [bags_set, Option.map_some, keys_push]
    exact .push (bags_getElem? hf)
  | pop hf htops hfirst =>
    have hm := bags_getElem? hf
    rw [@keys_pop T cmp] at hm htops
    rw [bags_set, Option.map_some]
    exact .pop hm htops
  | popEmpty hf => exact .popEmpty (bags_getElem? hf)
  | top hf hmem htops => exact .top (bags_getElem? hf) hmem htops
  | topEmpty hf => exact .topEmpty (bags_getElem? hf)
  | size hf => exact .size (bags_getElem? hf)
  | empty hf => exact .empty (bags_getElem? hf)
  | merge hij hf hg =>
    rw [bags_set, bags_set, Option.map_some, Option.map_some, keys_merge]
    exact .merge hij (bags_getElem? hf) (bags_getElem? hg)
  | copy hf hkeys =>
    rw [bags_concat, hkeys]
    exact .copy (bags_getElem? hf)
  | assign hf hg hkeys =>
    rw [bags_set, Option.map_some, hkeys]
    exact .assign (bags_getElem? hf) (bags_getElem? hg)
  | destroy hf =>
    rw [bags_set]
    exact .destroy (bags_getElem? hf)

/-- The operation makes of the trees, and answers, what it should. -/
def Grows (cmp : T → T → Bool) (w : World T) (fs : Groves T) (op : Op T) : Prop :=
  ∃ w' a fs', step cmp w op = some w' ∧ w'.answers = w.answers ++ [a] ∧
    Makes cmp fs op a fs' ∧ ShowsTrees cmp w' fs'

section Steps

variable {fs : Groves T} (hcmp : StrictWeak cmp) (hw : ShowsTrees cmp w fs)

include hw

theorem grows_create : Grows cmp w fs .create := by
  obtain ⟨F, hs, hnew⟩ := hw.new
  refine ⟨_, .done, _, rfl, rfl, .create, hnew .create (hs.congr ?_)⟩
  simp [trees]

theorem grows_size (hi : (w.queue i).isSome) : Grows cmp w fs (.size i) := by
  obtain ⟨q, hq⟩ := Option.isSome_iff_exists.mp hi
  obtain ⟨f, F, hf⟩ := hw.focus hq
  refine ⟨w.answer (.size q.size), _, fs, by simp [step, hq], rfl, ?_, hw⟩
  rw [size, hf.rep.length]
  exact .size hf.value

theorem grows_empty (hi : (w.queue i).isSome) : Grows cmp w fs (.empty i) := by
  obtain ⟨q, hq⟩ := Option.isSome_iff_exists.mp hi
  obtain ⟨f, F, hf⟩ := hw.focus hq
  refine ⟨w.answer (.flag q.empty), _, fs, by simp [step, hq], rfl, ?_, hw⟩
  rw [empty, hf.rep.length]
  exact .empty hf.value

theorem grows_destroy (hi : (w.queue i).isSome) : Grows cmp w fs (.destroy i) := by
  obtain ⟨q, hq⟩ := Option.isSome_iff_exists.mp hi
  obtain ⟨f, F, hf⟩ := hw.focus hq
  have hwp : wp (destroy q) (fun _ h' => Holds h' [] F) w.heap :=
    wp_destroy hf.rep hf.holds fun h' hs' => hs'
  obtain ⟨_, h', hrun, hs'⟩ := hwp
  exact ⟨(w.store h' i none).answer .done, .done, _, by simp [step, hq, hrun], rfl,
    .destroy hf.value, hf.erase hs'⟩

include hcmp

theorem grows_push (hi : (w.queue i).isSome) (e : T) : Grows cmp w fs (.push i e) := by
  obtain ⟨q, hq⟩ := Option.isSome_iff_exists.mp hi
  obtain ⟨f, F, hf⟩ := hw.focus hq
  let pushed (a : ℕ) : Forest T := .mergeTrees cmp (f.link (.node a e 0 .nil .nil))
  have hwp : wp (push cmp q e) (fun q' h' => ∃ a, Represents cmp q' (pushed a) ∧
      Holds h' [] ((pushed a).cells + F)) w.heap :=
    wp_push hcmp hf.rep hf.holds fun a q' h' hrep hs' => ⟨a, hrep, hs'⟩
  obtain ⟨q', h', hrun, a, hrep, hs'⟩ := hwp
  exact ⟨(w.store h' i q').answer .done, .done, _, by simp [step, hq, hrun], rfl,
    .push a hf.value, hf.put hrep hs'⟩

theorem grows_pop (hi : (w.queue i).isSome) : Grows cmp w fs (.pop i) := by
  obtain ⟨q, hq⟩ := Option.isSome_iff_exists.mp hi
  obtain ⟨f, F, hf⟩ := hw.focus hq
  by_cases hne : q.length = 0
  · have hrun : pop cmp q w.heap = some ((.error .container_is_empty, q), w.heap) := by
      rw [pop, if_pos hne]
      rfl
    have hvalue : fs[i]? = some (some f) := hf.value
    rw [hf.rep.eq_nil_iff.mpr hne] at hvalue
    exact ⟨(w.store w.heap i q).answer (.thrown .container_is_empty), _, fs,
      by simp [step, hq, hrun], rfl, .popEmpty hvalue, hf.keep rfl hf.rep hf.holds⟩
  · have hwp : wp (pop cmp q) (fun r h' => ∃ l m s, f = .ofRoots (l ++ m :: s) ∧
        Tops cmp m.key f.keys ∧ (∀ r ∈ l, cmp r.key m.key = true) ∧ r.1 = .ok () ∧
        Represents cmp r.2 (.adopt cmp (.ofRoots (l ++ s)) m.child) ∧
        Holds h' [] ((Forest.adopt cmp (.ofRoots (l ++ s)) m.child).cells + F)) w.heap :=
      wp_pop hcmp hf.rep hne hf.holds fun l m s q' h' heq htops hfirst hrep' hs' =>
        ⟨l, m, s, heq, htops, hfirst, rfl, hrep', hs'⟩
    obtain ⟨⟨r, q'⟩, h', hrun, l, m, s, rfl, htops, hfirst, rfl, hrep', hs'⟩ := hwp
    exact ⟨(w.store h' i q').answer .done, .done, _, by simp [step, hq, hrun], rfl,
      .pop hf.value htops hfirst, hf.put hrep' hs'⟩

theorem grows_top (hi : (w.queue i).isSome) : Grows cmp w fs (.top i) := by
  obtain ⟨q, hq⟩ := Option.isSome_iff_exists.mp hi
  obtain ⟨f, F, hf⟩ := hw.focus hq
  by_cases hne : q.length = 0
  · have hrun : top cmp q w.heap = some ((.error .container_is_empty, q), w.heap) := by
      rw [top, if_pos hne]
      rfl
    have hvalue : fs[i]? = some (some f) := hf.value
    rw [hf.rep.eq_nil_iff.mpr hne] at hvalue
    exact ⟨(w.store w.heap i q).answer (.thrown .container_is_empty), _, fs,
      by simp [step, hq, hrun], rfl, .topEmpty hvalue, hf.keep rfl hf.rep hf.holds⟩
  · have hwp : wp (top cmp q) (fun r h' => ∃ t, t ∈ f.keys ∧ Tops cmp t f.keys ∧
        r.1 = .ok t ∧ Represents cmp r.2 f ∧ h' = w.heap) w.heap :=
      wp_top hcmp hf.rep hne hf.holds fun t q' hmem htops hrep' =>
        ⟨t, hmem, htops, rfl, hrep', rfl⟩
    obtain ⟨⟨r, q'⟩, h', hrun, t, hmem, htops, rfl, hrep', rfl⟩ := hwp
    exact ⟨(w.store w.heap i q').answer (.element t), _, fs, by simp [step, hq, hrun], rfl,
      .top hf.value hmem htops, hf.keep rfl hrep' hf.holds⟩

theorem grows_merge (hi : (w.queue i).isSome) (hj : (w.queue j).isSome) (hij : i ≠ j) :
    Grows cmp w fs (.merge i j) := by
  obtain ⟨q, hq⟩ := Option.isSome_iff_exists.mp hi
  obtain ⟨other, hother⟩ := Option.isSome_iff_exists.mp hj
  obtain ⟨f, g, F, hf⟩ := hw.focus₂ hij hq hother
  let merged : Forest T := .mergeTrees cmp (f.link g)
  have hwp : wp (merge cmp q other) (fun r h' => Represents cmp r.1 merged ∧
      Represents cmp r.2 .nil ∧ Holds h' [] (merged.cells + F)) w.heap :=
    wp_merge hcmp hf.rep hf.rep' hf.holds fun q' other' h' hx hnil hs' => ⟨hx, hnil, hs'⟩
  obtain ⟨⟨q', other'⟩, h', hrun, hx, hnil, hs'⟩ := hwp
  refine ⟨((w.store h' i q').store h' j other').answer .done, .done, _,
    by simp [step, hq, hother, hij, hrun], rfl, .merge hij hf.value hf.value',
    hf.put₂ hx hnil (hs'.congr ?_)⟩
  simp only [trees, Forest.cells_nil, zero_add]
  rfl

omit hcmp

theorem grows_copy (hi : (w.queue i).isSome) (hsafe : (Op.copy i : Op T).Safe w) :
    Grows cmp w fs (.copy i) := by
  obtain ⟨q, hq⟩ := Option.isSome_iff_exists.mp hi
  obtain ⟨f, F, hf⟩ := hw.focus hq
  have hwp : wp (createCopy q) (fun q' h' => ∃ x, Represents cmp q' x ∧ x.keys = f.keys ∧
      Holds h' [] (x.cells + (f.cells + F))) w.heap :=
    wp_createCopy hf.rep (hsafe q hq) hf.holds fun q' x h' hx hkeys hs' => ⟨x, hx, hkeys, hs'⟩
  obtain ⟨q', h', hrun, x, hx, hkeys, hs'⟩ := hwp
  exact ⟨w.add h' q', .done, _, by simp [step, hq, hrun], rfl, .copy hf.value hkeys,
    hf.concat hx hs'⟩

theorem grows_assign (hi : (w.queue i).isSome) (hj : (w.queue j).isSome)
    (hsafe : (Op.assign i j : Op T).Safe w) : Grows cmp w fs (.assign i j) := by
  obtain ⟨q, hq⟩ := Option.isSome_iff_exists.mp hi
  obtain ⟨other, hother⟩ := Option.isSome_iff_exists.mp hj
  by_cases hij : i = j
  · subst hij
    obtain ⟨f, F, hf⟩ := hw.focus hq
    have hmakes : Makes cmp fs (.assign i i) .done (fs.set i (some f)) :=
      .assign hf.value hf.value rfl
    rw [show fs.set i (some f) = fs from hf.set_value] at hmakes
    exact ⟨w.answer .done, .done, fs, by simp [step, hq], rfl, hmakes, hw⟩
  · obtain ⟨f, g, F, hf⟩ := hw.focus₂ hij hq hother
    have hwp : wp (assignFrom q other) (fun q' h' => ∃ x, Represents cmp q' x ∧
        x.keys = g.keys ∧ Holds h' [] (x.cells + (g.cells + F))) w.heap :=
      wp_assignFrom hf.rep hf.rep' (hsafe.resolve_left hij q other hq hother) hf.holds
        fun q' x h' hx hkeys hs' => ⟨x, hx, hkeys, hs'⟩
    obtain ⟨q', h', hrun, x, hx, hkeys, hs'⟩ := hwp
    exact ⟨(w.store h' i q').answer .done, .done, _, by simp [step, hq, hother, hij, hrun], rfl,
      .assign hf.value hf.value' hkeys, hf.put hx hs'⟩

end Steps

theorem step_grows (hcmp : StrictWeak cmp) {fs : Groves T} (hw : ShowsTrees cmp w fs) {op : Op T}
    (hfits : op.Fits w) (hsafe : op.Safe w) : Grows cmp w fs op := by
  cases op with
  | create => exact grows_create hw
  | push i e => exact grows_push hcmp hw hfits e
  | pop i => exact grows_pop hcmp hw hfits
  | top i => exact grows_top hcmp hw hfits
  | size i => exact grows_size hw hfits
  | empty i => exact grows_empty hw hfits
  | merge i j => exact grows_merge hcmp hw hfits.1 hfits.2.1 hfits.2.2
  | copy i => exact grows_copy hw hfits hsafe
  | assign i j => exact grows_assign hw hfits.1 hfits.2 hsafe
  | destroy i => exact grows_destroy hw hfits

theorem step_spec (hcmp : StrictWeak cmp) (hw : Shows cmp w ms) {op : Op T} (hfits : op.Fits w)
    (hsafe : op.Safe w) : Does cmp w ms op := by
  obtain ⟨fs, htrees, rfl⟩ := shows_iff.mp hw
  obtain ⟨w', a, fs', hstep, hanswers, hmakes, htrees'⟩ := step_grows hcmp htrees hfits hsafe
  exact ⟨w', a, _, hstep, hanswers, hmakes.acts, shows_iff.mpr ⟨fs', htrees', rfl⟩⟩

/-! ### Runs -/

/-- The operations end, with answers that multisets may give, and the queues hold
what the multisets do. -/
def Sorts (cmp : T → T → Bool) (ops : List (Op T)) : Prop :=
  ∃ w ms, (machine cmp).exec World.start ops = some w ∧ Runs cmp ops w.answers ms ∧
    Shows cmp w ms

theorem sorts_of_safe (hcmp : StrictWeak cmp) {ops : List (Op T)}
    (h : (machine cmp).Along (fun w op => op.Fits w ∧ op.Safe w) World.start ops) :
    Sorts cmp ops := by
  induction ops using List.reverseRecOn with
  | nil => exact ⟨World.start, [], rfl, .nil, Kind.Shows.empty⟩
  | append_singleton ops op ih =>
    obtain ⟨hops, hlast⟩ := Machine.along_concat.mp h
    obtain ⟨w, ms, hexec, hruns, hw⟩ := ih hops
    obtain ⟨hfits, hsafe⟩ := hlast w hexec
    obtain ⟨w', a, ms', hstep, hanswers, hacts, hw'⟩ := step_spec hcmp hw hfits hsafe
    refine ⟨w', ms', ?_, hanswers ▸ hruns.concat hacts, hw'⟩
    rw [Machine.exec_concat, hexec]
    exact hstep

theorem safe_of_not_copies {op : Op T} (hop : ¬op.Copies) (w : World T) : op.Safe w := by
  cases op with
  | copy i => exact absurd trivial hop
  | assign i j => exact absurd trivial hop
  | _ => trivial

/-- Operations on queues built by the default constructor do to them, and answer,
what they may do to multisets. -/
theorem sorts (hcmp : StrictWeak cmp) {ops : List (Op T)} (hops : ∀ op ∈ ops, ¬op.Copies)
    (hfits : (machine cmp).Along (fun w op => op.Fits w) World.start ops) : Sorts cmp ops := by
  apply sorts_of_safe hcmp
  intro pre op post w heq hexec
  have hmem : op ∈ ops := heq ▸ List.mem_append_right pre List.mem_cons_self
  exact ⟨hfits pre op post w heq hexec, safe_of_not_copies (hops op hmem) w⟩

def less (x y : ℕ) : Bool := x < y

theorem less_strictWeak : StrictWeak less := .of_linearOrder

/-- Two queues of one element each become one. -/
def pushMerge : List (Op ℕ) := [.create, .push 0 5, .create, .push 1 7, .merge 0 1]

theorem pushMerge_fits :
    (machine less).Along (fun w op => op.Fits w) World.start pushMerge := by
  change (machine less).Along _ _ ((((([] ++ [_]) ++ [_]) ++ [_]) ++ [_]) ++ [_])
  simp only [Machine.along_concat]
  refine ⟨⟨⟨⟨⟨Machine.along_nil, ?_⟩, ?_⟩, ?_⟩, ?_⟩, ?_⟩
  all_goals
    rintro w ⟨⟩
    simp [Op.Fits, World.queue, World.add, World.store, World.answer, World.start]

theorem sorts_pushMerge : Sorts less pushMerge :=
  sorts less_strictWeak (by simp [pushMerge, Op.Copies]) pushMerge_fits

/-! ### Copies of empty queues -/

theorem step_destroy (hi : w.queue i = some q)
    (hroot : ∀ p, q.root = some p → remove p w.heap = none) :
    step cmp w (.destroy i) = none := by
  simp [step, hi, destroy_stuck hroot]

/-- After a copy that is not safe some queue cannot be destroyed. -/
theorem exists_stuck (hw : Shows cmp w ms) {c : Op T} (hc : c.Copies) (hfits : c.Fits w)
    (hsafe : ¬c.Safe w) : ∃ w' k, step cmp w c = some w' ∧ (w'.queue k).isSome ∧
      step cmp w' (.destroy k) = none := by
  cases c with
  | copy i =>
    simp only [Op.Safe, not_forall, not_not] at hsafe
    obtain ⟨q, hq, hlen⟩ := hsafe
    have hnew : (w.add w.heap ⟨none, 0, none⟩).queue w.queues.length =
        some ⟨none, 0, none⟩ := by
      simp [World.queue, World.add]
    refine ⟨w.add w.heap ⟨none, 0, none⟩, w.queues.length, ?_, ?_, ?_⟩
    · simp [step, hq, createCopy_empty hlen]
    · rw [hnew]
      rfl
    · exact step_destroy hnew (by simp)
  | assign i j =>
    simp only [Op.Safe, not_or, not_forall, not_not] at hsafe
    obtain ⟨hij, q, other, hq, hother, hlen, hne⟩ := hsafe
    obtain ⟨f, F, hf⟩ := hw.focus hq
    have hwp : wp (assignFrom q other) (fun q' h' => ∃ a, h'.cells a = none ∧
        q' = ⟨some (some a), 0, none⟩) w.heap :=
      wp_assignFrom_empty hf.rep hne hlen hf.holds fun a h' hfreed => ⟨a, hfreed, rfl⟩
    obtain ⟨q', h', hrun, a, hfreed, rfl⟩ := hwp
    have hlt : i < w.queues.length := by
      by_contra hge
      rw [World.queue, List.getElem?_eq_none (Nat.le_of_not_lt hge)] at hq
      cases hq
    have hnew : ((w.store h' i (some ⟨some (some a), 0, none⟩)).answer .done).queue i =
        some ⟨some (some a), 0, none⟩ := by
      simp [World.queue, World.store, World.answer, hlt]
    refine ⟨(w.store h' i (some ⟨some (some a), 0, none⟩)).answer .done, i, ?_, ?_, ?_⟩
    · simp [step, hq, hother, hij, hrun]
    · rw [hnew]
      rfl
    · apply step_destroy hnew
      rintro p ⟨⟩
      exact remove_freed hfreed
  | _ => exact absurd hc id

/-- After a copy in a run with safe copies all later operations do what they may do
to multisets if and only if the copy is safe too. -/
theorem copies_iff (hcmp : StrictWeak cmp) {ops : List (Op T)} {c : Op T}
    (hops : (machine cmp).Along (fun w op => op.Fits w ∧ op.Safe w) World.start ops)
    (hw : (machine cmp).exec World.start ops = some w) (hc : c.Copies) (hfits : c.Fits w) :
    (∀ more : List (Op T), (∀ op ∈ more, ¬op.Copies) →
      (machine cmp).Along (fun w op => op.Fits w) World.start (ops ++ c :: more) →
      Sorts cmp (ops ++ c :: more)) ↔ c.Safe w := by
  constructor
  · intro h
    by_contra hsafe
    obtain ⟨w', ms, hexec, -, hshows⟩ := sorts_of_safe hcmp hops
    obtain rfl : w = w' := Option.some.inj (hw.symm.trans hexec)
    obtain ⟨w', k, hstep, hk, hstuck⟩ := exists_stuck hshows hc hfits hsafe
    have hexec' : (machine cmp).exec World.start (ops ++ [c]) = some w' := by
      rw [Machine.exec_concat, hw]
      exact hstep
    have hcopied : (machine cmp).Along (fun w op => op.Fits w) World.start (ops ++ [c]) := by
      refine Machine.along_concat.mpr ⟨?_, fun t ht => ?_⟩
      · exact fun pre op post t heq ht => (hops pre op post t heq ht).1
      · obtain rfl : w = t := Option.some.inj (hw.symm.trans ht)
        exact hfits
    have hall : (machine cmp).Along (fun w op => op.Fits w) World.start
        ((ops ++ [c]) ++ [.destroy k]) := by
      refine Machine.along_concat.mpr ⟨hcopied, fun t ht => ?_⟩
      obtain rfl : w' = t := Option.some.inj (hexec'.symm.trans ht)
      exact hk
    rw [List.append_assoc] at hall
    obtain ⟨w'', -, hlast, -⟩ := h [.destroy k] (by simp [Op.Copies]) hall
    have hnone : (machine cmp).exec World.start (ops ++ c :: [.destroy k]) = none := by
      rw [List.append_cons, Machine.exec_concat, hexec']
      exact hstuck
    rw [hnone] at hlast
    cases hlast
  · intro hsafe more hmore hall
    apply sorts_of_safe hcmp
    induction more using List.reverseRecOn with
    | nil =>
      refine Machine.along_concat.mpr ⟨hops, fun t ht => ?_⟩
      obtain rfl : w = t := Option.some.inj (hw.symm.trans ht)
      exact ⟨hfits, hsafe⟩
    | append_singleton more op ih =>
      rw [← List.cons_append, ← List.append_assoc] at hall ⊢
      obtain ⟨hall, hlast⟩ := Machine.along_concat.mp hall
      refine Machine.along_concat.mpr ⟨ih (fun x hx => hmore x ?_) hall, fun t ht => ?_⟩
      · exact List.mem_append_left _ hx
      · exact ⟨hlast t ht, safe_of_not_copies (hmore op (by simp)) t⟩

/-- The copy has as many elements. -/
theorem length_copy {w' : World T} (hq : w.queue i = some q)
    (hstep : step cmp w (.copy i) = some w') :
    ∃ q', w'.queue w.queues.length = some q' ∧ q'.length = q.length := by
  obtain ⟨other, hother, hstep⟩ := Option.bind_eq_some_iff.mp hstep
  obtain rfl := Option.some.inj (hq.symm.trans hother)
  obtain ⟨⟨q', h⟩, hcopy, heq⟩ := Option.bind_eq_some_iff.mp hstep
  obtain ⟨⟨root, h'⟩, -, hroot⟩ := Option.bind_eq_some_iff.mp hcopy
  obtain ⟨rfl, rfl⟩ := Prod.mk.inj (Option.some.inj hroot)
  obtain rfl := Option.some.inj heq
  exact ⟨⟨root, q.length, none⟩, by simp [World.queue, World.add], rfl⟩

/-- A queue with an element is pushCopy. -/
def pushCopy : List (Op ℕ) := [.create, .push 0 5, .copy 0]

theorem exec_pushCopy : ∃ w q, (machine less).exec World.start pushCopy = some w ∧
    (machine less).Along (fun w op => op.Fits w ∧ op.Safe w) World.start pushCopy ∧
    w.queue 1 = some q ∧ q.length = 1 := by
  have hsafe : (machine less).Along (fun w op => op.Fits w ∧ op.Safe w) World.start pushCopy := by
    change (machine less).Along _ _ ((([] ++ [_]) ++ [_]) ++ [_])
    simp only [Machine.along_concat]
    refine ⟨⟨⟨Machine.along_nil, ?_⟩, ?_⟩, ?_⟩
    all_goals
      rintro w ⟨⟩
      simp [Op.Fits, Op.Safe, World.queue, World.add, World.store, World.answer, World.start]
  obtain ⟨w, -, hexec, -⟩ := sorts_of_safe less_strictWeak hsafe
  have hstep := hexec
  rw [show pushCopy = [.create, .push 0 5] ++ [.copy 0] from rfl, Machine.exec_concat] at hstep
  obtain ⟨v, hv, hcopy⟩ := Option.bind_eq_some_iff.mp hstep
  cases hv
  have hcopied : step less _ (.copy 0) = some w := hcopy
  obtain ⟨q, hq, hlen⟩ := length_copy rfl hcopied
  exact ⟨w, q, hexec, hsafe, hq, hlen⟩

/-- The copy is pushCopy in turn. -/
theorem copies_iff_again : ∃ w, (machine less).exec World.start pushCopy = some w ∧
    ((∀ more : List (Op ℕ), (∀ op ∈ more, ¬op.Copies) →
      (machine less).Along (fun w op => op.Fits w) World.start (pushCopy ++ .copy 1 :: more) →
      Sorts less (pushCopy ++ .copy 1 :: more)) ↔ (Op.copy 1 : Op ℕ).Safe w) ∧
    (Op.copy 1 : Op ℕ).Safe w := by
  obtain ⟨w, q, hexec, hsafe, hq, hlen⟩ := exec_pushCopy
  refine ⟨w, hexec, copies_iff less_strictWeak hsafe hexec trivial (by rw [Op.Fits, hq]; rfl), ?_⟩
  intro q' hq'
  obtain rfl := Option.some.inj (hq.symm.trans hq')
  rw [hlen]
  exact Nat.one_ne_zero

/-- An empty queue is copied, and the copy destroyed. -/
theorem not_sorts_copy : ¬∀ (ops : List (Op ℕ)) (c : Op ℕ) (more : List (Op ℕ)),
    (∀ op ∈ ops ++ more, ¬op.Copies) → c.Copies →
    (machine less).Along (fun w op => op.Fits w) World.start (ops ++ c :: more) →
    Sorts less (ops ++ c :: more) := by
  intro h
  have hfits : (machine less).Along (fun w op => op.Fits w) World.start
      [.create, .copy 0, .destroy 1] := by
    change (machine less).Along _ _ ((([] ++ [_]) ++ [_]) ++ [_])
    simp only [Machine.along_concat]
    refine ⟨⟨⟨Machine.along_nil, ?_⟩, ?_⟩, ?_⟩
    all_goals
      rintro w ⟨⟩
      simp [Op.Fits, World.queue, World.add, World.start]
  have hmore : ∀ op ∈ ([.create] : List (Op ℕ)) ++ [.destroy 1], ¬op.Copies := by
    simp [Op.Copies]
  obtain ⟨w, -, hexec, -⟩ := h [.create] (.copy 0) [.destroy 1] hmore trivial hfits
  cases hexec

end Course.Stl.PriorityQueue
