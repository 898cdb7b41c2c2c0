import Course.Lib.Machine
import Course.Stl.VectorActions

/-! Sequences of operations on vectors: which of them stay inside the storage,
and which of them do what they do to mathematical sequences. -/

open Course.Lib

namespace Course.Stl.Vector

/-- The operations of a program with several vectors. -/
inductive Op (V : Type)
  | create
  | copy (i : ℕ)
  | assign (i j : ℕ)
  | act (i : ℕ) (a : Action V)

variable {V : Type} {v other : Vector V} {l : List V} {s : List (Vector V)} {ms : List (List V)}

def step (s : List (Vector V)) : Op V → Option (List (Vector V))
  | .create => some (s ++ [Vector.create])
  | .copy i => do
    let v ← s[i]?
    let w ← createCopy v
    some (s ++ [w])
  | .assign i j => do
    let v ← s[i]?
    let other ← s[j]?
    if i = j then some s
    else
      let w ← v.assignFrom other
      some (s.set i w)
  | .act i a => do
    let v ← s[i]?
    let w ← v.act a
    some (s.set i w)

def machine (V : Type) : Machine (List (Vector V)) (Op V) where
  step := step

def Op.on (ms : List (List V)) : Op V → List (List V)
  | .create => ms ++ [[]]
  | .copy i => ms ++ [ms[i]?.getD []]
  | .assign i j => ms.set i (ms[j]?.getD [])
  | .act i a => ms.set i (a.on (ms[i]?.getD []))

def Op.Fits (s : List (Vector V)) : Op V → Prop
  | .create => True
  | .copy i => i < s.length
  | .assign i j => i < s.length ∧ j < s.length
  | .act i a => ∃ v, s[i]? = some v ∧ a.Fits v

def Op.Safe (s : List (Vector V)) : Op V → Prop
  | .act i a => ∀ v, s[i]? = some v → a.Safe v
  | _ => True

/-- What a safe operation makes of the elements. -/
def Op.made (ms : List (List V)) : Op V → List (List V)
  | .act i a => ms.set i (a.made (ms[i]?.getD []))
  | op => op.on ms

/-- The vectors of a program, each with its elements. -/
structure Shows (s : List (Vector V)) (ms : List (List V)) : Prop where
  length : s.length = ms.length
  holds : ∀ (i : ℕ) (v : Vector V) (l : List V), s[i]? = some v → ms[i]? = some l → Holds v l

namespace Shows

theorem exists_of_lt (h : Shows s ms) {i : ℕ} (hi : i < s.length) :
    ∃ v l, s[i]? = some v ∧ ms[i]? = some l ∧ Holds v l := by
  have hi' : i < ms.length := h.length ▸ hi
  exact ⟨s[i], ms[i], List.getElem?_eq_getElem hi, List.getElem?_eq_getElem hi',
    h.holds i _ _ (List.getElem?_eq_getElem hi) (List.getElem?_eq_getElem hi')⟩

theorem append (h : Shows s ms) (hv : Holds v l) : Shows (s ++ [v]) (ms ++ [l]) := by
  refine ⟨by simp [h.length], fun i w m hw hm => ?_⟩
  rcases Nat.lt_trichotomy i s.length with hlt | rfl | hgt
  · rw [List.getElem?_append_left hlt] at hw
    rw [List.getElem?_append_left (h.length ▸ hlt)] at hm
    exact h.holds i w m hw hm
  · rw [List.getElem?_concat_length] at hw
    rw [h.length, List.getElem?_concat_length] at hm
    cases hw
    cases hm
    exact hv
  · rw [List.getElem?_eq_none (by rw [List.length_append, List.length_singleton]; omega)] at hw
    cases hw

theorem set (h : Shows s ms) (i : ℕ) (hv : Holds v l) : Shows (s.set i v) (ms.set i l) := by
  refine ⟨by simp [h.length], fun j w m hw hm => ?_⟩
  rw [List.getElem?_set] at hw hm
  split at hw
  next hij =>
    rw [if_pos hij, ← h.length] at hm
    split at hw
    next hlt =>
      rw [if_pos hlt] at hm
      cases hw
      cases hm
      exact hv
    next => cases hw
  next hij =>
    rw [if_neg hij] at hm
    exact h.holds j w m hw hm

end Shows

theorem step_spec {op : Op V} (h : Shows s ms) (hfits : op.Fits s) (hsafe : op.Safe s) :
    ∃ s', step s op = some s' ∧ Shows s' (op.made ms) := by
  cases op with
  | create => exact ⟨_, rfl, h.append Holds.create⟩
  | copy i =>
    obtain ⟨v, l, hv, hl, hholds⟩ := h.exists_of_lt hfits
    obtain ⟨w, hw, hcopy⟩ := hholds.createCopy
    refine ⟨s ++ [w], by simp [step, hv, hw], ?_⟩
    rw [Op.made, Op.on, hl]
    · exact h.append hcopy
    · simp
  | assign i j =>
    obtain ⟨v, l, hv, hl, hholds⟩ := h.exists_of_lt hfits.1
    obtain ⟨other, l', hother, hl', hholds'⟩ := h.exists_of_lt hfits.2
    by_cases hij : i = j
    · subst hij
      refine ⟨s, by simp [step, hv], ?_⟩
      have hsame : ms.set i l = ms := by
        obtain ⟨hi, rfl⟩ := List.getElem?_eq_some_iff.mp hl
        exact List.set_getElem_self hi
      rw [Op.made, Op.on, hl, Option.getD_some, hsame]
      · exact h
      · simp
    · obtain ⟨w, hw, hassign⟩ := hholds.assignFrom hholds'
      refine ⟨s.set i w, by simp [step, hv, hother, hij, hw], ?_⟩
      rw [Op.made, Op.on, hl']
      · exact h.set i hassign
      · simp
  | act i a =>
    obtain ⟨v, hv, hfits⟩ := hfits
    obtain ⟨hi, -⟩ := List.getElem?_eq_some_iff.mp hv
    obtain ⟨v₁, l, hv₁, hl, hholds⟩ := h.exists_of_lt hi
    obtain rfl : v = v₁ := Option.some.inj (hv.symm.trans hv₁)
    obtain ⟨w, hw, hact⟩ := act_spec hholds hfits (hsafe v hv)
    refine ⟨s.set i w, by simp [step, hv, hw], ?_⟩
    rw [Op.made, hl]
    exact h.set i hact

theorem step_eq_none {op : Op V} (h : Shows s ms) (hfits : op.Fits s) (hsafe : ¬op.Safe s) :
    step s op = none := by
  cases op with
  | create => exact absurd trivial hsafe
  | copy i => exact absurd trivial hsafe
  | assign i j => exact absurd trivial hsafe
  | act i a =>
    obtain ⟨v, hv, hfits⟩ := hfits
    obtain ⟨hi, -⟩ := List.getElem?_eq_some_iff.mp hv
    obtain ⟨v₁, l, hv₁, hl, hholds⟩ := h.exists_of_lt hi
    obtain rfl : v = v₁ := Option.some.inj (hv.symm.trans hv₁)
    have hunsafe : ¬a.Safe v := by
      intro ha
      refine hsafe fun w hw => ?_
      obtain rfl : v = w := Option.some.inj (hv.symm.trans hw)
      exact ha
    simp [step, hv, act_eq_none hholds hfits hunsafe]

/-! ### Runs -/

/-- A program starts with one empty vector. -/
def start (V : Type) : List (Vector V) := [Vector.create]

theorem start_shows : Shows (start V) [[]] := by
  refine ⟨rfl, fun i v l hv hl => ?_⟩
  cases i with
  | zero =>
    cases hv
    cases hl
    exact Holds.create
  | succ i => simp [start] at hv

/-- What a program has run so far was safe. -/
theorem exec_shows {ops : List (Op V)} (hfits : (machine V).Along (fun s op => op.Fits s) (start V) ops)
    (h : (machine V).exec (start V) ops = some s) :
    Shows s (ops.foldl Op.made [[]]) ∧ (machine V).Along (fun s op => op.Safe s) (start V) ops := by
  induction ops using List.reverseRecOn generalizing s with
  | nil =>
    cases h
    exact ⟨start_shows, Machine.along_nil⟩
  | append_singleton ops op ih =>
    rw [Machine.exec_concat] at h
    obtain ⟨t, ht, hstep⟩ := Option.bind_eq_some_iff.mp h
    obtain ⟨hfits, hop⟩ := Machine.along_concat.mp hfits
    obtain ⟨hshows, halong⟩ := ih hfits ht
    have hsafe : op.Safe t := by
      by_contra hsafe
      have hstep : step t op = some s := hstep
      rw [step_eq_none hshows (hop t ht) hsafe] at hstep
      cases hstep
    obtain ⟨s', hs', hshows'⟩ := step_spec hshows (hop t ht) hsafe
    obtain rfl : s' = s := Option.some.inj (hs'.symm.trans hstep)
    refine ⟨by simpa using hshows', Machine.along_concat.mpr ⟨halong, fun u hu => ?_⟩⟩
    obtain rfl : t = u := Option.some.inj (ht.symm.trans hu)
    exact hsafe

/-- `_first <= _last <= _endOfStorage`, and exactly the slots before `_last`
have an element. -/
structure WellStored (v : Vector V) : Prop where
  last_le : v.last ≤ v.slots.length
  constructed : ∀ p, (∃ x, v.slots[p]? = some (some x)) ↔ p < v.last

/-- All operations end without an access outside the storage or to a slot
without an element, and keep the storage in order. -/
def Stored (ops : List (Op V)) : Prop :=
  ∀ pre, pre <+: ops → ∃ s, (machine V).exec (start V) pre = some s ∧ ∀ v ∈ s, WellStored v

theorem Stored.safe {ops : List (Op V)}
    (hfits : (machine V).Along (fun s op => op.Fits s) (start V) ops) (h : Stored ops) :
    (machine V).Along (fun s op => op.Safe s) (start V) ops := by
  obtain ⟨s, hs, -⟩ := h ops (List.prefix_refl ops)
  exact (exec_shows hfits hs).2

def orThrow (e : Error) : Option V → Except Error V
  | some x => .ok x
  | none => .error e

/-- Everything that can be asked of a vector, but for `empty`, is answered as
for the sequence `l`. -/
structure Observes (v : Vector V) (l : List V) : Prop where
  size : v.size = l.length
  at' : ∀ i, v.at' i = some (orThrow .indexOutOfBound l[i]?)
  front : v.front = some (orThrow .containerIsEmpty l.head?)
  back : v.back = some (orThrow .containerIsEmpty l.getLast?)

theorem Holds.observes (h : Holds v l) : Observes v l := by
  have hlast := h.last
  have hread : ∀ i, i < l.length → v.read i = l[i]? :=
    fun i hi => read_filled h.filled (hlast ▸ hi)
  refine ⟨hlast, fun i => ?_, ?_, ?_⟩
  · rw [Vector.at']
    by_cases hi : v.last ≤ i
    · rw [if_pos hi, List.getElem?_eq_none (hlast ▸ hi)]
      rfl
    · have hi' : i < l.length := by omega
      rw [if_neg hi, hread i hi', List.getElem?_eq_getElem hi']
      rfl
  · cases l with
    | nil => simp [Vector.front, hlast, orThrow]
    | cons x l => simp [Vector.front, hlast, hread, orThrow]
  · rcases List.eq_nil_or_concat l with rfl | ⟨l, x, rfl⟩
    · simp [Vector.back, hlast, orThrow]
    · simp [Vector.back, hlast, hread, orThrow]

theorem Observes.unique {l' : List V} (h : Observes v l) (h' : Observes v l') : l = l' := by
  apply List.ext_getElem?
  intro i
  have heq := Option.some.inj ((h.at' i).symm.trans (h'.at' i))
  cases hl : l[i]? <;> cases hl' : l'[i]? <;> simp_all [orThrow]

/-- Vector by vector. -/
structure Agrees (P : Vector V → List V → Prop) (s : List (Vector V)) (ms : List (List V)) :
    Prop where
  length : s.length = ms.length
  all : ∀ (i : ℕ) (v : Vector V) (l : List V), s[i]? = some v → ms[i]? = some l → P v l

/-- After every operation the vectors agree with the sequences on which the same
operations were done. -/
def Matches (P : Vector V → List V → Prop) (ops : List (Op V)) : Prop :=
  ∀ pre, pre <+: ops → pre ≠ [] →
    ∃ s, (machine V).exec (start V) pre = some s ∧ Agrees P s (pre.foldl Op.on [[]])

theorem Shows.agrees (h : Shows s ms) : Agrees Observes s ms :=
  ⟨h.length, fun i v l hv hl => (h.holds i v l hv hl).observes⟩

/-- The element the reference is to is not overwritten by the one before it, or
by an equal one. -/
def Value.Kept (v : Vector V) (pos : ℕ) : Value V → Prop
  | .const _ => True
  | .element k => k ≤ pos ∨ v.slots[k - 1]? = v.slots[k]?

def Action.Harmless (v : Vector V) : Action V → Prop
  | .insert pos value => ¬value.Dangles v ∧ value.Kept v pos
  | a => a.Safe v

def Op.Harmless (s : List (Vector V)) : Op V → Prop
  | .act i a => ∀ v, s[i]? = some v → a.Harmless v
  | _ => True

theorem Action.Harmless.safe {a : Action V} (h : a.Harmless v) : a.Safe v := by
  cases a with
  | insert pos value => exact h.1
  | _ => exact h

end Course.Stl.Vector
