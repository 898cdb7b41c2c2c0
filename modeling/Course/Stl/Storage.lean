import Mathlib.Data.List.Induction
import Course.Stl.Vector

/-! What the loops and the operations of a vector do to its slots. -/

namespace Course.Stl.Vector

variable {V : Type} {b b' : Block V} {v other : Vector V} {l a c m : List V} {x y : V} {p : ℕ}

/-- The first slots hold `l`, the others are raw. -/
def Filled (b : Block V) (l : List V) : Prop := ∃ k, b = l.map some ++ List.replicate k none

namespace Filled

theorem malloc (n : ℕ) : Filled (malloc n : Block V) [] := ⟨n, rfl⟩

theorem length_le (h : Filled b l) : l.length ≤ b.length := by
  obtain ⟨k, rfl⟩ := h
  simp

theorem getElem?_join (h : Filled b l) (p : ℕ) : b[p]?.join = l[p]? := by
  obtain ⟨k, rfl⟩ := h
  by_cases hp : p < l.length
  · rw [List.getElem?_append_left (by simpa using hp), List.getElem?_map,
      List.getElem?_eq_getElem hp]
    rfl
  · rw [List.getElem?_append_right (by simpa using hp), List.getElem?_eq_none (Nat.le_of_not_lt hp),
      List.getElem?_replicate]
    split <;> rfl

theorem getElem?_middle (h : Filled b (a ++ x :: c)) : b[a.length]? = some (some x) := by
  obtain ⟨k, rfl⟩ := h
  simp

theorem set_middle (h : Filled b (a ++ x :: c)) (y : V) :
    Filled (b.set a.length (some y)) (a ++ y :: c) := by
  obtain ⟨k, rfl⟩ := h
  exact ⟨k, by simp⟩

theorem construct (h : Filled b l) (hlt : l.length < b.length) (x : V) :
    ∃ b', construct b l.length x = some b' ∧ Filled b' (l ++ [x]) ∧ b'.length = b.length := by
  refine ⟨b.set l.length (some x), by simp [Vector.construct, hlt], ?_, List.length_set ..⟩
  obtain ⟨k, rfl⟩ := h
  cases k with
  | zero => simp at hlt
  | succ k => exact ⟨k, by simp [List.replicate_succ]⟩

theorem assign (h : Filled b (a ++ x :: c)) (y : V) :
    ∃ b', assign b a.length y = some b' ∧ Filled b' (a ++ y :: c) ∧ b'.length = b.length :=
  ⟨b.set a.length (some y), by simp [Vector.assign, h.getElem?_middle], h.set_middle y,
    List.length_set ..⟩

theorem destroy (h : Filled b (l ++ [x])) :
    ∃ b', destroy b l.length = some b' ∧ Filled b' l ∧ b'.length = b.length := by
  refine ⟨b.set l.length none, ?_, ?_, List.length_set ..⟩
  · simp [Vector.destroy, h.getElem?_middle (c := [])]
  · obtain ⟨k, rfl⟩ := h
    exact ⟨k + 1, by simp [List.replicate_succ]⟩

end Filled

/-- A vector between two operations, with its elements. -/
structure Holds (v : Vector V) (l : List V) : Prop where
  filled : Filled v.slots l
  last : v.last = l.length
  pos : 0 < v.slots.length

theorem read_filled (h : Filled v.slots l) (hp : p < v.last) : v.read p = l[p]? := by
  rw [read, if_pos hp, h.getElem?_join]

/-- Slots at the front that were destroyed, and elements still there. -/
theorem destroy_next (pre : ℕ) (l : List V) (rest : Block V) :
    destroy (List.replicate pre none ++ (x :: l).map some ++ rest) pre =
      some (List.replicate (pre + 1) none ++ l.map some ++ rest) := by
  simp [destroy, List.replicate_succ']

/-! ### The loops over all elements -/

theorem destroyAll_spec (l : List V) (pre : ℕ) (rest : Block V) :
    ∃ b, destroyAll (pre + l.length)
      (List.replicate pre none ++ l.map some ++ rest) pre = some b := by
  induction l generalizing pre with
  | nil =>
    rw [destroyAll]
    exact ⟨_, if_neg (by simp)⟩
  | cons x l ih =>
    obtain ⟨b, hb⟩ := ih (pre + 1)
    refine ⟨b, ?_⟩
    rw [destroyAll, if_pos (by simp), destroy_next]
    rwa [List.length_cons, ← Nat.add_assoc, Nat.add_right_comm]

theorem Holds.destroyAll (h : Holds v l) : ∃ b, destroyAll v.last v.slots 0 = some b := by
  obtain ⟨k, hk⟩ := h.filled
  obtain ⟨b, hb⟩ := destroyAll_spec l 0 (List.replicate k none)
  refine ⟨b, ?_⟩
  rw [h.last, hk]
  simpa using hb

theorem moveAll_spec (l : List V) {rest : Block V}
    (hslots : v.slots = List.replicate m.length none ++ l.map some ++ rest)
    (hlast : v.last = m.length + l.length) (hb : Filled b m) (hlen : v.last ≤ b.length) :
    ∃ b', moveAll v b m.length = some b' ∧ Filled b' (m ++ l) ∧ b'.length = b.length := by
  induction l generalizing v b m with
  | nil =>
    rw [moveAll, if_neg (by simp [hlast])]
    exact ⟨b, rfl, by simpa using hb, rfl⟩
  | cons x l ih =>
    rw [List.length_cons] at hlast
    have hread : v.read m.length = some x := by
      rw [read, if_pos (by omega), hslots]
      simp
    obtain ⟨b₁, hb₁, hfill, hlen₁⟩ := hb.construct (by omega) x
    have hnext := ih (v := { v with
      slots := List.replicate (m ++ [x]).length none ++ l.map some ++ rest }) rfl
      (by simp only [List.length_append, List.length_singleton]; omega) hfill (by
        simp only
        omega)
    obtain ⟨b', hb', hfill', hlen'⟩ := hnext
    refine ⟨b', ?_, by simpa using hfill', hlen'.trans hlen₁⟩
    rw [moveAll, if_pos (by omega), hread, hslots, destroy_next]
    simpa [hb₁] using hb'

theorem Holds.expand (h : Holds v l) :
    ∃ v', v.expand = some v' ∧ Holds v' l ∧ v'.block = v.block + 1 ∧
      v'.slots.length = 2 * v.slots.length := by
  obtain ⟨k, hk⟩ := h.filled
  have hlen := h.filled.length_le
  obtain ⟨b', hb', hfill, hlen'⟩ := moveAll_spec (v := v) (m := []) (b := malloc (2 * v.slots.length))
    l (by simpa using hk) (by simpa using h.last) (Filled.malloc _) (by
      rw [h.last, malloc, List.length_replicate]
      omega)
  rw [malloc, List.length_replicate] at hlen'
  refine ⟨⟨v.block + 1, b', v.last⟩, ?_, ⟨hfill, h.last, ?_⟩, rfl, hlen'⟩
  · simp only [Vector.expand, List.length_nil] at hb' ⊢
    rw [hb']
    rfl
  · have := h.pos
    simp only
    omega

theorem copyAll_spec (l : List V) (h : Holds other (m ++ l)) (hb : Filled b m)
    (hlen : other.last ≤ b.length) :
    ∃ b', copyAll other b m.length = some b' ∧ Filled b' (m ++ l) ∧ b'.length = b.length := by
  have hlast := h.last
  rw [List.length_append] at hlast
  induction l generalizing b m with
  | nil =>
    rw [copyAll, if_neg (by simp [hlast])]
    exact ⟨b, rfl, by simpa using hb, rfl⟩
  | cons x l ih =>
    rw [List.length_cons] at hlast
    have hread : other.read m.length = some x := by
      rw [read_filled h.filled (by omega)]
      simp
    obtain ⟨b₁, hb₁, hfill, hlen₁⟩ := hb.construct (by omega) x
    rw [List.append_cons] at h
    obtain ⟨b', hb', hfill', hlen'⟩ := ih h hfill (by omega) (by
      rw [List.length_append, List.length_singleton]
      omega)
    refine ⟨b', ?_, by simpa using hfill', hlen'.trans hlen₁⟩
    rw [copyAll, if_pos (by omega), hread]
    simpa [hb₁] using hb'

/-- The slots of a copy. -/
theorem Holds.copyAll (h : Holds other l) :
    ∃ b, copyAll other (malloc other.slots.length) 0 = some b ∧ Filled b l ∧
      b.length = other.slots.length := by
  obtain ⟨b, hb, hfill, hlen⟩ := copyAll_spec (m := []) l h (Filled.malloc other.slots.length) (by
    rw [h.last, malloc, List.length_replicate]
    exact h.filled.length_le)
  rw [malloc, List.length_replicate] at hlen
  exact ⟨b, hb, hfill, hlen⟩

/-! ### The shifts -/

/-- What is at `pos` stays there, and what is behind moves up by one. -/
theorem shiftUp_spec (m : List V) (h : Filled v.slots (a ++ m ++ y :: c))
    (hlast : (a ++ m).length ≤ v.last) :
    ∃ v', v.shiftUp a.length (a ++ m).length = some v' ∧
      Filled v'.slots (a ++ m.headD y :: (m ++ c)) ∧ v'.slots.length = v.slots.length ∧
      v'.last = v.last ∧ v'.block = v.block := by
  induction m using List.reverseRecOn generalizing v y c with
  | nil =>
    refine ⟨v, ?_, by simpa using h, rfl, rfl, rfl⟩
    rw [List.append_nil]
    cases hp : a.length <;> simp [shiftUp]
  | append_singleton m z ih =>
    have hlen : (a ++ (m ++ [z])).length = (a ++ m).length + 1 := by simp [Nat.add_assoc]
    have hread : v.read (a ++ m).length = some z := by
      rw [read_filled h (by omega)]
      simp
    obtain ⟨b, hb, hfill, hblen⟩ := h.assign z
    obtain ⟨v', hv', hfill', hslots, hlast', hblock⟩ := ih (v := { v with slots := b }) (y := z)
      (c := z :: c) (by simpa using hfill) (by simp only; omega)
    refine ⟨v', ?_, ?_, hslots.trans hblen, hlast', hblock⟩
    · rw [hlen, shiftUp, if_neg (by simp [Nat.add_assoc]), hread]
      rw [hlen] at hb
      simp only [hb, Option.bind_eq_bind, Option.bind_some]
      exact hv'
    · cases m <;> simpa using hfill'

/-- The loop that counts the wrong way runs out of the storage. -/
theorem shiftFrom_eq_none {ind : ℕ} (v : Vector V) (h : ind < p) : v.shiftFrom ind p = none := by
  induction hn : v.slots.length - p generalizing v p with
  | zero =>
    rw [shiftFrom.eq_def, if_neg (Nat.ne_of_gt h)]
    cases p with
    | zero => rfl
    | succ q =>
      have hout : v.slots[q + 1]? = none := List.getElem?_eq_none (by omega)
      cases hread : v.read q with
      | none => simp [hread]
      | some x => simp [hread, assign, hout]
  | succ n ih =>
    rw [shiftFrom.eq_def, if_neg (Nat.ne_of_gt h)]
    cases p with
    | zero => rfl
    | succ q =>
      cases hread : v.read q with
      | none => simp [hread]
      | some x =>
        cases hassign : assign v.slots (q + 1) x with
        | none => simp [hread, hassign]
        | some b =>
          have hlen : b.length = v.slots.length := by
            rw [assign] at hassign
            split at hassign
            · rw [← Option.some.inj hassign, List.length_set]
            · cases hassign
          simp only [hread, hassign, Option.bind_eq_bind, Option.bind_some]
          exact ih { v with slots := b } (by omega) (by simp only; omega)

theorem lt_of_read {x : V} (h : v.read p = some x) : p < v.last := by
  by_contra hge
  rw [read, if_neg hge] at h
  cases h

/-- The last turn of the loop reads the slot at `_last`. -/
theorem shiftDown_eq_none (v : Vector V) (h : p < v.last) : v.shiftDown p = none := by
  induction hn : v.last - p generalizing v p with
  | zero => omega
  | succ n ih =>
    rw [shiftDown, if_pos (Nat.ne_of_lt h)]
    cases hread : v.read (p + 1) with
    | none => rfl
    | some x =>
      have hlt := lt_of_read hread
      cases hassign : assign v.slots p x with
      | none => simp [hassign]
      | some b =>
        simp only [hassign, Option.bind_eq_bind, Option.bind_some]
        exact ih { v with slots := b } hlt (by simp only; omega)

theorem shiftDownFrom_eq_none (v : Vector V) (h : p < v.last) : v.shiftDownFrom p = none := by
  induction hn : v.last - p generalizing v p with
  | zero => omega
  | succ n ih =>
    rw [shiftDownFrom, if_pos h]
    cases hread : v.read (p + 1) with
    | none => rfl
    | some x =>
      have hlt := lt_of_read hread
      cases hassign : assign v.slots p x with
      | none => simp [hassign]
      | some b =>
        simp only [hassign, Option.bind_eq_bind, Option.bind_some]
        exact ih { v with slots := b } hlt (by simp only; omega)

end Course.Stl.Vector
