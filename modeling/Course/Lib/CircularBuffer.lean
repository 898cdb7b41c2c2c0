import Mathlib.Data.Nat.ModEq
import Mathlib.Logic.Function.Basic

/-! A list kept in consecutive slots of an array that is used around its end,
with the two indices moved by `push` and `pop`. -/

universe u

namespace Course.Lib.CircularBuffer

variable {α : Type u} {size front rear i j : ℕ} {slots : ℕ → α} {l : List α} {x : α}

/-- The slots from `front` up to `rear`, around the end, hold `l`. -/
structure Holds (size : ℕ) (slots : ℕ → α) (front rear : ℕ) (l : List α) : Prop where
  front_lt : front < size
  rear_eq : rear = (front + l.length) % size
  slots_eq : ∀ i (hi : i < l.length), slots ((front + i) % size) = l[i]

/-- One of the `n` slots from `front` on. -/
def InUse (size front n k : ℕ) : Prop := ∃ i < n, k = (front + i) % size

theorem add_mod_inj (hi : i < size) (hj : j < size) :
    (front + i) % size = (front + j) % size ↔ i = j := by
  constructor
  · intro h
    exact Nat.ModEq.eq_of_lt_of_lt (Nat.ModEq.add_left_cancel' front h) hi hj
  · rintro rfl
    rfl

theorem succ_mod_add_mod (size front i : ℕ) :
    ((front + 1) % size + i) % size = (front + (i + 1)) % size := by
  rw [Nat.mod_add_mod, Nat.add_assoc, Nat.add_comm 1 i]

namespace Holds

theorem nil (hsize : 0 < size) (slots : ℕ → α) : Holds size slots 0 0 [] :=
  ⟨hsize, by simp, fun _ hi => absurd hi (Nat.not_lt_zero _)⟩

theorem rear_not_inUse (h : Holds size slots front rear l) (hl : l.length < size) :
    ¬InUse size front l.length rear := by
  rintro ⟨i, hi, heq⟩
  rw [h.rear_eq, add_mod_inj hl (Nat.lt_trans hi hl)] at heq
  exact absurd heq (Nat.ne_of_gt hi)

theorem push (h : Holds size slots front rear l) (hl : l.length < size) (x : α) :
    Holds size (Function.update slots rear x) front ((rear + 1) % size) (l ++ [x]) := by
  refine ⟨h.front_lt, ?_, fun i hi => ?_⟩
  · rw [h.rear_eq, Nat.mod_add_mod, List.length_append, List.length_singleton, Nat.add_assoc]
  · rw [List.length_append, List.length_singleton] at hi
    rcases Nat.lt_succ_iff_lt_or_eq.mp hi with hlt | rfl
    · have hne : (front + i) % size ≠ rear :=
        fun heq => h.rear_not_inUse hl ⟨i, hlt, heq.symm⟩
      rw [Function.update_of_ne hne, h.slots_eq i hlt, List.getElem_append_left hlt]
    · rw [← h.rear_eq, Function.update_self, List.getElem_concat_length rfl]

/-- Below the capacity, the slot at `rear` is free to be written. -/
theorem write (h : Holds size slots front rear l) (hl : l.length < size) (x : α) :
    Holds size (Function.update slots rear x) front rear l := by
  refine ⟨h.front_lt, h.rear_eq, fun i hi => ?_⟩
  have hne : (front + i) % size ≠ rear := fun heq => h.rear_not_inUse hl ⟨i, hi, heq.symm⟩
  rw [Function.update_of_ne hne, h.slots_eq i hi]

theorem pop (h : Holds size slots front rear (x :: l)) :
    slots front = x ∧ Holds size slots ((front + 1) % size) rear l := by
  refine ⟨?_, Nat.mod_lt _ (Nat.zero_lt_of_lt h.front_lt), ?_, fun i hi => ?_⟩
  · have hzero := h.slots_eq 0 (Nat.zero_lt_succ _)
    rw [Nat.add_zero, Nat.mod_eq_of_lt h.front_lt] at hzero
    exact hzero
  · rw [succ_mod_add_mod]
    exact h.rear_eq
  · rw [succ_mod_add_mod]
    exact h.slots_eq (i + 1) (Nat.succ_lt_succ hi)

theorem inUse_push (h : Holds size slots front rear l) (k : ℕ) :
    InUse size front (l.length + 1) k ↔ InUse size front l.length k ∨ k = rear := by
  constructor
  · rintro ⟨i, hi, rfl⟩
    rcases Nat.lt_succ_iff_lt_or_eq.mp hi with hlt | rfl
    · exact .inl ⟨i, hlt, rfl⟩
    · exact .inr h.rear_eq.symm
  · rintro (⟨i, hi, rfl⟩ | rfl)
    · exact ⟨i, Nat.lt_succ_of_lt hi, rfl⟩
    · exact ⟨l.length, Nat.lt_succ_self _, h.rear_eq⟩

theorem inUse_pop (h : Holds size slots front rear (x :: l)) (hl : l.length + 1 ≤ size) (k : ℕ) :
    InUse size ((front + 1) % size) l.length k ↔
      InUse size front (l.length + 1) k ∧ k ≠ front := by
  have hfront : (front + 0) % size = front := Nat.mod_eq_of_lt h.front_lt
  constructor
  · rintro ⟨i, hi, rfl⟩
    rw [succ_mod_add_mod]
    refine ⟨⟨i + 1, Nat.succ_lt_succ hi, rfl⟩, fun heq => ?_⟩
    nth_rewrite 2 [← hfront] at heq
    rw [add_mod_inj (by omega) (by omega)] at heq
    exact absurd heq (Nat.succ_ne_zero i)
  · rintro ⟨⟨i, hi, rfl⟩, hne⟩
    cases i with
    | zero => exact absurd hfront hne
    | succ i => exact ⟨i, Nat.lt_of_succ_lt_succ hi, (succ_mod_add_mod size front i).symm⟩

/-- Below its capacity a buffer is empty exactly when the indices meet. -/
theorem eq_nil_iff (h : Holds size slots front rear l) (hl : l.length < size) :
    front = rear ↔ l = [] := by
  have hfront : (front + 0) % size = front := Nat.mod_eq_of_lt h.front_lt
  rw [h.rear_eq, ← List.length_eq_zero_iff]
  nth_rewrite 1 [← hfront]
  rw [add_mod_inj (Nat.zero_lt_of_lt h.front_lt) hl]
  exact eq_comm

end Holds

end Course.Lib.CircularBuffer
