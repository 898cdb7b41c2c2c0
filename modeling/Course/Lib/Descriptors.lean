import Mathlib.Data.Nat.Notation

/-! Tables of descriptors: what is open has a number, a new one the lowest that is free. -/

universe u

namespace Course.Lib

structure Descriptors (α : Type u) where
  entries : List (Option α)

namespace Descriptors

variable {α : Type u}

/-- What is open as `fd`. -/
def get (t : Descriptors α) (fd : ℕ) : Option α := t.entries[fd]?.join

def close (t : Descriptors α) (fd : ℕ) : Descriptors α := ⟨t.entries.set fd none⟩

def place (r : α) : List (Option α) → List (Option α) × ℕ
  | [] => ([some r], 0)
  | none :: entries => (some r :: entries, 0)
  | some x :: entries =>
    let (entries, fd) := place r entries
    (some x :: entries, fd + 1)

/-- `r` is opened, as the second component. -/
def alloc (t : Descriptors α) (r : α) : Descriptors α × ℕ :=
  (⟨(place r t.entries).1⟩, (place r t.entries).2)

variable {t : Descriptors α} {r : α} {fd i : ℕ}

theorem get_close : (t.close fd).get i = if i = fd then none else t.get i := by
  simp only [get, close, List.getElem?_set]
  by_cases hi : fd = i
  · subst hi
    rw [if_pos rfl, if_pos rfl]
    split <;> rfl
  · rw [if_neg hi, if_neg (Ne.symm hi)]

theorem place_spec (r : α) (entries : List (Option α)) :
    entries[(place r entries).2]?.join = none ∧
      (∀ i < (place r entries).2, entries[i]?.join ≠ none) ∧
      ∀ i, (place r entries).1[i]?.join =
        if i = (place r entries).2 then some r else entries[i]?.join := by
  induction entries with
  | nil =>
    refine ⟨rfl, nofun, fun i => ?_⟩
    cases i <;> rfl
  | cons x entries ih =>
    cases x with
    | none =>
      refine ⟨rfl, nofun, fun i => ?_⟩
      cases i <;> rfl
    | some x =>
      obtain ⟨hfree, hlow, hget⟩ := ih
      refine ⟨hfree, fun i hi => ?_, fun i => ?_⟩
      · cases i with
        | zero => exact nofun
        | succ i => exact hlow i (Nat.lt_of_succ_lt_succ hi)
      · cases i with
        | zero => rfl
        | succ i => simpa [place] using hget i

/-- Only a free number is given away. -/
theorem get_alloc_free (t : Descriptors α) (r : α) : t.get (t.alloc r).2 = none :=
  (place_spec r t.entries).1

theorem get_of_lt_alloc (h : i < (t.alloc r).2) : t.get i ≠ none :=
  (place_spec r t.entries).2.1 i h

theorem get_alloc : (t.alloc r).1.get i = if i = (t.alloc r).2 then some r else t.get i :=
  (place_spec r t.entries).2.2 i

end Descriptors

end Course.Lib
