import Course.Lib.Heap
import Mathlib.Algebra.Order.Group.Multiset
import Mathlib.Data.Multiset.Range

/-! Arrays of records at consecutive addresses of a store. -/

namespace Course.Lib.Heap

variable {ν α : Type}

/-- The records `f 0`, …, `f (k - 1)` from the address `a` on. -/
def array (a k : ℕ) (f : ℕ → α) : Multiset (ℕ × α) :=
  (Multiset.range k).map fun i => (a + i, f i)

/-- `new T[k]`, every element made as `n`. -/
def newArray (n : ν) : ℕ → Prog ν ℕ
  | 0 => fun h => some (h.fresh, h)
  | k + 1 => do
    let a ← newArray n k
    let _ ← new n
    return a

/-- `delete[] a` -/
def deleteArray (a : ℕ) : ℕ → Prog ν Unit
  | 0 => pure ()
  | k + 1 => do
    delete (some (a + k))
    deleteArray a k

/-- `memset` on whole records. -/
def fill (a : ℕ) (n : ν) : ℕ → Prog ν Unit
  | 0 => pure ()
  | k + 1 => do
    assign (some (a + k)) fun _ => n
    fill a n k

variable {h : Heap ν} {F : Multiset (ℕ × ν)} {a k i : ℕ} {f : ℕ → ν} {n : ν}

@[simp] theorem array_zero (f : ℕ → α) : array a 0 f = 0 := rfl

theorem array_succ (f : ℕ → α) : array a (k + 1) f = {(a + k, f k)} + array a k f := by
  rw [array, Multiset.range_succ, Multiset.map_cons, Multiset.singleton_add, array]

theorem mem_array {f : ℕ → α} {c : ℕ × α} : c ∈ array a k f ↔ ∃ i < k, (a + i, f i) = c := by
  simp [array]

theorem map_array {β : Type} (f : ℕ → α) (g : ℕ → α → β) :
    (array a k f).map (fun c => (c.1, g c.1 c.2)) = array a k fun i => g (a + i) (f i) := by
  rw [array, Multiset.map_map]
  rfl

theorem Holds.newArray (hs : Holds h [] F) (n : ν) (k : ℕ) :
    ∃ h', newArray n k h = some (h.fresh, h') ∧ h'.fresh = h.fresh + k ∧
      Holds h' [] (array h.fresh k (fun _ => n) + F) := by
  induction k with
  | zero => exact ⟨h, rfl, rfl, hs.congr (by simp)⟩
  | succ k ih =>
    obtain ⟨h', hrun, hfresh, hs'⟩ := ih
    refine ⟨{ h'.set h'.fresh n with fresh := h'.fresh + 1 }, ?_, congrArg (· + 1) hfresh, ?_⟩
    · change (Heap.newArray n k h).bind _ = _
      rw [hrun]
      rfl
    apply (hs'.new n).congr
    rw [hfresh, array_succ, Multiset.coe_singleton, Multiset.coe_nil, zero_add, add_assoc]

theorem wp_newArray {Q : ℕ → Heap ν → Prop} (hs : Holds h [] F)
    (hQ : ∀ a h', Holds h' [] (array a k (fun _ => n) + F) → Q a h') : wp (newArray n k) Q h := by
  obtain ⟨h', hrun, -, hs'⟩ := hs.newArray n k
  exact ⟨h.fresh, h', hrun, hQ h.fresh h' hs'⟩

theorem wp_deleteArray {Q : Unit → Heap ν → Prop} (hs : Holds h [] (array a k f + F))
    (hQ : ∀ h', Holds h' [] F → Q () h') : wp (deleteArray a k) Q h := by
  induction k generalizing h with
  | zero =>
    rw [deleteArray, wp_pure]
    exact hQ h (hs.congr (by simp))
  | succ k ih =>
    rw [deleteArray, wp_bind]
    have hs' : Holds h [(a + k, f k)] (array a k f + F) := by
      apply hs.congr
      rw [array_succ, Multiset.coe_nil, Multiset.coe_singleton, zero_add, add_assoc]
    apply wp_delete hs' 0 rfl
    exact fun h hs => ih hs

theorem wp_fill {Q : Unit → Heap ν → Prop} (hs : Holds h [] (array a k f + F))
    (hQ : ∀ h', Holds h' [] (array a k (fun _ => n) + F) → Q () h') : wp (fill a n k) Q h := by
  induction k generalizing h F with
  | zero =>
    rw [fill, wp_pure]
    exact hQ h hs
  | succ k ih =>
    rw [fill, wp_bind]
    have hs' : Holds h [(a + k, f k)] (array a k f + F) := by
      apply hs.congr
      rw [array_succ, Multiset.coe_nil, Multiset.coe_singleton, zero_add, add_assoc]
    apply wp_assign hs' 0 rfl rfl
    intro h hs
    refine ih (F := {(a + k, n)} + F) ?_ fun h' hs' => hQ h' ?_
    · apply hs.congr
      simp only [List.set_cons_zero, Multiset.coe_singleton, Multiset.coe_nil, zero_add]
      rw [add_left_comm]
    · apply hs'.congr
      rw [array_succ, Multiset.coe_nil, zero_add, zero_add, add_left_comm, add_assoc]

end Course.Lib.Heap
