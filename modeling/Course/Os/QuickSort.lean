import Course.Lib.ForkJoin
import Course.Lib.Segment
import Course.Lib.StableMerge
import Mathlib.Algebra.Order.Group.Int
import Mathlib.Data.Int.ConditionallyCompleteOrder
import Mathlib.Order.ConditionallyCompleteLattice.Basic

/-! `CS2303 Operating System/Project 3/QuickSort.java`: a quick sort whose tasks partition their
range and fork its two sides. Every index lies between `-1` and the length of the array, which
an `int` holds. -/

namespace Course.Os

open Lib Segment

structure QuickSortTask where
  low : ℤ
  high : ℤ

namespace QuickSort

variable {α : Type} (compare : α → α → ℤ)

def swap (i j : ℤ) (rest : Task QuickSortTask α) : Task QuickSortTask α :=
  .read i fun tmp => .read j fun x => .write i x (.write j tmp rest)

/-- The loop of `partition`, from `j` on. -/
def partitionLoop (high : ℤ) (pivot : α) (rest : ℤ → Task QuickSortTask α) (i j : ℤ) :
    Task QuickSortTask α :=
  if j < high then
    .read j fun x =>
      if compare x pivot ≤ 0 then swap i j (partitionLoop high pivot rest (i + 1) (j + 1))
      else partitionLoop high pivot rest i (j + 1)
  else rest i
termination_by (high - j).toNat

def partition (low high : ℤ) (rest : ℤ → Task QuickSortTask α) : Task QuickSortTask α :=
  .read high fun pivot =>
    partitionLoop compare high pivot (fun i => swap i high (rest i)) low low

def compute (t : QuickSortTask) : Task QuickSortTask α :=
  if t.high ≤ t.low then .done
  else partition compare t.low t.high fun pivot =>
    .both ⟨t.low, pivot - 1⟩ ⟨pivot + 1, t.high⟩ .done

/-- The pool with the task of the whole array. -/
def sort (array : ℤ → α) (length : ℕ) : Config QuickSortTask α :=
  (.leaf (compute compare ⟨0, length - 1⟩), array)

variable {compare} {body : QuickSortTask → Task QuickSortTask α} {R : Set ℤ}
  {Q : (ℤ → α) → Prop} {array : ℤ → α} {low high i j : ℤ} {pivot : α}

/-- What `swap` leaves. -/
def swapped (array : ℤ → α) (i j : ℤ) : ℤ → α :=
  Function.update (Function.update array i (array j)) j (array i)

theorem swapped_right : swapped array i j j = array i := Function.update_self ..

theorem swapped_left : swapped array i j i = array j := by
  by_cases h : i = j
  · rw [h, swapped_right]
  · rw [swapped, Function.update_of_ne h, Function.update_self]

theorem swapped_of_ne {p : ℤ} (hi : p ≠ i) (hj : p ≠ j) : swapped array i j p = array p := by
  rw [swapped, Function.update_of_ne hj, Function.update_of_ne hi]

theorem ends_swap {rest : Task QuickSortTask α} (hi : i ∈ R) (hj : j ∈ R)
    (h : Ends body R Q (.leaf rest) (swapped array i j)) :
    Ends body R Q (.leaf (swap i j rest)) array :=
  .read hi (.read hj (.write hi (.write hj h)))

/-- The range, before `j` partitioned at `i`. -/
structure Partitioned (compare : α → α → ℤ) (low high : ℤ) (pivot : α) (array₀ : ℤ → α)
    (i j : ℤ) (array : ℤ → α) : Prop where
  low_le : low ≤ i
  le_scan : i ≤ j
  scan_le : j ≤ high
  last : array high = pivot
  rearranges : Rearranges low (high + 1) array₀ array
  small : ∀ p, low ≤ p → p < i → compare (array p) pivot ≤ 0
  large : ∀ p, i ≤ p → p < j → 0 < compare (array p) pivot

variable {array₀ : ℤ → α}

namespace Partitioned

theorem start (hlt : low ≤ high) :
    Partitioned compare low high (array high) array low low array where
  low_le := le_rfl
  le_scan := le_rfl
  scan_le := hlt
  last := rfl
  rearranges := .refl ..
  small _ hp hp' := absurd hp (not_le.mpr hp')
  large _ hp hp' := absurd hp (not_le.mpr hp')

theorem skip (h : Partitioned compare low high pivot array₀ i j array) (hj : j < high)
    (hcmp : 0 < compare (array j) pivot) :
    Partitioned compare low high pivot array₀ i (j + 1) array where
  low_le := h.low_le
  le_scan := h.le_scan.trans (Int.le_add_one le_rfl)
  scan_le := hj
  last := h.last
  rearranges := h.rearranges
  small := h.small
  large p hp hp' := by
    obtain hlt | rfl := (Int.lt_add_one_iff.mp hp').lt_or_eq
    · exact h.large p hp hlt
    · exact hcmp

theorem take (h : Partitioned compare low high pivot array₀ i j array) (hj : j < high)
    (hcmp : compare (array j) pivot ≤ 0) :
    Partitioned compare low high pivot array₀ (i + 1) (j + 1) (swapped array i j) where
  low_le := h.low_le.trans (Int.le_add_one le_rfl)
  le_scan := Int.add_le_add_right h.le_scan 1
  scan_le := hj
  last := by
    have := h.le_scan
    rw [swapped_of_ne (by omega) (by omega), h.last]
  rearranges := by
    have hlow := h.low_le
    have hscan := h.le_scan
    exact h.rearranges.trans (.swap array (by omega) (by omega))
  small p hp hp' := by
    obtain hlt | rfl := (Int.lt_add_one_iff.mp hp').lt_or_eq
    · have := h.le_scan
      rw [swapped_of_ne (by omega) (by omega)]
      exact h.small p hp hlt
    · rwa [swapped_left]
  large p hp hp' := by
    by_cases hpj : p = j
    · rw [hpj, swapped_right]
      exact h.large i le_rfl (by omega)
    · rw [swapped_of_ne (by omega) hpj]
      exact h.large p (by omega) (by omega)

theorem finish (h : Partitioned compare low high pivot array₀ i high array) :
    swapped array i high i = pivot ∧
      Rearranges low (high + 1) array₀ (swapped array i high) ∧
      (∀ p, low ≤ p → p < i → compare (swapped array i high p) pivot ≤ 0) ∧
      ∀ p, i < p → p < high + 1 → 0 < compare (swapped array i high p) pivot := by
  have hlow := h.low_le
  have hscan := h.le_scan
  refine ⟨swapped_left.trans h.last, ?_, fun p hp hp' => ?_, fun p hp hp' => ?_⟩
  · exact h.rearranges.trans (.swap array (by omega) (by omega))
  · rw [swapped_of_ne (by omega) (by omega)]
    exact h.small p hp hp'
  · by_cases hph : p = high
    · rw [hph, swapped_right]
      exact h.large i le_rfl (by omega)
    · rw [swapped_of_ne (by omega) hph]
      exact h.large p hp.le (by omega)

end Partitioned

theorem ends_partitionLoop {rest : ℤ → Task QuickSortTask α}
    (hin : ∀ p, low ≤ p → p ≤ high → p ∈ R)
    (h : ∀ i array, Partitioned compare low high pivot array₀ i high array →
      Ends body R Q (.leaf (rest i)) array)
    (hpart : Partitioned compare low high pivot array₀ i j array) :
    Ends body R Q (.leaf (partitionLoop compare high pivot rest i j)) array := by
  induction hsize : (high - j).toNat using Nat.strong_induction_on generalizing i j array with
  | _ n ih =>
    subst hsize
    have hlow := hpart.low_le
    have hscan := hpart.le_scan
    have hhigh := hpart.scan_le
    rw [partitionLoop]
    split_ifs with hj
    · have hjin := hin j (by omega) hj.le
      refine .read hjin ?_
      split_ifs with hcmp
      · refine ends_swap (hin i (by omega) (by omega)) hjin ?_
        exact ih _ (by omega) (hpart.take hj hcmp) rfl
      · exact ih _ (by omega) (hpart.skip hj (not_le.mp hcmp)) rfl
    · obtain rfl : j = high := by omega
      exact h i array hpart

/-- What is done behind `partition` may rely on: the pivot at its place, nothing greater before
it and nothing up to it behind it. -/
theorem ends_partition {rest : ℤ → Task QuickSortTask α} (hlt : low ≤ high)
    (hin : ∀ p, low ≤ p → p ≤ high → p ∈ R)
    (h : ∀ i array', low ≤ i → i ≤ high → Rearranges low (high + 1) array array' →
      (∀ p, low ≤ p → p < i → compare (array' p) (array' i) ≤ 0) →
      (∀ p, i < p → p < high + 1 → 0 < compare (array' p) (array' i)) →
      Ends body R Q (.leaf (rest i)) array') :
    Ends body R Q (.leaf (partition compare low high rest)) array := by
  refine .read (hin high hlt le_rfl) ?_
  refine ends_partitionLoop hin (fun i array' hpart => ?_) (.start hlt)
  have hlow := hpart.low_le
  have hhigh := hpart.le_scan
  obtain ⟨hpivot, hre, hsmall, hlarge⟩ := hpart.finish
  refine ends_swap (hin i hlow hhigh) (hin high hlt le_rfl) (h i _ hlow hhigh hre ?_ ?_)
  · rwa [hpivot]
  · rwa [hpivot]

/-- No later element comes before an earlier one. -/
abbrev InOrder (compare : α → α → ℤ) (array : ℤ → α) (lo hi : ℤ) : Prop :=
  Ordered (fun x y => decide (0 < compare y x)) array lo hi

/-- Two sides in order, around what bounds both. -/
theorem inOrder_of_sides (hcmp : TotalPreorder fun x y => decide (compare x y ≤ 0)) {hi : ℤ}
    (hl : InOrder compare array low i) (hr : InOrder compare array (i + 1) hi)
    (hsmall : ∀ p, low ≤ p → p < i → compare (array p) (array i) ≤ 0)
    (hlarge : ∀ p, i + 1 ≤ p → p < hi → compare (array i) (array p) ≤ 0) :
    InOrder compare array low hi := by
  have hone : InOrder compare array i (i + 1) := .of_le (by omega)
  have hpivot : InOrder compare array i hi := by
    refine hone.append hr fun p q hp hp' hq hq' => ?_
    obtain rfl : p = i := by omega
    exact decide_eq_false (not_lt.mpr (hlarge q hq hq'))
  refine hl.append hpivot fun p q hp hp' hq hq' => decide_eq_false (not_lt.mpr ?_)
  obtain rfl | hlt := hq.eq_or_lt
  · exact hsmall p hp hp'
  · have htrans := hcmp.trans (array p) (array i) (array q)
    simp only [decide_eq_true_eq] at htrans
    exact htrans (hsmall p hp hp') (hlarge q hlt hq')

/-- What the two tasks leave between them, around the pivot that both leave alone. -/
theorem rearranges_of_sides (hcmp : TotalPreorder fun x y => decide (compare x y ≤ 0))
    {hi : ℤ} {left right array' : ℤ → α} (hlow : low ≤ i) (hhigh : i < hi)
    (hsmall : ∀ p, low ≤ p → p < i → compare (array p) (array i) ≤ 0)
    (hlarge : ∀ p, i < p → p < hi → 0 < compare (array p) (array i))
    (hl : Rearranges low i array left ∧ InOrder compare left low i)
    (hr : Rearranges (i + 1) hi array right ∧ InOrder compare right (i + 1) hi)
    (heql : Set.EqOn array' left (Set.Ico low i))
    (heqr : Set.EqOn array' right (Set.Ico (i + 1) hi))
    (hoff : Set.EqOn array' array (Set.Ico low i ∪ Set.Ico (i + 1) hi)ᶜ) :
    Rearranges low hi array array' ∧ InOrder compare array' low hi := by
  have heql : ∀ p, low ≤ p → p < i → array' p = left p := fun p hp hp' => heql ⟨hp, hp'⟩
  have heqr : ∀ p, i + 1 ≤ p → p < hi → array' p = right p := fun p hp hp' => heqr ⟨hp, hp'⟩
  have hout : ∀ p, ¬(low ≤ p ∧ p < i) → ¬(i + 1 ≤ p ∧ p < hi) → array' p = array p :=
    fun p hp hp' => hoff (not_or.mpr ⟨hp, hp'⟩)
  have hpivot : array' i = array i := hout i (by omega) (by omega)
  refine ⟨.glue hlow (by omega) (by omega) hl.1 hr.1 heql heqr hout, ?_⟩
  refine inOrder_of_sides hcmp (hl.2.congr heql) (hr.2.congr heqr) ?_ ?_
  · intro p hp hp'
    rw [heql p hp hp', hpivot]
    exact hl.1.all (P := fun x => compare x (array i) ≤ 0) hsmall hp hp'
  · intro p hp hp'
    rw [heqr p hp hp', hpivot]
    have hbehind : ∀ p, i + 1 ≤ p → p < hi → compare (array i) (array p) ≤ 0 := by
      intro p hp hp'
      have hnot := not_le.mpr (hlarge p hp hp')
      simpa using hcmp.of_not_le (x := array p) (y := array i) (by simpa using hnot)
    exact hr.1.all (P := fun x => compare (array i) x ≤ 0) hbehind hp hp'

/-- The task of a range leaves it sorted, and touches nothing else. -/
theorem ends_compute (hcmp : TotalPreorder fun x y => decide (compare x y ≤ 0))
    (t : QuickSortTask) (array : ℤ → α) :
    Ends (compute compare) (Set.Ico t.low (t.high + 1))
      (fun array' => Rearranges t.low (t.high + 1) array array' ∧
        InOrder compare array' t.low (t.high + 1))
      (.leaf (compute compare t)) array := by
  induction hsize : (t.high + 1 - t.low).toNat using Nat.strong_induction_on
    generalizing t array with
  | _ n ih =>
    subst hsize
    rw [compute]
    split_ifs with hle
    · exact .done ⟨.refl .., .of_le (by omega)⟩
    · refine ends_partition (by omega) (fun p hp hp' => ⟨hp, by omega⟩)
        fun i m hlow hhigh hre hsmall hlarge => ?_
      have hl := ih _ (by dsimp only; omega) ⟨t.low, i - 1⟩ m rfl
      have hr := ih _ (by dsimp only; omega) ⟨i + 1, t.high⟩ m rfl
      simp only [sub_add_cancel] at hl hr
      have hdis : Disjoint (Set.Ico t.low i) (Set.Ico (i + 1) (t.high + 1)) :=
        Set.disjoint_left.mpr fun p hp hp' => by
          have := hp.2.trans (Int.lt_of_add_one_le hp'.1)
          exact lt_irrefl p this
      refine .both hdis (Set.Ico_subset_Ico_right (by omega)) (Set.Ico_subset_Ico_left (by omega))
        hl hr fun m' n₁ n₂ h₁ h₂ hoff hs₁ hs₂ => .done ?_
      obtain ⟨hre', hord⟩ := rearranges_of_sides hcmp hlow (Int.lt_add_one_of_le hhigh) hsmall
        hlarge hs₁ hs₂ h₁ h₂ hoff
      exact ⟨hre.trans hre', hord⟩

/-- Under every interleaving of the tasks' accesses the sort ends, without an access outside
the array, and leaves the array sorted. -/
theorem sort_sorted (hcmp : TotalPreorder fun x y => decide (compare x y ≤ 0)) (array : ℤ → α)
    (length : ℕ) :
    Correct (compute compare) (Set.Ico 0 (length : ℤ))
      (fun array' => Sorted (fun x y => decide (compare x y ≤ 0))
        (elements array 0 length) (elements array' 0 length))
      (sort compare array length) := by
  have hends := ends_compute hcmp ⟨0, length - 1⟩ array
  simp only [sub_add_cancel] at hends
  refine (hends.mono subset_rfl fun array' h => ⟨h.1.perm, ?_⟩).correct
  refine h.2.pairwise.imp fun hxy => ?_
  simpa using hxy

/-- Three numbers by their natural order. -/
theorem sort_sorted_numbers :
    Correct (compute fun x y : ℤ => x - y) (Set.Ico 0 ((3 : ℕ) : ℤ))
      (fun array' => Sorted (fun x y => decide (x - y ≤ 0))
        (elements (fun p => 2 - p) 0 (3 : ℕ)) (elements array' 0 (3 : ℕ)))
      (sort (fun x y : ℤ => x - y) (fun p => 2 - p) 3) := by
  refine sort_sorted ⟨fun x y => ?_, fun x y z => ?_⟩ _ 3
  · simp only [decide_eq_true_eq]
    omega
  · simp only [decide_eq_true_eq]
    omega

end QuickSort

end Course.Os
