import Course.Lib.ForkJoin
import Course.Lib.Segment
import Course.Lib.StableMerge
import Mathlib.Algebra.Order.Group.Int
import Mathlib.Data.Int.ConditionallyCompleteOrder
import Mathlib.Order.ConditionallyCompleteLattice.Basic

/-! `CS2303 Operating System/Project 3/MergeSort.java`: a merge sort whose tasks fork the two
halves. The array's cells are the memory the tasks share; what a task copies out of them is its
own. Of its sums of `int`s only that of `low` and `high` can leave the range of `int`. -/

namespace Course.Os

open Lib Segment

structure MergeSortTask where
  low : ℤ
  high : ℤ

namespace MergeSort

variable {α : Type} (compare : α → α → ℤ)

/-- The value of a sum of two `int`s. -/
def int (x : ℤ) : ℤ := x.bmod (2 ^ 32)

/-- `(low + high) / 2` -/
def mid (t : MergeSortTask) : ℤ := (int (t.low + t.high)).tdiv 2

/-- `Arrays.copyOfRange`, of `n` elements. -/
def copyFrom (k : List α → Task MergeSortTask α) : ℕ → ℤ → Task MergeSortTask α
  | 0, _ => k []
  | n + 1, low => .read low fun x => copyFrom (fun l => k (x :: l)) n (low + 1)

/-- `Arrays.copyOfRange(array, from, to)` -/
def copyOfRange (low high : ℤ) (k : List α → Task MergeSortTask α) : Task MergeSortTask α :=
  copyFrom k (high - low).toNat low

/-- `while (i < a.length) array[k++] = a[i++];`, on what is left of `a`. -/
def drain (rest : ℤ → Task MergeSortTask α) : List α → ℤ → Task MergeSortTask α
  | [], k => rest k
  | x :: a, k => .write k x (drain rest a (k + 1))

/-- The loops of `merge`, on what is left of `leftArray` and `rightArray`. -/
def mergeLoops : List α → List α → ℤ → Task MergeSortTask α
  | x :: leftArray, y :: rightArray, k =>
    if compare x y ≤ 0 then .write k x (mergeLoops leftArray (y :: rightArray) (k + 1))
    else .write k y (mergeLoops (x :: leftArray) rightArray (k + 1))
  | leftArray, rightArray, k => drain (drain (fun _ => .done) rightArray) leftArray k
termination_by leftArray rightArray => leftArray.length + rightArray.length

def merge (low mid high : ℤ) : Task MergeSortTask α :=
  copyOfRange low (mid + 1) fun leftArray =>
    copyOfRange (mid + 1) (high + 1) fun rightArray => mergeLoops compare leftArray rightArray low

def compute (t : MergeSortTask) : Task MergeSortTask α :=
  if t.high ≤ t.low then .done
  else .both ⟨t.low, mid t⟩ ⟨mid t + 1, t.high⟩ (merge compare t.low (mid t) t.high)

/-- The pool with the task of the whole array. -/
def sort (array : ℤ → α) (length : ℕ) : Config MergeSortTask α :=
  (.leaf (compute compare ⟨0, length - 1⟩), array)

/-- The tasks made for an array of this length. -/
inductive Made (length : ℕ) : MergeSortTask → Prop
  | root : Made length ⟨0, length - 1⟩
  | left {t : MergeSortTask} (h : Made length t) (hlt : t.low < t.high) :
      Made length ⟨t.low, mid t⟩
  | right {t : MergeSortTask} (h : Made length t) (hlt : t.low < t.high) :
      Made length ⟨mid t + 1, t.high⟩

/-- `low + high` is in the range of `int`. -/
def InRange (t : MergeSortTask) : Prop := -2 ^ 31 ≤ t.low + t.high ∧ t.low + t.high < 2 ^ 31

theorem mid_bounds {t : MergeSortTask} (h : InRange t) (hlow : 0 ≤ t.low) (hlt : t.low < t.high) :
    t.low ≤ mid t ∧ mid t < t.high := by
  obtain ⟨-, hhigh⟩ := h
  have hint : int (t.low + t.high) = t.low + t.high := by
    apply Int.bmod_eq_of_le <;> omega
  rw [mid, hint, Int.tdiv_eq_ediv_of_nonneg (by omega)]
  omega

theorem bounds_of_made {length : ℕ} {t : MergeSortTask} (hlength : length ≤ 2 ^ 30 + 1)
    (h : Made length t) : 0 ≤ t.low ∧ t.high < length := by
  induction h with
  | root => exact ⟨le_rfl, Int.sub_one_lt_iff.mpr le_rfl⟩
  | @left t _ hlt ih =>
    have hmid := mid_bounds ⟨by omega, by omega⟩ ih.1 hlt
    exact ⟨ih.1, hmid.2.trans ih.2⟩
  | @right t _ hlt ih =>
    have hmid := mid_bounds ⟨by omega, by omega⟩ ih.1 hlt
    exact ⟨by dsimp only; omega, ih.2⟩

/-- No task of an array of at most `2 ^ 30 + 1` elements leaves the range of `int`. -/
theorem inRange_of_made {length : ℕ} {t : MergeSortTask} (hlength : length ≤ 2 ^ 30 + 1)
    (h : Made length t) (hlt : t.low < t.high) : InRange t := by
  obtain ⟨hlow, hhigh⟩ := bounds_of_made hlength h
  exact ⟨by omega, by omega⟩

variable {compare} {body : MergeSortTask → Task MergeSortTask α} {R : Set ℤ}
  {Q : (ℤ → α) → Prop} {array : ℤ → α}

theorem ends_copyFrom {k : List α → Task MergeSortTask α} (n : ℕ) (low : ℤ)
    (hin : ∀ p, low ≤ p → p < low + n → p ∈ R)
    (h : Ends body R Q (.leaf (k (elements array low (low + n)))) array) :
    Ends body R Q (.leaf (copyFrom k n low)) array := by
  induction n generalizing k low with
  | zero => rwa [elements_of_le (by simp)] at h
  | succ n ih =>
    refine .read (hin low le_rfl (by omega)) (ih (low + 1) (fun p hp hp' => ?_) ?_)
    · exact hin p (by omega) (by omega)
    · rw [elements_cons (by omega)] at h
      rwa [show low + 1 + (n : ℤ) = low + (n + 1 : ℕ) by omega]

theorem ends_copyOfRange {k : List α → Task MergeSortTask α} {low high : ℤ} (hle : low ≤ high)
    (hin : ∀ p, low ≤ p → p < high → p ∈ R)
    (h : Ends body R Q (.leaf (k (elements array low high))) array) :
    Ends body R Q (.leaf (copyOfRange low high k)) array := by
  have hhigh : low + ((high - low).toNat : ℤ) = high := by omega
  refine ends_copyFrom _ low (fun p hp hp' => hin p hp (by omega)) ?_
  rwa [hhigh]

theorem ends_drain {rest : ℤ → Task MergeSortTask α} (a : List α) (k : ℤ)
    (hin : ∀ p, k ≤ p → p < k + a.length → p ∈ R)
    (h : Ends body R Q (.leaf (rest (k + a.length))) (store array k a)) :
    Ends body R Q (.leaf (drain rest a k)) array := by
  induction a generalizing k array with
  | nil => simpa [drain, store] using h
  | cons x a ih =>
    rw [List.length_cons] at h hin
    push_cast at h hin
    refine .write (hin k le_rfl (by omega)) (ih (k + 1) (fun p hp hp' => ?_) ?_)
    · exact hin p (by omega) (by omega)
    · rwa [add_right_comm, add_assoc]

/-- The loops of `merge` leave the merge of the two lists. -/
theorem ends_mergeLoops (l r : List α) (k : ℤ)
    (hin : ∀ p, k ≤ p → p < k + (l.length + r.length) → p ∈ R)
    (h : Q (store array k (l.merge r fun x y => decide (compare x y ≤ 0)))) :
    Ends body R Q (.leaf (mergeLoops compare l r k)) array := by
  fun_induction mergeLoops compare l r k generalizing array with
  | case1 x l y r k hle ih =>
    rw [List.cons_merge_cons_pos _ _ _ (decide_eq_true hle)] at h
    simp only [List.length_cons, Nat.cast_add, Nat.cast_one] at hin ih
    exact .write (hin k le_rfl (by omega)) (ih (fun p _ _ => hin p (by omega) (by omega)) h)
  | case2 x l y r k hle ih =>
    rw [List.cons_merge_cons_neg _ _ _ (by simpa using hle)] at h
    simp only [List.length_cons, Nat.cast_add, Nat.cast_one] at hin ih
    exact .write (hin k le_rfl (by omega)) (ih (fun p _ _ => hin p (by omega) (by omega)) h)
  | case3 l r k hne =>
    have hmerge : (l.merge r fun x y => decide (compare x y ≤ 0)) = l ++ r := by
      match l, r, hne with
      | [], r, _ => rw [List.nil_merge, List.nil_append]
      | l, [], _ => rw [List.merge_right, List.append_nil]
      | x :: l, y :: r, hne => exact absurd rfl (hne x l y r rfl)
    rw [hmerge, store_append] at h
    refine ends_drain _ _ (fun p _ _ => hin p (by omega) (by omega)) ?_
    exact ends_drain _ _ (fun p _ _ => hin p (by omega) (by omega)) (.done h)

variable {length : ℕ} {t : MergeSortTask}

theorem ends_merge {low mid high : ℤ} (hmid : low ≤ mid) (hhigh : mid ≤ high)
    (hin : ∀ p, low ≤ p → p ≤ high → p ∈ R)
    (h : Q (store array low ((elements array low (mid + 1)).merge
      (elements array (mid + 1) (high + 1)) fun x y => decide (compare x y ≤ 0)))) :
    Ends body R Q (.leaf (merge compare low mid high)) array := by
  refine ends_copyOfRange (by omega) (fun p _ _ => hin p (by omega) (by omega)) ?_
  refine ends_copyOfRange (by omega) (fun p _ _ => hin p (by omega) (by omega)) ?_
  refine ends_mergeLoops _ _ low (fun p hp hp' => hin p hp ?_) h
  simp only [length_elements] at hp'
  omega

/-- The task of a range leaves it stably sorted, and touches nothing else. -/
theorem ends_compute (hcmp : TotalPreorder fun x y => decide (compare x y ≤ 0))
    (hrange : ∀ t, Made length t → t.low < t.high → InRange t) (hmade : Made length t)
    (hlow : 0 ≤ t.low) (array : ℤ → α) :
    Ends (compute compare) (Set.Ico t.low (t.high + 1))
      (fun array' => StablySorted (fun x y => decide (compare x y ≤ 0))
        (elements array t.low (t.high + 1)) (elements array' t.low (t.high + 1)))
      (.leaf (compute compare t)) array := by
  induction hsize : (t.high - t.low).toNat using Nat.strong_induction_on generalizing t array with
  | _ n ih =>
    subst hsize
    rw [compute]
    split_ifs with hle
    · exact .done (.refl (by rw [length_elements]; omega))
    · have hlt := not_le.mp hle
      obtain ⟨hmid, hmid'⟩ := mid_bounds (hrange t hmade hlt) hlow hlt
      have hl := ih _ (by dsimp only; omega) (hmade.left hlt) hlow array rfl
      have hr := ih _ (by dsimp only; omega) (hmade.right hlt) (by dsimp only; omega) array rfl
      have hdis : Disjoint (Set.Ico t.low (mid t + 1)) (Set.Ico (mid t + 1) (t.high + 1)) :=
        Set.disjoint_left.mpr fun p hp hp' => absurd hp.2 (not_lt.mpr hp'.1)
      refine .both hdis (Set.Ico_subset_Ico_right (by omega)) (Set.Ico_subset_Ico_left (by omega))
        hl hr fun m n₁ n₂ h₁ h₂ _ hs₁ hs₂ => ?_
      refine ends_merge hmid hmid'.le (fun p hp hp' => ⟨hp, by omega⟩) ?_
      have he₁ := elements_congr fun p hp hp' => h₁ (Set.mem_Ico.mpr ⟨hp, hp'⟩)
      have he₂ := elements_congr fun p hp hp' => h₂ (Set.mem_Ico.mpr ⟨hp, hp'⟩)
      rw [elements_append (mid t + 1) (by omega) (by omega), he₁, he₂, elements_store]
      · exact hs₁.merge hcmp hs₂
      · simp only [List.length_merge, length_elements]
        omega

/-- Under every interleaving of the tasks' accesses the sort ends, without an access outside
the array, and leaves the array stably sorted. -/
theorem sort_stablySorted (hcmp : TotalPreorder fun x y => decide (compare x y ≤ 0))
    (hrange : ∀ t, Made length t → t.low < t.high → InRange t) (array : ℤ → α) :
    Correct (compute compare) (Set.Ico 0 (length : ℤ))
      (fun array' => StablySorted (fun x y => decide (compare x y ≤ 0))
        (elements array 0 length) (elements array' 0 length))
      (sort compare array length) := by
  have hends := ends_compute hcmp hrange .root le_rfl array
  simp only [sub_add_cancel] at hends
  exact hends.correct

/-- Three pairs, two of them equal to a comparison by first components. -/
theorem sort_stablySorted_pairs :
    Correct (compute fun x y : ℤ × ℤ => x.1 - y.1) (Set.Ico 0 ((3 : ℕ) : ℤ))
      (fun array' => StablySorted (fun x y => decide (x.1 - y.1 ≤ 0))
        (elements (fun p => (-p / 2, p)) 0 (3 : ℕ)) (elements array' 0 (3 : ℕ)))
      (sort (fun x y : ℤ × ℤ => x.1 - y.1) (fun p => (-p / 2, p)) 3) := by
  refine sort_stablySorted ⟨fun x y => ?_, fun x y z => ?_⟩ (fun t => inRange_of_made (by omega)) _
  · simp only [decide_eq_true_eq]
    omega
  · simp only [decide_eq_true_eq]
    omega
end MergeSort

end Course.Os
