import Mathlib.Algebra.BigOperators.Group.List.Basic
import Mathlib.Algebra.Order.BigOperators.Group.List
import Mathlib.Tactic.Abel

/-! How long jobs wait that run one after the other: in all the least when the shortest come
first. -/

universe u

namespace Course.Lib

variable {M : Type u} [AddCommMonoid M]

/-- The sum of the times at which jobs of these durations start. -/
def waiting (start : M) : List M → M
  | [] => 0
  | d :: l => start + waiting (start + d) l

theorem waiting_add (start d : M) (l : List M) :
    waiting (start + d) l = l.length • d + waiting start l := by
  induction l generalizing start with
  | nil => simp only [waiting, List.length_nil, zero_nsmul, add_zero]
  | cons e l ih =>
    rw [waiting, waiting, add_right_comm start d e, ih, List.length_cons, succ_nsmul]
    abel

theorem waiting_cons (start d : M) (l : List M) :
    waiting start (d :: l) = l.length • d + (start + waiting start l) := by
  rw [waiting, waiting_add, add_left_comm]

variable [LinearOrder M]

/-- What the later of every two jobs waits at least for the two of them. -/
def pairMin : List M → M
  | [] => 0
  | d :: l => (l.map (min d)).sum + pairMin l

theorem pairMin_perm {l l' : List M} (h : l.Perm l') : pairMin l = pairMin l' := by
  induction h with
  | nil => rfl
  | cons d h ih => rw [pairMin, pairMin, ih, (h.map (min d)).sum_eq]
  | swap d e l =>
    simp only [pairMin, List.map_cons, List.sum_cons, min_comm e d]
    abel
  | trans _ _ ih ih' => exact ih.trans ih'

theorem waiting_of_sorted {l : List M} (h : l.Pairwise (· ≤ ·)) (start : M) :
    waiting start l = l.length • start + pairMin l := by
  induction l with
  | nil => simp only [waiting, pairMin, List.length_nil, zero_nsmul, add_zero]
  | cons d l ih =>
    obtain ⟨hd, hl⟩ := List.pairwise_cons.mp h
    have hmin : l.map (min d) = l.map fun _ => d :=
      List.map_congr_left fun e he => min_eq_left (hd e he)
    rw [waiting_cons, ih hl, pairMin, hmin, List.map_const', List.sum_replicate, List.length_cons,
      succ_nsmul]
    abel

variable [IsOrderedAddMonoid M]

theorem le_waiting (start : M) (l : List M) :
    l.length • start + pairMin l ≤ waiting start l := by
  induction l with
  | nil => simp only [waiting, pairMin, List.length_nil, zero_nsmul, add_zero, le_refl]
  | cons d l ih =>
    have hmin : (l.map (min d)).sum ≤ l.length • d := by
      have hle : ∀ e ∈ l.map (min d), e ≤ d := by
        intro e he
        obtain ⟨e, -, rfl⟩ := List.mem_map.mp he
        exact min_le_left d e
      simpa only [List.length_map] using List.sum_le_card_nsmul _ d hle
    calc (d :: l).length • start + pairMin (d :: l)
        = (l.map (min d)).sum + (start + (l.length • start + pairMin l)) := by
          rw [pairMin, List.length_cons, succ_nsmul]
          abel
      _ ≤ l.length • d + (start + waiting start l) :=
          add_le_add hmin (add_le_add_right ih start)
      _ = waiting start (d :: l) := (waiting_cons start d l).symm

/-- No other order of the same jobs waits less than the sorted one. -/
theorem waiting_le_of_sorted {l l' : List M} (h : l.Pairwise (· ≤ ·)) (hperm : l.Perm l')
    (start : M) : waiting start l ≤ waiting start l' := by
  rw [waiting_of_sorted h, hperm.length_eq, pairMin_perm hperm]
  exact le_waiting start l'

end Course.Lib
