import Mathlib.Data.List.Range

/-! A stretch of a sequence as a list: what is in flight between two counters. -/

namespace Course.Lib

variable {α : Type} {f : ℕ → α} {n m k : ℕ}

/-- The items from the `n`-th to before the `k`-th one. -/
def stretch (f : ℕ → α) (n k : ℕ) : List α := (List.range' n (k - n)).map f

@[simp]
theorem length_stretch : (stretch f n k).length = k - n := by
  simp [stretch]

@[simp]
theorem stretch_self : stretch f n n = [] := by
  simp [stretch]

theorem stretch_succ (h : n ≤ k) : stretch f n (k + 1) = stretch f n k ++ [f k] := by
  have hlen : k + 1 - n = k - n + 1 := by omega
  have hlast : n + (k - n) = k := by omega
  rw [stretch, stretch, hlen, List.range'_concat, List.map_append, Nat.one_mul, hlast]
  rfl

theorem stretch_cons (h : n < k) : stretch f n k = f n :: stretch f (n + 1) k := by
  have hlen : k - n = k - (n + 1) + 1 := by omega
  rw [stretch, stretch, hlen, List.range'_succ, List.map_cons]

theorem stretch_append (h : n ≤ m) (h' : m ≤ k) :
    stretch f n m ++ stretch f m k = stretch f n k := by
  induction k, h' using Nat.le_induction with
  | base => rw [stretch_self, List.append_nil]
  | succ k hk ih => rw [stretch_succ hk, stretch_succ (h.trans hk), ← List.append_assoc, ih]

theorem stretch_prefix (h : n ≤ m) (h' : m ≤ k) : stretch f n m <+: stretch f n k :=
  ⟨stretch f m k, stretch_append h h'⟩

theorem map_stretch {β : Type} (g : α → β) : (stretch f n k).map g = stretch (g ∘ f) n k := by
  rw [stretch, stretch, List.map_map]

theorem stretch_congr {g : ℕ → α} (h : ∀ i, n ≤ i → i < k → f i = g i) :
    stretch f n k = stretch g n k := by
  refine List.map_congr_left fun i hi => ?_
  rw [List.mem_range'_1] at hi
  exact h i hi.1 (by omega)

end Course.Lib
