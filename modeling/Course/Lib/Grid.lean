import Mathlib.Data.Nat.Notation

/-! A grid of cells that is laid out, and walked, row by row. -/

namespace Course.Lib

/-- The cell after cell `p`, in rows of `n`. -/
theorem div_mod_succ {n : ℕ} (p : ℕ) (hn : 0 < n) :
    (p % n + 1 = n → (p + 1) / n = p / n + 1 ∧ (p + 1) % n = 0) ∧
    (p % n + 1 ≠ n → (p + 1) / n = p / n ∧ (p + 1) % n = p % n + 1) := by
  have hp := Nat.div_add_mod p n
  have hlt := Nat.mod_lt p hn
  constructor <;> intro h
  · have hp' : p + 1 = n * (p / n + 1) := by rw [Nat.mul_add]; omega
    rw [hp', Nat.mul_div_cancel_left _ hn, Nat.mul_mod_right]
    exact ⟨rfl, rfl⟩
  · have hp' : p + 1 = n * (p / n) + (p % n + 1) := by omega
    have hlt' : p % n + 1 < n := by omega
    rw [hp', Nat.mul_add_div hn, Nat.mul_add_mod, Nat.div_eq_of_lt hlt', Nat.mod_eq_of_lt hlt']
    exact ⟨rfl, rfl⟩

theorem index_lt {a b i j : ℕ} (hi : i < a) (hj : j < b) : i * b + j < a * b :=
  calc i * b + j < i * b + b := Nat.add_lt_add_left hj _
    _ = (i + 1) * b := (Nat.succ_mul i b).symm
    _ ≤ a * b := Nat.mul_le_mul_right b hi

theorem index_div_mod {b i j : ℕ} (hj : j < b) : (i * b + j) / b = i ∧ (i * b + j) % b = j := by
  rw [Nat.mul_comm, Nat.mul_add_div (by omega), Nat.mul_add_mod, Nat.div_eq_of_lt hj,
    Nat.mod_eq_of_lt hj]
  exact ⟨rfl, rfl⟩

theorem index_inj {b i j i' j' : ℕ} (hj : j < b) (hj' : j' < b)
    (h : i * b + j = i' * b + j') : i = i' ∧ j = j' := by
  have h1 := index_div_mod (i := i) hj
  have h2 := index_div_mod (i := i') hj'
  rw [h] at h1
  exact ⟨h1.1.symm.trans h2.1, h1.2.symm.trans h2.2⟩

/-- The last cell of `m` rows -/
theorem last_of_grid {m n p : ℕ} (hn : 0 < n) :
    p / n + 1 = m ∧ p % n + 1 = n ↔ p + 1 = m * n := by
  have hp := Nat.div_add_mod p n
  constructor
  · rintro ⟨rfl, hr⟩
    rw [Nat.succ_mul, Nat.mul_comm]
    omega
  · intro h
    cases m with
    | zero => omega
    | succ m =>
      rw [Nat.succ_mul] at h
      have hp' : p = m * n + (n - 1) := by omega
      obtain ⟨hd, hm⟩ := index_div_mod (i := m) (show n - 1 < n by omega)
      rw [← hp'] at hd hm
      omega

end Course.Lib
