import Mathlib.Algebra.BigOperators.Ring.Finset
import Mathlib.Algebra.BigOperators.Intervals
import Mathlib.Tactic.Abel

/-! Products of square matrices that are given by their cells, and how the
product of four blocks comes from seven products of one. -/

namespace Course.Lib.BlockProduct

open Finset

variable {R : Type} [Ring R] {n : ℕ}

/-- The product of the first `n` columns with the first `n` rows. -/
def product (n : ℕ) (X Y : ℕ → ℕ → R) : ℕ → ℕ → R := fun i j => ∑ k ∈ range n, X i k * Y k j

/-- The matrix from row `a` and column `b` on. -/
def block (a b : ℕ) (X : ℕ → ℕ → R) : ℕ → ℕ → R := fun i j => X (a + i) (b + j)

omit [Ring R] in
@[simp] theorem block_zero (X : ℕ → ℕ → R) : block 0 0 X = X := by
  funext i j
  rw [block, Nat.zero_add, Nat.zero_add]

section Bilinear

variable (X Y Z : ℕ → ℕ → R)

theorem add_product : product n (X + Y) Z = product n X Z + product n Y Z := by
  funext i j
  simp [product, add_mul, sum_add_distrib]

theorem sub_product : product n (X - Y) Z = product n X Z - product n Y Z := by
  funext i j
  simp [product, sub_mul, sum_sub_distrib]

theorem product_add : product n X (Y + Z) = product n X Y + product n X Z := by
  funext i j
  simp [product, mul_add, sum_add_distrib]

theorem product_sub : product n X (Y - Z) = product n X Y - product n X Z := by
  funext i j
  simp [product, mul_sub, sum_sub_distrib]

end Bilinear

/-- A block of a product is the sum of two products of blocks. -/
theorem block_product (a b : ℕ) (X Y : ℕ → ℕ → R) :
    block a b (product (n + n) X Y) =
      product n (block a 0 X) (block 0 b Y) + product n (block a n X) (block n b Y) := by
  funext i j
  simp [block, product, sum_range_add]

/-! ### Seven products -/

/-- The seven products of blocks `A B C D` with blocks `E F G H`. -/
structure Seven (R : Type) where
  p₀ : ℕ → ℕ → R
  p₁ : ℕ → ℕ → R
  p₂ : ℕ → ℕ → R
  p₃ : ℕ → ℕ → R
  p₄ : ℕ → ℕ → R
  p₅ : ℕ → ℕ → R
  p₆ : ℕ → ℕ → R

namespace Seven

/-- What a product of half the size makes of the blocks. -/
def of (times : ℕ → (ℕ → ℕ → R) → (ℕ → ℕ → R) → ℕ → ℕ → R) (n : ℕ) (X Y : ℕ → ℕ → R) :
    Seven R :=
  let (A, B, C, D) := (X, block 0 n X, block n 0 X, block n n X)
  let (E, F, G, H) := (Y, block 0 n Y, block n 0 Y, block n n Y)
  { p₀ := times 0 A (F - H)
    p₁ := times 1 (A + B) H
    p₂ := times 2 (C + D) E
    p₃ := times 3 D (G - E)
    p₄ := times 4 (A + D) (E + H)
    p₅ := times 5 (B - D) (G + H)
    p₆ := times 6 (A - C) (E + F) }

variable (P : Seven R)

def upperLeft : ℕ → ℕ → R := P.p₄ + P.p₃ + (P.p₅ - P.p₁)

def lowerLeft : ℕ → ℕ → R := P.p₂ + P.p₃

def upperRight : ℕ → ℕ → R := P.p₀ + P.p₁

def lowerRight : ℕ → ℕ → R := P.p₀ + P.p₄ - (P.p₂ + P.p₆)

variable (X Y : ℕ → ℕ → R)

theorem upperLeft_eq :
    (of (fun _ => product n) n X Y).upperLeft = block 0 0 (product (n + n) X Y) := by
  rw [block_product, block_zero, block_zero]
  simp only [upperLeft, of, add_product, sub_product, product_add, product_sub]
  abel

theorem lowerLeft_eq :
    (of (fun _ => product n) n X Y).lowerLeft = block n 0 (product (n + n) X Y) := by
  rw [block_product, block_zero]
  simp only [lowerLeft, of, add_product, product_sub]
  abel

theorem upperRight_eq :
    (of (fun _ => product n) n X Y).upperRight = block 0 n (product (n + n) X Y) := by
  rw [block_product, block_zero]
  simp only [upperRight, of, add_product, product_sub]
  abel

theorem lowerRight_eq :
    (of (fun _ => product n) n X Y).lowerRight = block n n (product (n + n) X Y) := by
  rw [block_product]
  simp only [lowerRight, of, add_product, sub_product, product_add, product_sub]
  abel

end Seven

end Course.Lib.BlockProduct
