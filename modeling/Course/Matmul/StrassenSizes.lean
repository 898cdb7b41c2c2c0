import Course.Matmul.Strassen

/-! The sizes at which the seven products give the product. -/

open Course.Lib RowMajor BlockProduct

namespace Course.Matmul

/-- Halving the size meets no odd number above 16. -/
def Halves (size : ℕ) : Prop := ∃ k, ∃ b ≤ 16, size = b * 2 ^ k

/-- Of all matrices in all arrays, `strassenMatmul` makes what `naiveMatmul` makes. -/
def Agrees (size : ℕ) : Prop :=
  ∀ (junk : Junk) (xRowOffset yRowOffset resultRowOffset : ℕ) (L R : Pointer) (result : ℕ)
    (array : Array (BitVec 32)),
    size ≤ xRowOffset → size ≤ yRowOffset → size ≤ resultRowOffset →
    Holds L.array L.base xRowOffset size size → Holds R.array R.base yRowOffset size size →
    Holds array result resultRowOffset size size → ∃ new new',
      strassenMatmul junk size xRowOffset L yRowOffset R resultRowOffset result array =
        some new ∧
      naiveMatmul size xRowOffset L yRowOffset R resultRowOffset result array = some new' ∧
      ∀ i < size, ∀ j < size,
        new[result + (i * resultRowOffset + j)]? = new'[result + (i * resultRowOffset + j)]?

variable {size n : ℕ} {X Y W : ℕ → ℕ → BitVec 32} {junk : Junk}

theorem Halves.of_le (h : size ≤ 16) : Halves size := ⟨0, size, h, (Nat.mul_one size).symm⟩

theorem halves_two_mul (h : 16 < n + n) : Halves (n + n) ↔ Halves n := by
  constructor
  · rintro ⟨k, b, hb, heq⟩
    cases k with
    | zero => omega
    | succ k =>
      refine ⟨k, b, hb, ?_⟩
      rw [pow_succ, ← mul_assoc] at heq
      omega
  · rintro ⟨k, b, hb, rfl⟩
    refine ⟨k + 1, b, hb, ?_⟩
    rw [pow_succ, ← mul_assoc]
    omega

theorem not_halves_odd (h : 16 < n + n + 1) : ¬Halves (n + n + 1) := by
  rintro ⟨k, b, hb, heq⟩
  cases k with
  | zero => omega
  | succ k =>
    rw [pow_succ, ← mul_assoc] at heq
    omega

/-! ### The sizes that work -/

/-- Four blocks make a whole. -/
theorem paste_quadrants {α : Type} {f₁ f₂ f₃ f₄ Z X : ℕ → ℕ → α}
    (h₁ : ∀ i < n, ∀ j < n, f₁ i j = block 0 0 Z i j)
    (h₂ : ∀ i < n, ∀ j < n, f₂ i j = block n 0 Z i j)
    (h₃ : ∀ i < n, ∀ j < n, f₃ i j = block 0 n Z i j)
    (h₄ : ∀ i < n, ∀ j < n, f₄ i j = block n n Z i j) :
    ∀ i < n + n, ∀ j < n + n,
      paste n n n n f₄ (paste 0 n n n f₃ (paste n 0 n n f₂ (paste 0 0 n n f₁ X))) i j = Z i j := by
  intro i hi j hj
  have hcell : ∀ r c, r ≤ i → c ≤ j → block r c Z (i - r) (j - c) = Z i j := by
    intro r c hr hc
    rw [block, Nat.add_sub_cancel' hr, Nat.add_sub_cancel' hc]
  simp only [paste]
  by_cases hin : i < n <;> by_cases hjn : j < n
  · rw [if_neg (by omega), if_neg (by omega), if_neg (by omega), if_pos (by omega),
      h₁ _ (by omega) _ (by omega), hcell 0 0 (by omega) (by omega)]
  · rw [if_neg (by omega), if_pos (by omega), h₃ _ (by omega) _ (by omega),
      hcell 0 n (by omega) (by omega)]
  · rw [if_neg (by omega), if_neg (by omega), if_pos (by omega), h₂ _ (by omega) _ (by omega),
      hcell n 0 (by omega) (by omega)]
  · rw [if_pos (by omega), h₄ _ (by omega) _ (by omega), hcell n n (by omega) (by omega)]

theorem strassenValue_eq (hsize : Halves size) : ∀ i < size, ∀ j < size,
    strassenValue junk size X Y W i j = product size X Y i j := by
  induction size using Nat.strong_induction_on generalizing junk X Y W with
  | _ size ih =>
  rw [strassenValue]
  split
  next hsmall => exact fun _ _ _ _ => rfl
  next hlarge =>
  obtain ⟨n, rfl | rfl⟩ : ∃ n, size = n + n ∨ size = n + n + 1 := ⟨size / 2, by omega⟩
  · have hhalf : (n + n) / 2 = n := by omega
    have hn := (halves_two_mul (by omega)).mp hsize
    rw [hhalf]
    have htimes : ∀ t X Y, ∀ i < n, ∀ j < n,
        strassenValue (junk.call t) n X Y (fun i j => junk [] t (i * n + j)) i j =
          product n X Y i j := fun t X Y => ih n (by omega) hn
    refine paste_quadrants (fun i hi j hj => ?_) (fun i hi j hj => ?_) (fun i hi j hj => ?_)
      fun i hi j hj => ?_
    · rw [← Seven.upperLeft_eq]
      simp only [Seven.upperLeft, Seven.of, Pi.add_apply, Pi.sub_apply, htimes _ _ _ i hi j hj]
    · rw [← Seven.lowerLeft_eq]
      simp only [Seven.lowerLeft, Seven.of, Pi.add_apply, htimes _ _ _ i hi j hj]
    · rw [← Seven.upperRight_eq]
      simp only [Seven.upperRight, Seven.of, Pi.add_apply, htimes _ _ _ i hi j hj]
    · rw [← Seven.lowerRight_eq]
      simp only [Seven.lowerRight, Seven.of, Pi.add_apply, Pi.sub_apply, htimes _ _ _ i hi j hj]
  · exact absurd hsize (not_halves_odd (by omega))

/-! ### The sizes that do not -/

/-- There is a cell that no matrix reaches. -/
theorem exists_stale (hsize : ¬Halves size) : ∃ i < size, ∃ j < size,
    ∀ (junk : Junk) (X Y X' Y' W : ℕ → ℕ → BitVec 32),
      strassenValue junk size X Y W i j = strassenValue junk size X' Y' W i j := by
  induction size using Nat.strong_induction_on with
  | _ size ih =>
  have hlarge : ¬size ≤ 16 := fun h => hsize (.of_le h)
  obtain ⟨n, rfl | rfl⟩ : ∃ n, size = n + n ∨ size = n + n + 1 := ⟨size / 2, by omega⟩
  · have hhalf : (n + n) / 2 = n := by omega
    obtain ⟨i, hi, j, hj, hstale⟩ := ih n (by omega) fun hn =>
      hsize ((halves_two_mul (by omega)).mpr hn)
    refine ⟨i, by omega, j, by omega, fun junk X Y X' Y' W => ?_⟩
    have hcell : ∀ X Y, strassenValue junk (n + n) X Y W i j =
        (Seven.of (fun t X Y => strassenValue (junk.call t) n X Y fun i j =>
          junk [] t (i * n + j)) n X Y).upperLeft i j := by
      intro X Y
      rw [strassenValue, if_neg hlarge, hhalf]
      simp only [paste]
      rw [if_neg (by omega), if_neg (by omega), if_neg (by omega), if_pos (by omega)]
      rfl
    rw [hcell, hcell]
    simp only [Seven.upperLeft, Seven.of, Pi.add_apply, Pi.sub_apply]
    rw [hstale (junk.call 4) _ _ (X' + block n n X') (Y' + block n n Y'),
      hstale (junk.call 3) _ _ (block n n X') (block n 0 Y' - Y'),
      hstale (junk.call 5) _ _ (block 0 n X' - block n n X') (block n 0 Y' + block n n Y'),
      hstale (junk.call 1) _ _ (X' + block 0 n X') (block n n Y')]
  · have hhalf : (n + n + 1) / 2 = n := by omega
    refine ⟨n + n, by omega, n + n, by omega, fun junk X Y X' Y' W => ?_⟩
    -- the last row and the last column are left as they were
    have hcell : ∀ X Y, strassenValue junk (n + n + 1) X Y W (n + n) (n + n) =
        W (n + n) (n + n) := by
      intro X Y
      rw [strassenValue, if_neg hlarge, hhalf]
      simp only [paste]
      rw [if_neg (by omega), if_neg (by omega), if_neg (by omega), if_neg (by omega)]
    rw [hcell, hcell]

/-- The array of a matrix. -/
def ofMatrix (size : ℕ) (X : ℕ → ℕ → BitVec 32) : Array (BitVec 32) :=
  Array.ofFn fun p : Fin (size * size) => X (p / size) (p % size)

theorem ofMatrix_shows (size : ℕ) (X : ℕ → ℕ → BitVec 32) :
    Shows (ofMatrix size X) 0 size size size X := by
  intro i hi j hj
  have hlt := index_lt hi hj
  obtain ⟨hdiv, hmod⟩ := index_div_mod (i := i) hj
  rw [Nat.zero_add, Array.getElem?_eq_some_iff]
  refine ⟨by simpa [ofMatrix] using hlt, ?_⟩
  simp [ofMatrix, hdiv, hmod]

theorem Agrees.strassenValue_eq (h : Agrees size) (junk : Junk) (X Y W : ℕ → ℕ → BitVec 32) :
    ∀ i < size, ∀ j < size, strassenValue junk size X Y W i j = product size X Y i j := by
  intro i hi j hj
  have hX := ofMatrix_shows size X
  have hY := ofMatrix_shows size Y
  have hW := ofMatrix_shows size W
  have hL : Pointer.Shows ⟨ofMatrix size X, 0⟩ size size X := hX
  have hR : Pointer.Shows ⟨ofMatrix size Y, 0⟩ size size Y := hY
  obtain ⟨new, new', hnew, hnew', hcells⟩ := h junk size size size ⟨ofMatrix size X, 0⟩
    ⟨ofMatrix size Y, 0⟩ 0 (ofMatrix size W) le_rfl le_rfl le_rfl hX.holds hY.holds hW.holds
  obtain ⟨s, hs, hfills⟩ := strassenMatmul_spec junk hL hR le_rfl hW
  obtain ⟨s', hs', hfills'⟩ := naiveMatmul_spec hL hR le_rfl hW.holds
  obtain rfl := Option.some.inj (hnew.symm.trans hs)
  obtain rfl := Option.some.inj (hnew'.symm.trans hs')
  have hcell := hcells i hi j hj
  rw [hfills.shows i hi j hj, hfills'.shows i hi j hj] at hcell
  exact Option.some.inj hcell

/-- Of two products one is not what stands in the cell that no matrix reaches. -/
theorem not_agrees (hsize : ¬Halves size) : ¬Agrees size := by
  intro h
  obtain ⟨i, hi, j, hj, hstale⟩ := exists_stale hsize
  let junk : Junk := fun _ _ _ => 0
  let ones : ℕ → ℕ → BitVec 32 := fun _ _ => 1
  let row : ℕ → ℕ → BitVec 32 := fun k _ => if k = 0 then 1 else 0
  let zero : ℕ → ℕ → BitVec 32 := fun _ _ => 0
  have hrow : product size ones row i j = 1 := by
    have hfirst : 0 ∈ Finset.range size := Finset.mem_range.mpr (by omega)
    rw [product, Finset.sum_eq_single_of_mem 0 hfirst fun k _ hk => by simp [row, hk]]
    rfl
  have hzero : product size zero zero i j = 0 := by simp [product, zero]
  have hsame : (1 : BitVec 32) = 0 :=
    calc (1 : BitVec 32)
        = product size ones row i j := hrow.symm
      _ = strassenValue junk size ones row zero i j :=
        (h.strassenValue_eq junk ones row zero i hi j hj).symm
      _ = strassenValue junk size zero zero zero i j := hstale junk ones row zero zero zero
      _ = product size zero zero i j := h.strassenValue_eq junk zero zero zero i hi j hj
      _ = 0 := hzero
  exact absurd hsame (by decide)

/-- The seven products agree with the definition at a size exactly if halving it
meets no odd number above 16. -/
theorem agrees_iff (size : ℕ) : Agrees size ↔ Halves size := by
  constructor
  · exact fun h => not_not.mp fun hsize => not_agrees hsize h
  · intro hsize junk x y z L R result array hx hy hz hL hR hold
    obtain ⟨new, hnew, hfills⟩ := strassenMatmul_spec junk hL.shows hR.shows hz hold.shows
    obtain ⟨new', hnew', hfills'⟩ := naiveMatmul_spec hL.shows hR.shows hz hold
    refine ⟨new, new', hnew, hnew', fun i hi j hj => ?_⟩
    rw [hfills.shows i hi j hj, hfills'.shows i hi j hj, strassenValue_eq hsize i hi j hj]

/-- Already at 17 the last cell is not written. -/
theorem not_agrees_seventeen : ¬∀ size ≥ 1, Agrees size := by
  intro h
  have hodd : ¬Halves (8 + 8 + 1) := not_halves_odd (by decide)
  exact not_agrees hodd (h 17 (by decide))

end Course.Matmul
