import Course.Lib.CountedLoops
import Course.Lib.Grid
import Mathlib.Data.Nat.Notation

/-! A transpose by tiles, with the edges that no tile covers. -/

open Course.Lib CountedLoops

namespace Course.Matmul

def tileSize : ℕ := 32

section Program

variable (rRow rCol : ℕ) (matrix : Array (BitVec 32)) (i j : ℕ)

/-- `new_tile[l * R_ROW + k] = tile[k * R_COL + l]`, of the tile at row `i` and
column `j`. -/
def assign (k l : ℕ) (newMatrix : Array (BitVec 32)) : Option (Array (BitVec 32)) := do
  let tile := i * rCol + j
  let newTile := j * rRow + i
  let x ← matrix[tile + (k * rCol + l)]?
  store newMatrix (newTile + (l * rRow + k)) x

/-- Four columns of a row. -/
def assignRow (k l : ℕ) (newMatrix : Array (BitVec 32)) : Option (Array (BitVec 32)) := do
  let newMatrix ← assign rRow rCol matrix i j k l newMatrix
  let newMatrix ← assign rRow rCol matrix i j k (l + 1) newMatrix
  let newMatrix ← assign rRow rCol matrix i j k (l + 2) newMatrix
  assign rRow rCol matrix i j k (l + 3) newMatrix

/-- Four rows of a column. -/
def assignColumn (k l : ℕ) (newMatrix : Array (BitVec 32)) : Option (Array (BitVec 32)) := do
  let newMatrix ← assign rRow rCol matrix i j k l newMatrix
  let newMatrix ← assign rRow rCol matrix i j (k + 1) l newMatrix
  let newMatrix ← assign rRow rCol matrix i j (k + 2) l newMatrix
  assign rRow rCol matrix i j (k + 3) l newMatrix

/-- The sixteen assignments. -/
def assignSquare (k l : ℕ) (newMatrix : Array (BitVec 32)) : Option (Array (BitVec 32)) := do
  let newMatrix ← assignRow rRow rCol matrix i j k l newMatrix
  let newMatrix ← assignRow rRow rCol matrix i j (k + 1) l newMatrix
  let newMatrix ← assignRow rRow rCol matrix i j (k + 2) l newMatrix
  assignRow rRow rCol matrix i j (k + 3) l newMatrix

def fullTile : Array (BitVec 32) → Option (Array (BitVec 32)) :=
  forDo 4 tileSize fun k => forDo 4 tileSize fun l => assignSquare rRow rCol matrix i j k l

def rightEdge : Array (BitVec 32) → Option (Array (BitVec 32)) :=
  forDo 4 tileSize fun k => forDo 1 (rCol - j) fun l => assignColumn rRow rCol matrix i j k l

def bottomEdge : Array (BitVec 32) → Option (Array (BitVec 32)) :=
  forDo 1 (rRow - i) fun k => forDo 4 tileSize fun l => assignRow rRow rCol matrix i j k l

def corner : Array (BitVec 32) → Option (Array (BitVec 32)) :=
  forDo 1 (rRow - i) fun k => forDo 1 (rCol - j) fun l => assign rRow rCol matrix i j k l

/-- A bound of a loop with `i <= R_ROW - TILE_SIZE`. -/
def tilesEnd (size : ℕ) : ℕ := size + 1 - tileSize

/-- The new matrix is what `malloc` leaves in it. -/
def tiledTranspose (newMatrix : Array (BitVec 32)) : Option (Array (BitVec 32)) := do
  let (i, newMatrix) ← forLoop tileSize (tilesEnd rRow) (fun i newMatrix => do
    let (j, newMatrix) ←
      forLoop tileSize (tilesEnd rCol) (fun j => fullTile rRow rCol matrix i j) 0 newMatrix
    rightEdge rRow rCol matrix i j newMatrix) 0 newMatrix
  let (j, newMatrix) ←
    forLoop tileSize (tilesEnd rCol) (fun j => bottomEdge rRow rCol matrix i j) 0 newMatrix
  corner rRow rCol matrix i j newMatrix

end Program

/-! ### What is transposed -/

/-- The cells of `m` rows from `r` on and `n` columns from `c` on. -/
def Rect (r c m n : ℕ) : Set (ℕ × ℕ) :=
  {p | r ≤ p.1 ∧ p.1 < r + m ∧ c ≤ p.2 ∧ p.2 < c + n}

theorem mem_rect {r c m n : ℕ} {p : ℕ × ℕ} :
    p ∈ Rect r c m n ↔ r ≤ p.1 ∧ p.1 < r + m ∧ c ≤ p.2 ∧ p.2 < c + n := Iff.rfl

variable {rRow rCol : ℕ} {matrix : Array (BitVec 32)} {i j k l : ℕ}

theorem tileSize_pos : 0 < tileSize := by decide

theorem le_of_lt_tilesEnd {i size : ℕ} (h : i < tilesEnd size) : i + tileSize ≤ size := by
  simp only [tilesEnd, tileSize] at h ⊢
  omega

/-- The cell of the matrix is where it belongs in the new one. -/
def Moved (rRow rCol : ℕ) (matrix : Array (BitVec 32)) (p : ℕ × ℕ)
    (newMatrix : Array (BitVec 32)) : Prop :=
  p.1 < rRow → p.2 < rCol → newMatrix[p.2 * rRow + p.1]? = matrix[p.1 * rCol + p.2]?

/-- The program has all its accesses in the matrices, and moves the cells. -/
def Moves (rRow rCol : ℕ) (matrix : Array (BitVec 32))
    (f : Array (BitVec 32) → Option (Array (BitVec 32))) (B : Set (ℕ × ℕ)) : Prop :=
  Does (fun newMatrix => newMatrix.size = rCol * rRow) (Moved rRow rCol matrix) f B

section Moves

variable (hmatrix : matrix.size = rRow * rCol)
include hmatrix

theorem assign_moves (hr : i + k < rRow) (hc : j + l < rCol) :
    Moves rRow rCol matrix (assign rRow rCol matrix i j k l) (Rect (i + k) (j + l) 1 1) := by
  intro new hnew
  have hread : i * rCol + j + (k * rCol + l) = (i + k) * rCol + (j + l) := by
    rw [Nat.add_mul]
    omega
  have hwrite : j * rRow + i + (l * rRow + k) = (j + l) * rRow + (i + k) := by
    rw [Nat.add_mul]
    omega
  have hinside : (i + k) * rCol + (j + l) < matrix.size := hmatrix ▸ index_lt hr hc
  obtain ⟨x, hx⟩ : ∃ x, matrix[(i + k) * rCol + (j + l)]? = some x :=
    ⟨_, getElem?_pos matrix _ hinside⟩
  obtain ⟨new', hstore, hsize, hget⟩ := store_eq_some (hnew ▸ index_lt hc hr) x
  refine ⟨new', ?_, hsize.trans hnew, fun ⟨r, c⟩ hmoved hr' hc' => ?_, fun ⟨r, c⟩ hp hr' hc' => ?_⟩
  · simp only [assign, hread, hwrite, hx]
    exact hstore
  · rw [hget]
    split
    next heq =>
      obtain ⟨rfl, rfl⟩ := index_inj hr' hr heq
      exact hx.symm
    · exact hmoved hr' hc'
  · simp only [mem_rect] at hp
    obtain rfl : r = i + k := by omega
    obtain rfl : c = j + l := by omega
    rw [hget, if_pos rfl, hx]

theorem assignRow_moves (hr : i + k < rRow) (hc : j + l + 4 ≤ rCol) :
    Moves rRow rCol matrix (assignRow rRow rCol matrix i j k l) (Rect (i + k) (j + l) 1 4) := by
  have hone : ∀ b < 4, Moves rRow rCol matrix (assign rRow rCol matrix i j k (l + b))
      (Rect (i + k) (j + (l + b)) 1 1) := fun b hb => assign_moves hmatrix hr (by omega)
  refine ((hone 0 (by omega)).bind ((hone 1 (by omega)).bind
    ((hone 2 (by omega)).bind (hone 3 (by omega))))).mono fun p hp => ?_
  simp only [Set.mem_union, mem_rect] at hp ⊢
  omega

theorem assignColumn_moves (hr : i + k + 4 ≤ rRow) (hc : j + l < rCol) :
    Moves rRow rCol matrix (assignColumn rRow rCol matrix i j k l) (Rect (i + k) (j + l) 4 1) := by
  have hone : ∀ b < 4, Moves rRow rCol matrix (assign rRow rCol matrix i j (k + b) l)
      (Rect (i + (k + b)) (j + l) 1 1) := fun b hb => assign_moves hmatrix (by omega) hc
  refine ((hone 0 (by omega)).bind ((hone 1 (by omega)).bind
    ((hone 2 (by omega)).bind (hone 3 (by omega))))).mono fun p hp => ?_
  simp only [Set.mem_union, mem_rect] at hp ⊢
  omega

theorem assignSquare_moves (hr : i + k + 4 ≤ rRow) (hc : j + l + 4 ≤ rCol) :
    Moves rRow rCol matrix (assignSquare rRow rCol matrix i j k l) (Rect (i + k) (j + l) 4 4) := by
  have hrow : ∀ b < 4, Moves rRow rCol matrix (assignRow rRow rCol matrix i j (k + b) l)
      (Rect (i + (k + b)) (j + l) 1 4) := fun b hb => assignRow_moves hmatrix (by omega) hc
  refine ((hrow 0 (by omega)).bind ((hrow 1 (by omega)).bind
    ((hrow 2 (by omega)).bind (hrow 3 (by omega))))).mono fun p hp => ?_
  simp only [Set.mem_union, mem_rect] at hp ⊢
  omega

omit hmatrix in
/-- Two loops, one in the other, cover what their counters count. -/
theorem nested_moves {step step' m n : ℕ}
    {body : ℕ → ℕ → Array (BitVec 32) → Option (Array (BitVec 32))} (hstep : 0 < step)
    (hstep' : 0 < step') (hbody : ∀ k < m, step ∣ k → ∀ l < n, step' ∣ l →
      Moves rRow rCol matrix (body k l) (Rect (i + k) (j + l) step step')) :
    Moves rRow rCol matrix (forDo step m fun k => forDo step' n fun l => body k l)
      (Rect i j m n) := by
  refine (Does.forDo hstep fun k hk hdvd => Does.forDo hstep' fun l hl hdvd' =>
    hbody k hk hdvd l hl hdvd').mono fun p hp => ?_
  rw [mem_rect] at hp
  obtain ⟨k, hdvd, hk, hk'⟩ := exists_counter hstep (p.1 - i)
  obtain ⟨l, hdvd', hl, hl'⟩ := exists_counter hstep' (p.2 - j)
  refine ⟨k, by omega, hdvd, l, by omega, hdvd', mem_rect.mpr ?_⟩
  omega

theorem fullTile_moves (hr : i + tileSize ≤ rRow) (hc : j + tileSize ≤ rCol) :
    Moves rRow rCol matrix (fullTile rRow rCol matrix i j) (Rect i j tileSize tileSize) := by
  simp only [tileSize] at hr hc
  refine nested_moves (by decide) (by decide) fun k hk hdvd l hl hdvd' => ?_
  simp only [tileSize] at hk hl
  exact assignSquare_moves hmatrix (by omega) (by omega)

theorem rightEdge_moves (hr : i + tileSize ≤ rRow) :
    Moves rRow rCol matrix (rightEdge rRow rCol matrix i j) (Rect i j tileSize (rCol - j)) := by
  simp only [tileSize] at hr
  refine nested_moves (by decide) (by decide) fun k hk hdvd l hl _ => ?_
  simp only [tileSize] at hk
  exact assignColumn_moves hmatrix (by omega) (by omega)

theorem bottomEdge_moves (hc : j + tileSize ≤ rCol) :
    Moves rRow rCol matrix (bottomEdge rRow rCol matrix i j) (Rect i j (rRow - i) tileSize) := by
  simp only [tileSize] at hc
  refine nested_moves (by decide) (by decide) fun k hk _ l hl hdvd => ?_
  simp only [tileSize] at hl
  exact assignRow_moves hmatrix (by omega) (by omega)

theorem corner_moves :
    Moves rRow rCol matrix (corner rRow rCol matrix i j) (Rect i j (rRow - i) (rCol - j)) :=
  nested_moves (by decide) (by decide) fun _ _ _ _ _ _ =>
    assign_moves hmatrix (by omega) (by omega)

/-- A row of tiles, with the edge at its end. -/
theorem tileRow_moves (hr : i + tileSize ≤ rRow) :
    Moves rRow rCol matrix (fun newMatrix => do
      let (j, newMatrix) ←
        forLoop tileSize (tilesEnd rCol) (fun j => fullTile rRow rCol matrix i j) 0 newMatrix
      rightEdge rRow rCol matrix i j newMatrix) (Rect i 0 tileSize rCol) := by
  intro new hnew
  have hbody : ∀ j, j < tilesEnd rCol → tileSize ∣ j →
      Moves rRow rCol matrix (fullTile rRow rCol matrix i j) (Rect i j tileSize tileSize) :=
    fun j hj _ => fullTile_moves hmatrix hr (le_of_lt_tilesEnd hj)
  obtain ⟨j, new₁, hloop, hdvd, hj, -, hnew₁, hkeep, hdone⟩ :=
    Does.forLoop tileSize_pos hbody hnew
  obtain ⟨new₂, hedge, hnew₂, hkeep', hdone'⟩ := rightEdge_moves (j := j) hmatrix hr new₁ hnew₁
  refine ⟨new₂, bind_of_some hloop hedge, hnew₂, fun p hp => hkeep' p (hkeep p hp), fun p hp => ?_⟩
  simp only [mem_rect] at hp
  by_cases hpj : p.2 < j
  · -- a cell of the tile that its column is in
    obtain ⟨k, hdvd', hk, hk'⟩ := exists_counter tileSize_pos p.2
    refine hkeep' p (hdone k ?_ hdvd' p (mem_rect.mpr ⟨hp.1, hp.2.1, hk, hk'⟩))
    omega
  · refine hdone' p (mem_rect.mpr ?_)
    omega

/-- The tiles and the edges cover the matrix, whatever its size. -/
theorem tiledTranspose_spec {newMatrix : Array (BitVec 32)} (hnew : newMatrix.size = rCol * rRow) :
    ∃ T, tiledTranspose rRow rCol matrix newMatrix = some T ∧ T.size = rCol * rRow ∧
      ∀ r < rRow, ∀ c < rCol, T[c * rRow + r]? = matrix[r * rCol + c]? := by
  obtain ⟨i, new₁, hrows, hdvd, hi, -, hnew₁, -, hdone⟩ := Does.forLoop tileSize_pos
    (fun i hi _ => tileRow_moves hmatrix (le_of_lt_tilesEnd hi)) hnew
  have hbody : ∀ j, j < tilesEnd rCol → tileSize ∣ j →
      Moves rRow rCol matrix (bottomEdge rRow rCol matrix i j) (Rect i j (rRow - i) tileSize) :=
    fun j hj _ => bottomEdge_moves hmatrix (le_of_lt_tilesEnd hj)
  obtain ⟨j, new₂, hbottom, hdvd', hj, -, hnew₂, hkeep', hdone'⟩ :=
    Does.forLoop tileSize_pos hbody hnew₁
  obtain ⟨T, hcorner, hT, hkeep'', hdone''⟩ := corner_moves (i := i) (j := j) hmatrix new₂ hnew₂
  refine ⟨T, bind_of_some hrows (bind_of_some hbottom hcorner), hT, fun r hr c hc => ?_⟩
  suffices hmoved : Moved rRow rCol matrix (r, c) T from hmoved hr hc
  by_cases hri : r < i
  · obtain ⟨k, hdvd'', hk, hk'⟩ := exists_counter tileSize_pos r
    refine hkeep'' _ (hkeep' _ (hdone k ?_ hdvd'' _ (mem_rect.mpr ⟨hk, hk', ?_⟩)))
    · omega
    · omega
  · by_cases hcj : c < j
    · obtain ⟨l, hdvd'', hl, hl'⟩ := exists_counter tileSize_pos c
      refine hkeep'' _ (hdone' l ?_ hdvd'' _ (mem_rect.mpr ⟨?_, ?_, hl, hl'⟩))
      · omega
      · omega
      · omega
    · refine hdone'' _ (mem_rect.mpr ?_)
      dsimp only
      omega

end Moves

end Course.Matmul
