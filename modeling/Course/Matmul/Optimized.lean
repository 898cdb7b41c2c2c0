import Course.Lib.BlockProduct
import Course.Lib.RowMajor
import Course.Matmul.Transpose
import Mathlib.Algebra.BigOperators.Fin
import Mathlib.Data.BitVec

/-! The product by dot products of rows with rows of the transpose, eight
vectors of eight numbers at a time. -/

open Course.Lib CountedLoops RowMajor BlockProduct Finset

namespace Course.Matmul

/-! ### Dot products -/

/-- A vector of eight numbers, `__m256i`. -/
abbrev M256 := Fin 8 → BitVec 32

/-- `_mm256_loadu_si256`, of the eight numbers at an index. -/
def loadu (a : Array (BitVec 32)) (p : ℕ) : Option M256 :=
  if p + 8 ≤ a.size then some fun lane => a[p + lane]! else none

def mullo (x y : M256) : M256 := fun lane => x lane * y lane

def addEpi32 (x y : M256) : M256 := fun lane => x lane + y lane

/-- `va_0` to `va_7`. -/
def loadEight (a : Array (BitVec 32)) (p : ℕ) : Option (Fin 8 → M256) := do
  let v₀ ← loadu a p
  let v₁ ← loadu a (p + 8)
  let v₂ ← loadu a (p + 16)
  let v₃ ← loadu a (p + 24)
  let v₄ ← loadu a (p + 32)
  let v₅ ← loadu a (p + 40)
  let v₆ ← loadu a (p + 48)
  let v₇ ← loadu a (p + 56)
  return fun
    | 0 => v₀ | 1 => v₁ | 2 => v₂ | 3 => v₃ | 4 => v₄ | 5 => v₅ | 6 => v₆ | 7 => v₇

/-- The pointers and the eight sums of `vec_dot`. -/
structure DotState where
  a : ℕ
  b : ℕ
  remainingSize : ℕ
  sum : Fin 8 → M256

/-- The loop over 64 numbers at a time; `A` and `B` are what the pointers point into. -/
def dotLoop (A B : Array (BitVec 32)) (s : DotState) : Option DotState :=
  if 64 ≤ s.remainingSize then do
    let va ← loadEight A s.a
    let vb ← loadEight B s.b
    dotLoop A B
      { a := s.a + 64
        b := s.b + 64
        remainingSize := s.remainingSize - 64
        sum := fun n => addEpi32 (s.sum n) (mullo (va n) (vb n)) }
  else some s
termination_by s.remainingSize

/-- `result += sum_0[i]` to `result += sum_7[i]`, for all lanes. -/
def horizontal (sum : Fin 8 → M256) : BitVec 32 :=
  (List.finRange 8).foldl (fun result i =>
    (List.finRange 8).foldl (fun result n => result + sum n i) result) 0

def vecDot (A B : Array (BitVec 32)) (a b size : ℕ) : Option (BitVec 32) := do
  let s ← dotLoop A B { a, b, remainingSize := size, sum := fun _ _ => 0 }
  forDo 1 s.remainingSize (fun i result => do
    let x ← A[s.a + i]?
    let y ← B[s.b + i]?
    return result + x * y) (horizontal s.sum)

/-! ### Products -/

/-- The macros `L_ROW`, `L_COL`, `R_ROW` and `R_COL`. -/
structure Dims where
  lRow : ℕ
  lCol : ℕ
  rRow : ℕ
  rCol : ℕ

/-- An entry is added up in the result. -/
def matmulEntry (d : Dims) (L R : Array (BitVec 32)) (i j : ℕ) (result : Array (BitVec 32)) :
    Option (Array (BitVec 32)) := do
  let result ← store result (i * d.rCol + j) 0
  forDo 1 d.lCol (fun k result => do
    let sum ← result[i * d.rCol + j]?
    let x ← L[i * d.lCol + k]?
    let y ← R[k * d.rCol + j]?
    store result (i * d.rCol + j) (sum + x * y)) result

/-- The naive product of `lab3.c`. -/
def matmul (d : Dims) (L R : Array (BitVec 32)) :
    Array (BitVec 32) → Option (Array (BitVec 32)) :=
  forEach d.lRow d.rCol (matmulEntry d L R)

/-- `newMatrix` is what `malloc` leaves in the transpose. -/
def optimizedMatmulImpl (d : Dims) (newMatrix L R result : Array (BitVec 32)) :
    Option (Array (BitVec 32)) := do
  let T ← tiledTranspose d.rRow d.rCol R newMatrix
  forFill d.lRow d.rCol (fun i j => vecDot L T (i * d.lCol) (j * d.rRow) d.lCol) d.rCol 0 result

/-! ### What a dot product computes -/

/-- The numbers from an index on. -/
def Runs (A : Array (BitVec 32)) (a size : ℕ) (x : ℕ → BitVec 32) : Prop :=
  ∀ k < size, A[a + k]? = some (x k)

variable {A B : Array (BitVec 32)} {a b size n : ℕ} {x y : ℕ → BitVec 32}

theorem Runs.drop (h : Runs A a size x) (hn : n ≤ size) :
    Runs A (a + n) (size - n) fun k => x (n + k) := by
  intro k hk
  rw [Nat.add_assoc]
  exact h (n + k) (by omega)

theorem Runs.take (h : Runs A a size x) (hn : n ≤ size) : Runs A a n x :=
  fun k hk => h k (hk.trans_le hn)

theorem loadu_eq (h : Runs A a 8 x) : loadu A a = some fun lane : Fin 8 => x lane := by
  have hinside : a + 8 ≤ A.size := by
    obtain ⟨hlt, -⟩ := Array.getElem?_eq_some_iff.mp (h 7 (by omega))
    omega
  rw [loadu, if_pos hinside]
  congr 1
  funext lane
  obtain ⟨hlt, hx⟩ := Array.getElem?_eq_some_iff.mp (h lane lane.isLt)
  rw [getElem!_pos A _ hlt, hx]

theorem loadEight_eq (h : Runs A a 64 x) :
    loadEight A a = some fun (n lane : Fin 8) => x (n * 8 + lane) := by
  have hvector : ∀ n ≤ 56, loadu A (a + n) = some fun lane : Fin 8 => x (n + lane) := by
    intro n hn
    have hrest := h.drop (n := n) (by omega)
    exact loadu_eq (hrest.take (by omega))
  have hfirst : loadu A a = some fun lane : Fin 8 => x (0 + lane) := hvector 0 (by omega)
  rw [loadEight, hfirst, hvector 8 (by omega), hvector 16 (by omega), hvector 24 (by omega),
    hvector 32 (by omega), hvector 40 (by omega), hvector 48 (by omega), hvector 56 (by omega)]
  refine congrArg some (funext fun n => ?_)
  match n with
  | 0 | 1 | 2 | 3 | 4 | 5 | 6 | 7 => rfl

/-- All that the lanes of the eight sums hold. -/
def total (sum : Fin 8 → M256) : BitVec 32 := ∑ n, ∑ lane, sum n lane

theorem foldl_add {ι : Type} (l : List ι) (f : ι → BitVec 32) (start : BitVec 32) :
    l.foldl (fun result i => result + f i) start = start + (l.map f).sum := by
  induction l generalizing start with
  | nil => simp
  | cons i l ih => rw [List.foldl_cons, ih, List.map_cons, List.sum_cons, add_assoc]

theorem horizontal_eq (sum : Fin 8 → M256) : horizontal sum = total sum := by
  simp only [horizontal, foldl_add, ← Fin.sum_univ_def]
  rw [zero_add, total, Finset.sum_comm]

/-- The lanes take every number once. -/
theorem sum_lanes (f : ℕ → BitVec 32) :
    ∑ k ∈ range 64, f k = ∑ n : Fin 8, ∑ lane : Fin 8, f (n * 8 + lane) := by
  have hrows : ∀ m, ∑ k ∈ range (m * 8), f k =
      ∑ n ∈ range m, ∑ lane ∈ range 8, f (n * 8 + lane) := by
    intro m
    induction m with
    | zero => rw [Nat.zero_mul, range_zero, sum_empty, sum_empty]
    | succ m ih => rw [Nat.succ_mul, sum_range_add, ih, sum_range_succ _ m]
  rw [hrows 8, sum_range]
  exact sum_congr rfl fun n _ => sum_range _

theorem total_add (sum va vb : Fin 8 → M256) :
    total (fun n => addEpi32 (sum n) (mullo (va n) (vb n))) =
      total sum + ∑ n, ∑ lane, va n lane * vb n lane := by
  simp only [total, addEpi32, mullo, sum_add_distrib]

/-- It stops before the end, with the products up to there in the sums. -/
theorem dotLoop_spec (s : DotState) (hx : Runs A s.a s.remainingSize x)
    (hy : Runs B s.b s.remainingSize y) : ∃ n ≤ s.remainingSize, ∃ sum,
      dotLoop A B s = some ⟨s.a + n, s.b + n, s.remainingSize - n, sum⟩ ∧
        total sum = total s.sum + ∑ k ∈ range n, x k * y k := by
  induction s using dotLoop.induct generalizing x y with
  | case1 s hlong ih =>
    have hva := loadEight_eq (hx.take hlong)
    have hvb := loadEight_eq (hy.take hlong)
    obtain ⟨n, hn, sum, hloop, htotal⟩ := ih (fun n lane => x (n * 8 + lane))
      (fun n lane => y (n * 8 + lane)) (hx.drop hlong) (hy.drop hlong)
    dsimp only at hn
    refine ⟨64 + n, by omega, sum, ?_, ?_⟩
    · rw [dotLoop, if_pos hlong, ← Nat.add_assoc, ← Nat.add_assoc, Nat.sub_add_eq]
      exact bind_of_some hva (bind_of_some hvb hloop)
    · rw [htotal, total_add, ← sum_lanes fun k => x k * y k, sum_range_add, add_assoc]
  | case2 s hshort =>
    refine ⟨0, Nat.zero_le _, s.sum, ?_, ?_⟩
    · rw [dotLoop, if_neg hshort]
      rfl
    · rw [range_zero, sum_empty, add_zero]

theorem vecDot_eq (hx : Runs A a size x) (hy : Runs B b size y) :
    vecDot A B a b size = some (∑ k ∈ range size, x k * y k) := by
  obtain ⟨n, hn, sum, hloop, htotal⟩ :=
    dotLoop_spec { a, b, remainingSize := size, sum := fun _ _ => 0 } hx hy
  dsimp only at hn hloop
  have hstart : total (fun _ _ => 0) = 0 := by simp [total]
  rw [hstart, zero_add] at htotal
  obtain ⟨_, htail, rfl⟩ : ∃ result, forDo 1 (size - n) (fun i result => do
      let x ← A[a + n + i]?
      let y ← B[b + n + i]?
      return result + x * y) (horizontal sum) = some result ∧
        result = ∑ k ∈ range (n + (size - n)), x k * y k :=
    forDo_spec (I := fun i result => result = ∑ k ∈ range (n + i), x k * y k)
      ((horizontal_eq sum).trans htotal) fun i result hi hresult => by
        refine ⟨result + x (n + i) * y (n + i), ?_, ?_⟩
        · rw [hx.drop hn i hi, hy.drop hn i hi]
          rfl
        · rw [hresult, ← Nat.add_assoc, sum_range_succ]
  rw [Nat.add_sub_cancel' hn] at htail
  exact bind_of_some hloop htail

/-! ### What the products compute -/

variable {d : Dims} {L R T old : Array (BitVec 32)} {X Y : ℕ → ℕ → BitVec 32}

theorem matmulEntry_sets (hL : Shows L 0 d.lCol d.lRow d.lCol X)
    (hR : Shows R 0 d.rCol d.lCol d.rCol Y) :
    Sets 0 d.rCol d.lRow d.rCol (product d.lCol X Y) (matmulEntry d L R) := by
  intro i hi j hj old hold
  rw [Nat.zero_add] at hold ⊢
  obtain ⟨first, hfirst, hsize, hget⟩ := store_eq_some hold (0 : BitVec 32)
  let I (k : ℕ) (result : Array (BitVec 32)) : Prop := result.size = old.size ∧ ∀ p,
    result[p]? = if p = i * d.rCol + j then some (∑ t ∈ range k, X i t * Y t j) else old[p]?
  have hnext : ∀ k result, k < d.lCol → I k result → ∃ next, (do
      let sum ← result[i * d.rCol + j]?
      let x ← L[i * d.lCol + k]?
      let y ← R[k * d.rCol + j]?
      store result (i * d.rCol + j) (sum + x * y)) = some next ∧ I (k + 1) next := by
    rintro k result hk ⟨hsize, hget⟩
    have hx : L[i * d.lCol + k]? = some (X i k) := by simpa using hL i hi k hk
    have hy : R[k * d.rCol + j]? = some (Y k j) := by simpa using hR k hk j hj
    obtain ⟨next, hstore, hsize', hget'⟩ :=
      store_eq_some (hsize.symm ▸ hold) (∑ t ∈ range k, X i t * Y t j + X i k * Y k j)
    refine ⟨next, ?_, hsize'.trans hsize, fun p => ?_⟩
    · rw [hget, if_pos rfl, hx, hy]
      exact hstore
    · rw [hget', sum_range_succ]
      split
      · rfl
      next hp => rw [hget, if_neg hp]
  obtain ⟨new, hloop, hsize', hget'⟩ := forDo_spec (I := I) ⟨hsize, hget⟩ hnext
  exact ⟨new, bind_of_some hfirst hloop, hsize', hget'⟩

theorem shows_of_size {m n : ℕ} (h : A.size = m * n) :
    Shows A 0 n m n fun i j => A[i * n + j]! := by
  intro i hi j hj
  have hlt : i * n + j < A.size := h ▸ index_lt hi hj
  rw [Nat.zero_add, getElem?_pos A _ hlt]
  exact congrArg some (getElem!_pos A _ hlt).symm

/-- An entry of the optimised product, from a row and a row of the transpose. -/
theorem vecDot_transpose (hL : Shows L 0 d.lCol d.lRow d.lCol X)
    (hR : Shows R 0 d.rCol d.lCol d.rCol Y)
    (hT : ∀ k < d.lCol, ∀ j < d.rCol, T[j * d.rRow + k]? = R[k * d.rCol + j]?) :
    ∀ i < d.lRow, ∀ j < d.rCol,
      vecDot L T (i * d.lCol) (j * d.rRow) d.lCol = some (product d.lCol X Y i j) := by
  intro i hi j hj
  have hx : Runs L (i * d.lCol) d.lCol (X i) := by
    intro k hk
    simpa using hL i hi k hk
  have hy : Runs T (j * d.rRow) d.lCol fun k => Y k j := by
    intro k hk
    rw [hT k hk j hj]
    simpa using hR k hk j hj
  exact vecDot_eq hx hy

/-- The products are the same, entry by entry, and no access is outside of its
matrix. -/
theorem optimizedMatmulImpl_eq (d : Dims) (hinner : d.lCol = d.rRow)
    (newMatrix L R result : Array (BitVec 32)) (hnew : newMatrix.size = d.rRow * d.rCol)
    (hL : L.size = d.lRow * d.lCol) (hR : R.size = d.rRow * d.rCol)
    (hresult : result.size = d.lRow * d.rCol) :
    ∃ new, optimizedMatmulImpl d newMatrix L R result = some new ∧
      matmul d L R result = some new ∧ new.size = d.lRow * d.rCol ∧
      ∀ i < d.lRow, ∀ j < d.rCol, new[i * d.rCol + j]? =
        some (∑ k ∈ range d.lCol, L[i * d.lCol + k]! * R[k * d.rCol + j]!) := by
  have hLs := shows_of_size hL
  have hRs := shows_of_size (hR.trans (by rw [hinner]) : R.size = d.lCol * d.rCol)
  have hold : Holds result 0 d.rCol d.lRow d.rCol := (shows_of_size hresult).holds
  obtain ⟨T, htranspose, -, hT⟩ := tiledTranspose_spec hR (hnew.trans (Nat.mul_comm _ _))
  obtain ⟨new, hnew, hfills⟩ := forFill_fills (Nat.le_refl d.rCol)
    (vecDot_transpose hLs hRs fun k hk j hj => hT k (hinner ▸ hk) j hj) hold
  obtain ⟨new', hnew', hfills'⟩ :=
    forEach_fills (Nat.le_refl d.rCol) (matmulEntry_sets hLs hRs) hold
  obtain rfl : new = new' := hfills.unique hfills' fun _ _ _ _ => rfl
  refine ⟨new, bind_of_some htranspose hnew, hnew', hfills.size.trans hresult, fun i hi j hj => ?_⟩
  have hcell := hfills.shows i hi j hj
  rwa [Nat.zero_add] at hcell

/-- The sizes of `config.h`. -/
def config : Dims where
  lRow := 799
  lCol := 1923
  rRow := 1923
  rCol := 17

theorem optimizedMatmulImpl_eq_config :
    ∃ new, optimizedMatmulImpl config (Array.replicate (1923 * 17) 0)
        (Array.replicate (799 * 1923) 1) (Array.replicate (1923 * 17) 2)
        (Array.replicate (799 * 17) 0) = some new ∧
      matmul config (Array.replicate (799 * 1923) 1) (Array.replicate (1923 * 17) 2)
        (Array.replicate (799 * 17) 0) = some new ∧ new.size = 799 * 17 ∧
      ∀ i < 799, ∀ j < 17, new[i * 17 + j]? = some (∑ k ∈ range 1923,
        (Array.replicate (799 * 1923) (1 : BitVec 32))[i * 1923 + k]! *
          (Array.replicate (1923 * 17) (2 : BitVec 32))[k * 17 + j]!) :=
  optimizedMatmulImpl_eq config rfl _ _ _ _ Array.size_replicate Array.size_replicate
    Array.size_replicate Array.size_replicate

end Course.Matmul
