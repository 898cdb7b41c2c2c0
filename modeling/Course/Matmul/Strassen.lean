import Course.Lib.BlockProduct
import Course.Lib.RowMajor
import Mathlib.Data.BitVec
import Mathlib.Data.Nat.Notation

/-! Products of square blocks of arrays of `int`, by the definition and by
Strassen's seven products. -/

open Course.Lib CountedLoops RowMajor BlockProduct

namespace Course.Matmul

/-- A pointer into an array that is read. -/
structure Pointer where
  array : Array (BitVec 32)
  base : ℕ

namespace Pointer

def add (p : Pointer) (n : ℕ) : Pointer := { p with base := p.base + n }

def read (p : Pointer) (i : ℕ) : Option (BitVec 32) := p.array[p.base + i]?

end Pointer

/-- What `malloc` leaves in the blocks: those of a call, and those of the calls
that it makes. -/
def Junk : Type := List ℕ → ℕ → ℕ → BitVec 32

namespace Junk

/-- The junk of the call that a call makes as its `t`th. -/
def call (junk : Junk) (t : ℕ) : Junk := fun path => junk (t :: path)

def malloc (junk : Junk) (t size : ℕ) : Array (BitVec 32) :=
  Array.ofFn fun i : Fin size => junk [] t i

end Junk

/-! ### The functions -/

/-- The loop of `naive_matmul` over `k`. -/
def naiveSum (size xRowOffset : ℕ) (L : Pointer) (yRowOffset : ℕ) (R : Pointer) (i j : ℕ) :
    Option (BitVec 32) :=
  forDo 1 size (fun k sum => do
    let x ← L.read (i * xRowOffset + k)
    let y ← R.read (k * yRowOffset + j)
    return sum + x * y) 0

def naiveMatmul (size xRowOffset : ℕ) (L : Pointer) (yRowOffset : ℕ) (R : Pointer)
    (resultRowOffset result : ℕ) : Array (BitVec 32) → Option (Array (BitVec 32)) :=
  forFill size size (naiveSum size xRowOffset L yRowOffset R) resultRowOffset result

def elementwise (op : BitVec 32 → BitVec 32 → BitVec 32) (size xRowOffset : ℕ) (L : Pointer)
    (yRowOffset : ℕ) (R : Pointer) (resultRowOffset result : ℕ) :
    Array (BitVec 32) → Option (Array (BitVec 32)) :=
  forFill size size (fun i j => do
    let x ← L.read (i * xRowOffset + j)
    let y ← R.read (i * yRowOffset + j)
    return op x y) resultRowOffset result

def madd := elementwise (· + ·)

def msub := elementwise (· - ·)

/-- The result is a block of the array, at `result`. -/
def strassenMatmul (junk : Junk) (size xRowOffset : ℕ) (L : Pointer) (yRowOffset : ℕ) (R : Pointer)
    (resultRowOffset result : ℕ) (array : Array (BitVec 32)) : Option (Array (BitVec 32)) :=
  if size ≤ 16 then
    naiveMatmul size xRowOffset L yRowOffset R resultRowOffset result array
  else do
    let n := size / 2
    let A := L
    let B := L.add n
    let C := L.add (n * xRowOffset)
    let D := C.add n
    let E := R
    let F := R.add n
    let G := R.add (n * yRowOffset)
    let H := G.add n
    let tmp₀ := junk.malloc 7 (n * n)
    let tmp₁ := junk.malloc 8 (n * n)
    let tmp₀ ← msub n yRowOffset F yRowOffset H n 0 tmp₀
    let P₀ ← strassenMatmul (junk.call 0) n xRowOffset A n ⟨tmp₀, 0⟩ n 0 (junk.malloc 0 (n * n))
    let tmp₀ ← madd n xRowOffset A xRowOffset B n 0 tmp₀
    let P₁ ← strassenMatmul (junk.call 1) n n ⟨tmp₀, 0⟩ yRowOffset H n 0 (junk.malloc 1 (n * n))
    let tmp₀ ← madd n xRowOffset C xRowOffset D n 0 tmp₀
    let P₂ ← strassenMatmul (junk.call 2) n n ⟨tmp₀, 0⟩ yRowOffset E n 0 (junk.malloc 2 (n * n))
    let tmp₀ ← msub n yRowOffset G yRowOffset E n 0 tmp₀
    let P₃ ← strassenMatmul (junk.call 3) n xRowOffset D n ⟨tmp₀, 0⟩ n 0 (junk.malloc 3 (n * n))
    let tmp₀ ← madd n xRowOffset A xRowOffset D n 0 tmp₀
    let tmp₁ ← madd n yRowOffset E yRowOffset H n 0 tmp₁
    let P₄ ← strassenMatmul (junk.call 4) n n ⟨tmp₀, 0⟩ n ⟨tmp₁, 0⟩ n 0 (junk.malloc 4 (n * n))
    let tmp₀ ← msub n xRowOffset B xRowOffset D n 0 tmp₀
    let tmp₁ ← madd n yRowOffset G yRowOffset H n 0 tmp₁
    let P₅ ← strassenMatmul (junk.call 5) n n ⟨tmp₀, 0⟩ n ⟨tmp₁, 0⟩ n 0 (junk.malloc 5 (n * n))
    let tmp₀ ← msub n xRowOffset A xRowOffset C n 0 tmp₀
    let tmp₁ ← madd n yRowOffset E yRowOffset F n 0 tmp₁
    let P₆ ← strassenMatmul (junk.call 6) n n ⟨tmp₀, 0⟩ n ⟨tmp₁, 0⟩ n 0 (junk.malloc 6 (n * n))
    -- upper left, lower left, upper right, lower right
    let tmp₀ ← madd n n ⟨P₄, 0⟩ n ⟨P₃, 0⟩ n 0 tmp₀
    let tmp₁ ← msub n n ⟨P₅, 0⟩ n ⟨P₁, 0⟩ n 0 tmp₁
    let array ← madd n n ⟨tmp₀, 0⟩ n ⟨tmp₁, 0⟩ resultRowOffset result array
    let array ← madd n n ⟨P₂, 0⟩ n ⟨P₃, 0⟩ resultRowOffset (result + n * resultRowOffset) array
    let array ← madd n n ⟨P₀, 0⟩ n ⟨P₁, 0⟩ resultRowOffset (result + n) array
    let tmp₀ ← madd n n ⟨P₀, 0⟩ n ⟨P₄, 0⟩ n 0 tmp₀
    let tmp₁ ← madd n n ⟨P₂, 0⟩ n ⟨P₆, 0⟩ n 0 tmp₁
    msub n n ⟨tmp₀, 0⟩ n ⟨tmp₁, 0⟩ resultRowOffset (result + n * (resultRowOffset + 1)) array
termination_by size

/-! ### What they compute -/

/-- What the recursion makes of a block that held `W`, with all its junk. -/
def strassenValue (junk : Junk) (size : ℕ) (X Y W : ℕ → ℕ → BitVec 32) : ℕ → ℕ → BitVec 32 :=
  if size ≤ 16 then product size X Y
  else
    let n := size / 2
    let P := Seven.of
      (fun t X Y => strassenValue (junk.call t) n X Y fun i j => junk [] t (i * n + j)) n X Y
    paste n n n n P.lowerRight (paste 0 n n n P.upperRight
      (paste n 0 n n P.lowerLeft (paste 0 0 n n P.upperLeft W)))
termination_by size

/-- The block at the pointer holds the values of `X`. -/
def Pointer.Shows (p : Pointer) (stride n : ℕ) (X : ℕ → ℕ → BitVec 32) : Prop :=
  RowMajor.Shows p.array p.base stride n n X

variable {L R : Pointer} {x y z size n base : ℕ} {X Y W : ℕ → ℕ → BitVec 32}
variable {old tmp : Array (BitVec 32)} {junk : Junk}

theorem Pointer.Shows.quadrants (h : L.Shows x size X) (hn : n + n ≤ size) :
    L.Shows x n X ∧ (L.add n).Shows x n (block 0 n X) ∧
      (L.add (n * x)).Shows x n (block n 0 X) ∧
      ((L.add (n * x)).add n).Shows x n (block n n X) := by
  have hblock : ∀ r c, r + n ≤ size → c + n ≤ size →
      RowMajor.Shows L.array (L.base + (r * x + c)) x n n (block r c X) :=
    fun r c hr hc => RowMajor.Shows.block h hr hc
  simp only [Pointer.Shows, Pointer.add]
  refine ⟨?_, ?_, ?_, ?_⟩
  · simpa using hblock 0 0 (by omega) (by omega)
  · simpa using hblock 0 n (by omega) (by omega)
  · simpa using hblock n 0 (by omega) (by omega)
  · simpa [Nat.add_assoc] using hblock n n hn hn

theorem naiveSum_spec (hL : L.Shows x size X) (hR : R.Shows y size Y) {i j : ℕ} (hi : i < size)
    (hj : j < size) : naiveSum size x L y R i j = some (product size X Y i j) := by
  obtain ⟨_, hloop, rfl⟩ : ∃ sum, naiveSum size x L y R i j = some sum ∧
      sum = ∑ t ∈ Finset.range size, X i t * Y t j :=
    forDo_spec (I := fun k sum => sum = ∑ t ∈ Finset.range k, X i t * Y t j)
      (Finset.sum_range_zero _).symm fun k sum hk hsum => by
        have hx : L.read (i * x + k) = some (X i k) := hL i hi k hk
        have hy : R.read (k * y + j) = some (Y k j) := hR k hk j hj
        refine ⟨sum + X i k * Y k j, ?_, ?_⟩
        · simp only [hx, hy]
          rfl
        · rw [hsum, Finset.sum_range_succ]
  exact hloop

theorem naiveMatmul_spec (hL : L.Shows x size X) (hR : R.Shows y size Y) (hz : size ≤ z)
    (hold : Holds old base z size size) : ∃ new,
      naiveMatmul size x L y R z base old = some new ∧
        Fills base z size size (product size X Y) old new :=
  forFill_fills hz (fun _ hi _ hj => naiveSum_spec hL hR hi hj) hold

theorem elementwise_spec (op : BitVec 32 → BitVec 32 → BitVec 32) (hL : L.Shows x n X)
    (hR : R.Shows y n Y) (hz : n ≤ z) (hold : Holds old base z n n) : ∃ new,
      elementwise op n x L y R z base old = some new ∧
        Fills base z n n (fun i j => op (X i j) (Y i j)) old new := by
  refine forFill_fills hz (fun i hi j hj => ?_) hold
  have hx : L.read (i * x + j) = some (X i j) := hL i hi j hj
  have hy : R.read (i * y + j) = some (Y i j) := hR i hi j hj
  simp only [hx, hy]
  rfl

theorem temp_spec (op : BitVec 32 → BitVec 32 → BitVec 32) (hL : L.Shows x n X)
    (hR : R.Shows y n Y) (htmp : tmp.size = n * n) : ∃ tmp',
      elementwise op n x L y R n 0 tmp = some tmp' ∧ tmp'.size = n * n ∧
        (⟨tmp', 0⟩ : Pointer).Shows n n fun i j => op (X i j) (Y i j) := by
  have hold : Holds tmp 0 n n n := fun i hi j hj => by
    rw [htmp, Nat.zero_add]
    exact index_lt hi hj
  obtain ⟨tmp', htmp', hfills⟩ := elementwise_spec op hL hR (Nat.le_refl n) hold
  exact ⟨tmp', htmp', hfills.size.trans htmp, hfills.shows⟩

theorem madd_temp (hL : L.Shows x n X) (hR : R.Shows y n Y) (htmp : tmp.size = n * n) :
    ∃ tmp', madd n x L y R n 0 tmp = some tmp' ∧ tmp'.size = n * n ∧
      (⟨tmp', 0⟩ : Pointer).Shows n n (X + Y) :=
  temp_spec (· + ·) hL hR htmp

theorem msub_temp (hL : L.Shows x n X) (hR : R.Shows y n Y) (htmp : tmp.size = n * n) :
    ∃ tmp', msub n x L y R n 0 tmp = some tmp' ∧ tmp'.size = n * n ∧
      (⟨tmp', 0⟩ : Pointer).Shows n n (X - Y) :=
  temp_spec (· - ·) hL hR htmp

/-- A sum that is written over a block of the result. -/
theorem elementwise_over (op : BitVec 32 → BitVec 32 → BitVec 32) {start r c : ℕ}
    (hstart : start = base + (r * z + c)) (hr : r + n ≤ size) (hc : c + n ≤ size) (hz : size ≤ z)
    (hL : L.Shows x n X) (hR : R.Shows y n Y) (hW : RowMajor.Shows old base z size size W) : ∃ new,
      elementwise op n x L y R z start old = some new ∧
        Fills base z size size (paste r c n n (fun i j => op (X i j) (Y i j)) W) old new := by
  obtain ⟨new, hnew, hfills⟩ := elementwise_spec op hL hR (by omega) (hW.holds.block hr hc)
  exact ⟨new, hstart ▸ hnew, hfills.over hW hr hc hz⟩

theorem malloc_size (junk : Junk) (t size : ℕ) : (junk.malloc t size).size = size := by
  simp [Junk.malloc]

theorem malloc_shows (junk : Junk) (t n : ℕ) :
    RowMajor.Shows (junk.malloc t (n * n)) 0 n n n fun i j => junk [] t (i * n + j) := by
  intro i hi j hj
  rw [Nat.zero_add, Array.getElem?_eq_some_iff]
  refine ⟨by simpa [Junk.malloc] using index_lt hi hj, ?_⟩
  simp [Junk.malloc]

theorem strassenMatmul_spec (junk : Junk) (hL : L.Shows x size X) (hR : R.Shows y size Y)
    (hz : size ≤ z) (hW : RowMajor.Shows old base z size size W) : ∃ new,
      strassenMatmul junk size x L y R z base old = some new ∧
        Fills base z size size (strassenValue junk size X Y W) old new := by
  induction size using Nat.strong_induction_on generalizing junk x y z L R base old X Y W with
  | _ size ih =>
  rw [strassenMatmul, strassenValue]
  split
  next hsmall => exact naiveMatmul_spec hL hR hz hW.holds
  next hlarge =>
  have hn : size / 2 + size / 2 ≤ size := by omega
  have hlt : size / 2 < size := by omega
  generalize size / 2 = n at hn hlt
  have hcall : ∀ t {x y : ℕ} {L R : Pointer} {X Y : ℕ → ℕ → BitVec 32}, L.Shows x n X →
      R.Shows y n Y → ∃ p,
        strassenMatmul (junk.call t) n x L y R n 0 (junk.malloc t (n * n)) = some p ∧
          (⟨p, 0⟩ : Pointer).Shows n n
            (strassenValue (junk.call t) n X Y fun i j => junk [] t (i * n + j)) := by
    intro t x y L R X Y hL hR
    obtain ⟨p, hp, hfills⟩ := ih n hlt (junk.call t) hL hR (Nat.le_refl n) (malloc_shows junk t n)
    exact ⟨p, hp, hfills.shows⟩
  obtain ⟨hA, hB, hC, hD⟩ := hL.quadrants hn
  obtain ⟨hE, hF, hG, hH⟩ := hR.quadrants hn
  -- the seven products, with the versions of the two temporaries
  obtain ⟨t₀, e₀, ht₀, st₀⟩ := msub_temp hF hH (malloc_size junk 7 (n * n))
  obtain ⟨p₀, f₀, hp₀⟩ := hcall 0 hA st₀
  obtain ⟨t₁, e₁, ht₁, st₁⟩ := madd_temp hA hB ht₀
  obtain ⟨p₁, f₁, hp₁⟩ := hcall 1 st₁ hH
  obtain ⟨t₂, e₂, ht₂, st₂⟩ := madd_temp hC hD ht₁
  obtain ⟨p₂, f₂, hp₂⟩ := hcall 2 st₂ hE
  obtain ⟨t₃, e₃, ht₃, st₃⟩ := msub_temp hG hE ht₂
  obtain ⟨p₃, f₃, hp₃⟩ := hcall 3 hD st₃
  obtain ⟨t₄, e₄, ht₄, st₄⟩ := madd_temp hA hD ht₃
  obtain ⟨u₄, g₄, hu₄, su₄⟩ := madd_temp hE hH (malloc_size junk 8 (n * n))
  obtain ⟨p₄, f₄, hp₄⟩ := hcall 4 st₄ su₄
  obtain ⟨t₅, e₅, ht₅, st₅⟩ := msub_temp hB hD ht₄
  obtain ⟨u₅, g₅, hu₅, su₅⟩ := madd_temp hG hH hu₄
  obtain ⟨p₅, f₅, hp₅⟩ := hcall 5 st₅ su₅
  obtain ⟨t₆, e₆, ht₆, st₆⟩ := msub_temp hA hC ht₅
  obtain ⟨u₆, g₆, hu₆, su₆⟩ := madd_temp hE hF hu₅
  obtain ⟨p₆, f₆, hp₆⟩ := hcall 6 st₆ su₆
  -- the four blocks of the result
  have b₁ : base = base + (0 * z + 0) := by simp
  have b₃ : base + n = base + (0 * z + n) := by simp
  have b₄ : base + n * (z + 1) = base + (n * z + n) := by rw [Nat.mul_succ]
  obtain ⟨t₇, e₇, ht₇, st₇⟩ := madd_temp hp₄ hp₃ ht₆
  obtain ⟨u₇, g₇, hu₇, su₇⟩ := msub_temp hp₅ hp₁ hu₆
  obtain ⟨a₁, r₁, hr₁⟩ := elementwise_over (· + ·) b₁ (by omega) (by omega) hz st₇ su₇ hW
  obtain ⟨a₂, r₂, hr₂⟩ := elementwise_over (· + ·) (c := 0) rfl (by omega) (by omega) hz
    hp₂ hp₃ hr₁.shows
  obtain ⟨a₃, r₃, hr₃⟩ := elementwise_over (· + ·) b₃ (by omega) (by omega) hz hp₀ hp₁
    hr₂.shows
  obtain ⟨t₈, e₈, ht₈, st₈⟩ := madd_temp hp₀ hp₄ ht₇
  obtain ⟨u₈, g₈, hu₈, su₈⟩ := madd_temp hp₂ hp₆ hu₇
  obtain ⟨a₄, r₄, hr₄⟩ := elementwise_over (· - ·) b₄ hn hn hz st₈ su₈ hr₃.shows
  refine ⟨a₄, ?_, ((hr₁.trans hr₂).trans hr₃).trans hr₄⟩
  exact bind_of_some e₀ (bind_of_some f₀ (bind_of_some e₁ (bind_of_some f₁ (bind_of_some e₂
    (bind_of_some f₂ (bind_of_some e₃ (bind_of_some f₃ (bind_of_some e₄ (bind_of_some g₄
    (bind_of_some f₄ (bind_of_some e₅ (bind_of_some g₅ (bind_of_some f₅ (bind_of_some e₆
    (bind_of_some g₆ (bind_of_some f₆ (bind_of_some e₇ (bind_of_some g₇ (bind_of_some r₁
    (bind_of_some r₂ (bind_of_some r₃ (bind_of_some e₈ (bind_of_some g₈ r₄)))))))))))))))))))))))

end Course.Matmul
