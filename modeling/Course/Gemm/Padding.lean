import Course.Gemm.Reachable
import Mathlib.Algebra.Group.Nat.Defs
import Mathlib.Data.Nat.Bitwise

/-! The padding walks upwards over the bytes of the operand regions that no element
occupies, and clears each. -/

namespace Course.Gemm

open Course.Lib

/-- The next multiple of the core size -/
def roundUp (core n : ℕ) : ℕ := (n + core - 1) / core * core

theorem pad_eq_roundUp {size core : ℕ} (hc : core.isPowerOfTwo) (h : size + core - 1 < 2 ^ 32) :
    pad size core = roundUp core size := by
  obtain ⟨p, rfl⟩ := hc
  have hpos : 0 < 2 ^ p := Nat.two_pow_pos p
  rw [pad, roundUp, Nat.mod_eq_of_lt h]
  by_cases hp : p ≤ 32
  · have hmask : 2 ^ 32 - 1 - (2 ^ p - 1) = 2 ^ p * (2 ^ (32 - p) - 1) := by
      have : 2 ^ p * 2 ^ (32 - p) = 2 ^ 32 := by rw [← Nat.pow_add]; congr 1; omega
      rw [Nat.mul_sub, this]
      omega
    rw [hmask, Nat.mul_comm (_ / _)]
    apply Nat.eq_of_testBit_eq
    intro i
    rw [Nat.testBit_and, Nat.testBit_two_pow_mul, Nat.testBit_two_pow_mul,
      Nat.testBit_two_pow_sub_one, Nat.testBit_div_two_pow]
    by_cases hi : p ≤ i
    · by_cases hi' : i < 32
      · simp [hi, show i - p < 32 - p by omega, Nat.sub_add_cancel hi]
      · have : (size + 2 ^ p - 1).testBit i = false :=
          Nat.testBit_eq_false_of_lt (Nat.lt_of_lt_of_le h
            (Nat.pow_le_pow_right Nat.two_pos (by omega)))
        simp [hi, Nat.sub_add_cancel hi, this]
    · simp [hi]
  · have : 2 ^ 33 ≤ 2 ^ p := Nat.pow_le_pow_right Nat.two_pos (by omega)
    omega

theorem roundUp_spec {core n : ℕ} (hc : 0 < core) :
    core ∣ roundUp core n ∧ n ≤ roundUp core n ∧ roundUp core n < n + core := by
  have h := Nat.div_add_mod (n + core - 1) core
  have hlt := Nat.mod_lt (n + core - 1) hc
  refine ⟨⟨_, Nat.mul_comm _ _⟩, ?_⟩
  rw [roundUp, Nat.mul_comm]
  omega

theorem usub_add {w x y : ℕ} (h : x + y < 2 ^ w) : usub w (x + y) x = y := by
  rw [usub, show x + y + 2 ^ w - x = y + 2 ^ w by omega, Nat.add_mod_right]
  exact Nat.mod_eq_of_lt (by omega)

/-- What a size is padded to. -/
structure Padded (core n padded : ℕ) : Prop where
  pos : 1 ≤ n
  le : n ≤ padded
  dvd : core ∣ padded

/-- The padded operands and the result have their regions. -/
structure Layout (cfg : Configs) (d : Dims) : Prop where
  rowsA : Padded cfg.calcCoreSize d.matARows (d.paddedMatARows cfg)
  colsA : Padded cfg.calcCoreSize d.matACols (d.paddedMatACols cfg)
  rowsB : Padded cfg.calcCoreSize d.matBRows (d.paddedMatBRows cfg)
  colsB : Padded cfg.calcCoreSize d.matBCols (d.paddedMatBCols cfg)
  inner : d.matBRows = d.matACols
  regionA : d.paddedMatARows cfg * d.paddedMatACols cfg ≤ cfg.baseAddressB
  regionB : cfg.baseAddressB + d.paddedMatBRows cfg * d.paddedMatBCols cfg ≤ cfg.baseAddressC
  regionC : cfg.baseAddressC + 4 * (d.paddedMatARows cfg * d.paddedMatBCols cfg) ≤ cfg.memSize

/-- Dimensions of a product of matrices whose padded sizes fit the regions. -/
structure Dims.Fits (cfg : Configs) (d : Dims) : Prop where
  matARows : 1 ≤ d.matARows
  matACols : 1 ≤ d.matACols
  matBCols : 1 ≤ d.matBCols
  matBRows : d.matBRows = d.matACols
  regionA : roundUp cfg.calcCoreSize d.matARows * roundUp cfg.calcCoreSize d.matACols ≤
    cfg.matAElemNum
  regionB : roundUp cfg.calcCoreSize d.matBRows * roundUp cfg.calcCoreSize d.matBCols ≤
    cfg.matBElemNum
  regionC : roundUp cfg.calcCoreSize d.matARows * roundUp cfg.calcCoreSize d.matBCols ≤
    cfg.matResElemNum

theorem Dims.Fits.layout {cfg : Configs} {d : Dims} (h : d.Fits cfg) : Layout cfg d := by
  have hpos : 0 < cfg.calcCoreSize := Core.calcCoreSize_pos cfg
  have hmem := cfg.memSize_lt
  have size : cfg.memSize = cfg.matAElemNum + cfg.matBElemNum + cfg.matResElemNum * 4 := rfl
  have up : ∀ n, 1 ≤ n → 1 ≤ roundUp cfg.calcCoreSize n := fun n hn =>
    Nat.le_trans hn (roundUp_spec hpos).2.1
  have small : ∀ n, roundUp cfg.calcCoreSize n < 2 ^ 31 → 1 ≤ n →
      pad n cfg.calcCoreSize = roundUp cfg.calcCoreSize n := by
    intro n hn hn1
    obtain ⟨hdvd, hle, hlt⟩ := roundUp_spec (n := n) hpos
    have hcore := Nat.le_of_dvd (up n hn1) hdvd
    exact pad_eq_roundUp cfg.isPowerOfTwo (by omega)
  have hk := h.matBRows ▸ h.matACols
  have padded : ∀ n, roundUp cfg.calcCoreSize n < 2 ^ 31 → 1 ≤ n →
      Padded cfg.calcCoreSize n (pad n cfg.calcCoreSize) := by
    intro n hn hn1
    rw [small n hn hn1]
    exact ⟨hn1, (roundUp_spec hpos).2.1, (roundUp_spec hpos).1⟩
  have hA := h.regionA
  have hB := h.regionB
  have hC := h.regionC
  have hAr := Nat.le_mul_of_pos_right (roundUp cfg.calcCoreSize d.matARows) (up _ h.matACols)
  have hAc := Nat.le_mul_of_pos_left (roundUp cfg.calcCoreSize d.matACols) (up _ h.matARows)
  have hBr := Nat.le_mul_of_pos_right (roundUp cfg.calcCoreSize d.matBRows) (up _ h.matBCols)
  have hBc := Nat.le_mul_of_pos_left (roundUp cfg.calcCoreSize d.matBCols) (up _ hk)
  have eAr : d.paddedMatARows cfg = _ := small d.matARows (by omega) h.matARows
  have eAc : d.paddedMatACols cfg = _ := small d.matACols (by omega) h.matACols
  have eBr : d.paddedMatBRows cfg = _ := small d.matBRows (by omega) hk
  have eBc : d.paddedMatBCols cfg = _ := small d.matBCols (by omega) h.matBCols
  constructor
  · exact padded _ (by omega) h.matARows
  · exact padded _ (by omega) h.matACols
  · exact padded _ (by omega) hk
  · exact padded _ (by omega) h.matBCols
  · exact h.matBRows
  · rw [eAr, eAc]
    exact hA
  · rw [eBr, eBc]
    exact Nat.add_le_add_left hB _
  · rw [eAr, eBc, size, Nat.mul_comm 4]
    exact Nat.add_le_add_left (Nat.mul_le_mul_right 4 hC) _

/-- An operand in its region, row by row. -/
structure Region where
  base : ℕ
  rows : ℕ
  cols : ℕ
  paddedRows : ℕ
  paddedCols : ℕ

namespace Region

variable (R : Region)

def size : ℕ := R.paddedRows * R.paddedCols

/-- To the right of the elements. -/
def ColZone (y : ℕ) : Prop := y < R.rows * R.paddedCols ∧ R.cols ≤ y % R.paddedCols

/-- Below the elements. -/
def RowZone (y : ℕ) : Prop := R.rows * R.paddedCols ≤ y ∧ y < R.size

/-- The bytes that no element occupies. -/
def Zone (x : ℕ) : Prop :=
  R.base ≤ x ∧ x - R.base < R.size ∧
    (R.rows * R.paddedCols ≤ x - R.base ∨ R.cols ≤ (x - R.base) % R.paddedCols)

structure Proper : Prop where
  rows_pos : 1 ≤ R.rows
  cols_pos : 1 ≤ R.cols
  rows_le : R.rows ≤ R.paddedRows
  cols_le : R.cols ≤ R.paddedCols

variable {R}

theorem Proper.rows_le_size (h : R.Proper) : R.rows * R.paddedCols ≤ R.size :=
  Nat.mul_le_mul_right _ h.rows_le

theorem Proper.cols_le_rows (h : R.Proper) : R.paddedCols ≤ R.rows * R.paddedCols :=
  Nat.le_mul_of_pos_left _ h.rows_pos

theorem Zone.lt {x : ℕ} (h : R.Zone x) : x < R.base + R.size := by
  have := h.1
  have := h.2.1
  omega

theorem zone_of_col (hR : R.Proper) {y : ℕ} (h : R.ColZone y) : R.Zone (R.base + y) := by
  refine ⟨Nat.le_add_right _ _, ?_, ?_⟩
  · have := hR.rows_le_size
    have := h.1
    omega
  · rw [Nat.add_sub_cancel_left]
    exact .inr h.2

theorem zone_of_row {y : ℕ} (h : R.RowZone y) : R.Zone (R.base + y) := by
  refine ⟨Nat.le_add_right _ _, ?_, ?_⟩
  · rw [Nat.add_sub_cancel_left]
    exact h.2
  · rw [Nat.add_sub_cancel_left]
    exact .inl h.1

/-- The first byte to the right of the elements, where there is one. -/
theorem colZone_first (hR : R.Proper) (h : R.cols ≠ R.paddedCols) : R.ColZone R.cols := by
  have hlt : R.cols < R.paddedCols := Nat.lt_of_le_of_ne hR.cols_le h
  refine ⟨Nat.lt_of_lt_of_le hlt hR.cols_le_rows, ?_⟩
  rw [Nat.mod_eq_of_lt hlt]

theorem not_zone_before (hR : R.Proper) {x : ℕ} (h : x < R.base + R.cols) : ¬R.Zone x := by
  rintro ⟨hb, -, hz⟩
  have hc := hR.cols_le
  have hr := hR.cols_le_rows
  rcases hz with hz | hz
  · omega
  · rw [Nat.mod_eq_of_lt (by omega)] at hz
    omega

theorem zone_of_full_rows {x : ℕ} (hR : R.Proper) (h : R.cols = R.paddedCols) (hx : R.Zone x) :
    R.base + R.rows * R.paddedCols ≤ x := by
  obtain ⟨hb, -, hz⟩ := hx
  have hlt := Nat.mod_lt (x - R.base) (show 0 < R.paddedCols from h ▸ hR.cols_pos)
  rcases hz with hz | hz
  · omega
  · omega

/-- The rest of a row of padding. -/
theorem ColZone.succ {y : ℕ} (h : R.ColZone y) (hy : (y + 1) % R.paddedCols ≠ 0) :
    R.ColZone (y + 1) := by
  obtain ⟨hlt, hc⟩ := h
  have hpos : 0 < R.paddedCols := Nat.pos_of_lt_mul_left hlt
  constructor
  · rcases Nat.lt_or_ge (y + 1) (R.rows * R.paddedCols) with hlt' | hge
    · exact hlt'
    · rw [show y + 1 = R.rows * R.paddedCols by omega, Nat.mul_mod_left] at hy
      exact absurd rfl hy
  · have hm := (div_mod_succ y hpos).2 fun hm => hy ((div_mod_succ y hpos).1 hm).2
    rw [hm.2]
    omega

/-- The row after it. -/
theorem ColZone.nextRow {y : ℕ} (h : R.ColZone y) (hy : (y + 1) % R.paddedCols = 0)
    (hlast : y + 1 ≠ R.rows * R.paddedCols) :
    R.ColZone (y + 1 + R.cols) ∧ ∀ i < R.cols, ¬R.Zone (R.base + (y + 1 + i)) := by
  obtain ⟨hlt, hc⟩ := h
  obtain ⟨q, hq⟩ := Nat.dvd_of_mod_eq_zero hy
  have hpos : 0 < R.paddedCols := Nat.pos_of_lt_mul_left hlt
  have hcols : R.cols < R.paddedCols := Nat.lt_of_le_of_lt hc (Nat.mod_lt y hpos)
  have hqr : q < R.rows := by
    have : R.paddedCols * q < R.paddedCols * R.rows := by
      rw [Nat.mul_comm _ R.rows]
      omega
    exact Nat.lt_of_mul_lt_mul_left this
  have hend : R.paddedCols * q + R.paddedCols ≤ R.rows * R.paddedCols := by
    rw [← Nat.mul_succ, Nat.mul_comm]
    exact Nat.mul_le_mul_right _ hqr
  have hmod : ∀ i ≤ R.cols, (y + 1 + i) % R.paddedCols = i := by
    intro i hi
    rw [hq, Nat.mul_add_mod, Nat.mod_eq_of_lt (by omega)]
  refine ⟨⟨by omega, (hmod _ (Nat.le_refl _)).ge⟩, ?_⟩
  rintro i hi ⟨-, -, hz⟩
  rw [Nat.add_sub_cancel_left, hmod i (Nat.le_of_lt hi)] at hz
  omega

end Region

namespace Dims

variable (cfg : Configs) (d : Dims)

def regionA : Region where
  base := cfg.baseAddressA
  rows := d.matARows
  cols := d.matACols
  paddedRows := d.paddedMatARows cfg
  paddedCols := d.paddedMatACols cfg

def regionB : Region where
  base := cfg.baseAddressB
  rows := d.matBRows
  cols := d.matBCols
  paddedRows := d.paddedMatBRows cfg
  paddedCols := d.paddedMatBCols cfg

/-- The bytes to clear. -/
def Zone (x : ℕ) : Prop := (d.regionA cfg).Zone x ∨ (d.regionB cfg).Zone x

/-- What each padding state walks over. -/
def Place : PadState → ℕ → Prop
  | .padACol, x => ∃ y, x = (d.regionA cfg).base + y ∧ (d.regionA cfg).ColZone y
  | .padARow, x => ∃ y, x = (d.regionA cfg).base + y ∧ (d.regionA cfg).RowZone y
  | .padBCol, x => ∃ y, x = (d.regionB cfg).base + y ∧ (d.regionB cfg).ColZone y
  | .padBRow, x => ∃ y, x = (d.regionB cfg).base + y ∧ (d.regionB cfg).RowZone y

end Dims

namespace Layout

variable {cfg : Configs} {d : Dims}

theorem properA (L : Layout cfg d) : (d.regionA cfg).Proper :=
  ⟨L.rowsA.pos, L.colsA.pos, L.rowsA.le, L.colsA.le⟩

theorem properB (L : Layout cfg d) : (d.regionB cfg).Proper :=
  ⟨L.rowsB.pos, L.colsB.pos, L.rowsB.le, L.colsB.le⟩

theorem endA (L : Layout cfg d) :
    (d.regionA cfg).base + (d.regionA cfg).size ≤ (d.regionB cfg).base := by
  have := L.regionA
  simpa [Dims.regionA, Dims.regionB, Region.size, MatrixMultiplicationConfigs.baseAddressA]

theorem endB (L : Layout cfg d) :
    (d.regionB cfg).base + (d.regionB cfg).size ≤ cfg.baseAddressC := L.regionB

theorem baseC_le (L : Layout cfg d) : cfg.baseAddressC ≤ cfg.memSize :=
  Nat.le_trans (Nat.le_add_right _ _) L.regionC

theorem endB_lt (L : Layout cfg d) : (d.regionB cfg).base + (d.regionB cfg).size < 2 ^ 31 :=
  Nat.lt_of_le_of_lt (Nat.le_trans L.endB L.baseC_le) cfg.memSize_lt

theorem not_zoneB (L : Layout cfg d) {x : ℕ}
    (h : x < (d.regionA cfg).base + (d.regionA cfg).size) : ¬(d.regionB cfg).Zone x :=
  fun hz => by
    have := hz.1
    have := L.endA
    omega

theorem not_zoneA (L : Layout cfg d) {x : ℕ} (h : (d.regionB cfg).base ≤ x) :
    ¬(d.regionA cfg).Zone x :=
  fun hz => by
    have := hz.lt
    have := L.endA
    omega

theorem place_zone (L : Layout cfg d) {ps : PadState} {x : ℕ} (h : d.Place cfg ps x) :
    d.Zone cfg x := by
  cases ps <;> obtain ⟨y, rfl, hy⟩ := h
  · exact .inl (Region.zone_of_col L.properA hy)
  · exact .inl (Region.zone_of_row hy)
  · exact .inr (Region.zone_of_col L.properB hy)
  · exact .inr (Region.zone_of_row hy)

theorem zone_lt (L : Layout cfg d) {x : ℕ} (h : d.Zone cfg x) :
    x < (d.regionB cfg).base + (d.regionB cfg).size := by
  rcases h with h | h
  · have := h.lt
    have := L.endA
    omega
  · exact h.lt

end Layout

namespace MatrixMultiplication

variable {cfg : Configs} {d : Dims} {s : MatrixMultiplication}

/-- From address `lo` on, the module goes on with the first byte to clear, or there is
none and it starts on the blocks. -/
def Enters (cfg : Configs) (d : Dims) (lo : ℕ) (t : MatrixMultiplication) : Prop :=
  (t.state = .pad ∧ lo ≤ t.padIndex ∧ d.Place cfg t.padState t.padIndex ∧
    ∀ x, lo ≤ x → x < t.padIndex → ¬d.Zone cfg x) ∨
  (t.state = .busy ∧ ∀ x, lo ≤ x → ¬d.Zone cfg x)

theorem enters_pad {t : MatrixMultiplication} {lo x : ℕ} {ps : PadState} (hs : t.state = .pad)
    (hps : t.padState = ps) (hx : t.padIndex = x) (hlo : lo ≤ x) (hp : d.Place cfg ps x)
    (h : ∀ z, lo ≤ z → z < x → ¬d.Zone cfg z) : Enters cfg d lo t := by
  subst hps hx
  exact .inl ⟨hs, hlo, hp, h⟩

theorem toPadBRow_enters (L : Layout cfg d) {lo : ℕ}
    (hlo : lo ≤ (d.regionB cfg).base + d.matBRows * d.paddedMatBCols cfg)
    (h : ∀ x, lo ≤ x → d.Zone cfg x →
      (d.regionB cfg).base + d.matBRows * d.paddedMatBCols cfg ≤ x) :
    Enters cfg d lo (s.toPadBRow cfg d) := by
  have hsize : d.matBRows * d.paddedMatBCols cfg ≤ (d.regionB cfg).size := L.properB.rows_le_size
  have hend := L.endB_lt
  unfold toPadBRow
  split
  · rename_i hne
    have hidx : (cfg.baseAddressB + d.matBRows * d.paddedMatBCols cfg) % 2 ^ 32 =
        (d.regionB cfg).base + d.matBRows * d.paddedMatBCols cfg :=
      Nat.mod_eq_of_lt (show (d.regionB cfg).base + _ < 2 ^ 32 by omega)
    have hlt : d.matBRows * d.paddedMatBCols cfg < (d.regionB cfg).size :=
      Nat.mul_lt_mul_of_pos_right (Nat.lt_of_le_of_ne L.rowsB.le hne)
        (Nat.lt_of_lt_of_le L.colsB.pos L.colsB.le)
    refine enters_pad rfl rfl hidx hlo ⟨_, rfl, Nat.le_refl _, hlt⟩ fun x hx hlt' hz => ?_
    have := h x hx hz
    omega
  · rename_i heq
    have heq : d.matBRows = d.paddedMatBRows cfg := by simpa using heq
    refine .inr ⟨rfl, fun x hx hz => ?_⟩
    have hle := h x hx hz
    have hlt := L.zone_lt hz
    rw [show (d.regionB cfg).size = d.matBRows * d.paddedMatBCols cfg by
      rw [heq]; rfl] at hlt
    omega

theorem toPadBCol_enters (L : Layout cfg d) {lo : ℕ} (hlo : lo ≤ (d.regionB cfg).base)
    (h : ∀ x, lo ≤ x → d.Zone cfg x → (d.regionB cfg).base ≤ x) :
    Enters cfg d lo (s.toPadBCol cfg d) := by
  have hR := L.properB
  have hend := L.endB_lt
  unfold toPadBCol
  split
  · rename_i hne
    have hcol := Region.colZone_first hR hne
    have hlt := hcol.1
    have hidx : (cfg.baseAddressB + d.matBCols) % 2 ^ 32 =
        (d.regionB cfg).base + (d.regionB cfg).cols :=
      Nat.mod_eq_of_lt (show (d.regionB cfg).base + (d.regionB cfg).cols < 2 ^ 32 by
        have := hR.rows_le_size
        omega)
    refine enters_pad rfl rfl hidx (Nat.le_trans hlo (Nat.le_add_right _ _)) ⟨_, rfl, hcol⟩ ?_
    intro x hx hlt' hz
    rcases hz with hz | hz
    · exact L.not_zoneA (h x hx (.inl hz)) hz
    · exact Region.not_zone_before hR hlt' hz
  · rename_i heq
    have heq : (d.regionB cfg).cols = (d.regionB cfg).paddedCols := Decidable.not_not.mp heq
    refine toPadBRow_enters L (Nat.le_trans hlo (Nat.le_add_right _ _)) fun x hx hz => ?_
    have hle := h x hx hz
    rcases hz with hz | hz
    · exact absurd hz (L.not_zoneA hle)
    · exact Region.zone_of_full_rows hR heq hz

theorem toPadARow_enters (L : Layout cfg d) {lo : ℕ}
    (hlo : lo ≤ (d.regionA cfg).base + d.matARows * d.paddedMatACols cfg)
    (h : ∀ x, lo ≤ x → d.Zone cfg x →
      (d.regionA cfg).base + d.matARows * d.paddedMatACols cfg ≤ x) :
    Enters cfg d lo (s.toPadARow cfg d) := by
  have hR := L.properA
  have hsize : d.matARows * d.paddedMatACols cfg ≤ (d.regionA cfg).size := hR.rows_le_size
  have hend := L.endB_lt
  have hendA := L.endA
  unfold toPadARow
  split
  · rename_i hne
    have hidx : (cfg.baseAddressA + d.matARows * d.paddedMatACols cfg) % 2 ^ 32 =
        (d.regionA cfg).base + d.matARows * d.paddedMatACols cfg :=
      Nat.mod_eq_of_lt (show (d.regionA cfg).base + _ < 2 ^ 32 by omega)
    have hlt : d.matARows * d.paddedMatACols cfg < (d.regionA cfg).size :=
      Nat.mul_lt_mul_of_pos_right (Nat.lt_of_le_of_ne L.rowsA.le hne)
        (Nat.lt_of_lt_of_le L.colsA.pos L.colsA.le)
    refine enters_pad rfl rfl hidx hlo ⟨_, rfl, Nat.le_refl _, hlt⟩ fun x hx hlt' hz => ?_
    have := h x hx hz
    omega
  · rename_i heq
    have heq : d.matARows = d.paddedMatARows cfg := by simpa using heq
    have hsize' : (d.regionA cfg).size = d.matARows * d.paddedMatACols cfg := by
      rw [heq]
      rfl
    refine toPadBCol_enters L (by omega) fun x hx hz => ?_
    have hle := h x hx hz
    rcases hz with hz | hz
    · have := hz.lt
      omega
    · exact hz.1

theorem toPadACol_enters (L : Layout cfg d) : Enters cfg d 0 (s.toPadACol cfg d) := by
  have hR := L.properA
  have hend := L.endB_lt
  have hendA := L.endA
  have hsize := hR.rows_le_size
  unfold toPadACol
  split
  · rename_i hne
    have hcol := Region.colZone_first hR hne
    have hlt := hcol.1
    have hidx : (cfg.baseAddressA + d.matACols) % 2 ^ 32 =
        (d.regionA cfg).base + (d.regionA cfg).cols :=
      Nat.mod_eq_of_lt (show (d.regionA cfg).base + (d.regionA cfg).cols < 2 ^ 32 by omega)
    refine enters_pad rfl rfl hidx (Nat.zero_le _) ⟨_, rfl, hcol⟩ fun x _ hlt' hz => ?_
    rcases hz with hz | hz
    · exact Region.not_zone_before hR hlt' hz
    · exact L.not_zoneB (by omega) hz
  · rename_i heq
    have heq : (d.regionA cfg).cols = (d.regionA cfg).paddedCols := Decidable.not_not.mp heq
    refine toPadARow_enters L (Nat.zero_le _) fun x _ hz => ?_
    rcases hz with hz | hz
    · exact Region.zone_of_full_rows hR heq hz
    · have hb := hz.1
      have : d.matARows * d.paddedMatACols cfg ≤ (d.regionA cfg).size := hsize
      omega

section
variable {R : Region} {y : ℕ} {done : MatrixMultiplication}

/-- Up to the end of a region, only its own zone matters. -/
structure Owns (cfg : Configs) (d : Dims) (R : Region) : Prop where
  proper : R.Proper
  lt : R.base + R.size < 2 ^ 31
  zone : ∀ x, R.base ≤ x → x < R.base + R.size → d.Zone cfg x → R.Zone x

theorem padColNext_enters (h : Owns cfg d R) (hs : s.state = .pad)
    (hy : s.padIndex = R.base + y) (hcol : R.ColZone y)
    (place : ∀ z, R.ColZone z → d.Place cfg s.padState (R.base + z))
    (hdone : y + 1 = R.rows * R.paddedCols → Enters cfg d (R.base + y + 1) done) :
    Enters cfg d (R.base + y + 1) (s.padColNext R.base R.rows R.cols R.paddedCols done) := by
  have hlt := h.lt
  have hsize := h.proper.rows_le_size
  have hcol1 := hcol.1
  have hoff : (usub 32 s.padIndex R.base + 1) % 2 ^ 32 = y + 1 := by
    rw [hy, usub_add (by omega), Nat.mod_eq_of_lt (by omega)]
  simp only [padColNext, hoff]
  split
  · rename_i hend
    split
    · rename_i hlast
      exact hdone hlast
    · rename_i hlast
      obtain ⟨hnext, hfree⟩ := hcol.nextRow hend hlast
      have hlt' := hnext.1
      have hidx : (s.padIndex + R.cols + 1) % 2 ^ 32 = R.base + (y + 1 + R.cols) := by
        rw [hy, Nat.mod_eq_of_lt (by omega)]
        omega
      refine enters_pad hs rfl hidx (by omega) (place _ hnext) fun x hx hlt'' hz => ?_
      refine hfree (x - (R.base + y + 1)) (by omega) ?_
      rw [show R.base + (y + 1 + (x - (R.base + y + 1))) = x by omega]
      exact h.zone x (by omega) (by omega) hz
  · rename_i hend
    have hnext := hcol.succ hend
    have hidx : (s.padIndex + 1) % 2 ^ 32 = R.base + (y + 1) := by
      rw [hy, Nat.mod_eq_of_lt (by omega)]
      omega
    refine enters_pad hs rfl hidx (by omega) (place _ hnext) fun x hx hlt'' _ => ?_
    omega

theorem padRowNext_enters (h : Owns cfg d R) (hs : s.state = .pad)
    (hy : s.padIndex = R.base + y) (hrow : R.RowZone y)
    (place : ∀ z, R.RowZone z → d.Place cfg s.padState (R.base + z))
    (hdone : y + 1 = R.size → Enters cfg d (R.base + y + 1) done) :
    Enters cfg d (R.base + y + 1) (s.padRowNext R.base R.paddedRows R.paddedCols done) := by
  have hlt := h.lt
  obtain ⟨hge, hlt'⟩ := hrow
  have hoff : (usub 32 s.padIndex R.base + 1) % 2 ^ 32 = y + 1 := by
    rw [hy, usub_add (by omega), Nat.mod_eq_of_lt (by omega)]
  simp only [padRowNext, hoff]
  split
  · rename_i hlast
    exact hdone hlast
  · rename_i hlast
    have hlast : y + 1 ≠ R.size := hlast
    have hidx : (s.padIndex + 1) % 2 ^ 32 = R.base + (y + 1) := by
      rw [hy, Nat.mod_eq_of_lt (by omega)]
      omega
    have hrow' : R.RowZone (y + 1) := ⟨by omega, by omega⟩
    refine enters_pad hs rfl hidx (by omega) (place _ hrow') fun x hx hlt'' _ => ?_
    omega

end

theorem ownsA (L : Layout cfg d) : Owns cfg d (d.regionA cfg) where
  proper := L.properA
  lt := by
    have := L.endA
    have := L.endB_lt
    omega
  zone _ _ hlt hz := hz.resolve_right (L.not_zoneB hlt)

theorem ownsB (L : Layout cfg d) : Owns cfg d (d.regionB cfg) where
  proper := L.properB
  lt := L.endB_lt
  zone _ hx _ hz := hz.resolve_left (L.not_zoneA hx)

/-- After a byte, the padding goes on with the next one. -/
theorem padNext_enters (L : Layout cfg d) (hs : s.state = .pad)
    (hp : d.Place cfg s.padState s.padIndex) :
    Enters cfg d (s.padIndex + 1) (s.padNext cfg d) := by
  have hendA := L.endA
  cases hps : s.padState with
  | padACol =>
    rw [hps] at hp
    obtain ⟨y, hy, hcol⟩ := hp
    rw [hy]
    simp only [padNext, hps]
    refine padColNext_enters (ownsA L) hs hy hcol (fun z hz => hps ▸ ⟨z, rfl, hz⟩) ?_
    intro hlast
    refine toPadARow_enters L (Nat.le_of_eq (by rw [Nat.add_assoc, hlast]; rfl)) ?_
    intro x hx _
    rw [Nat.add_assoc, hlast] at hx
    exact hx
  | padARow =>
    rw [hps] at hp
    obtain ⟨y, hy, hrow⟩ := hp
    rw [hy]
    simp only [padNext, hps]
    refine padRowNext_enters (ownsA L) hs hy hrow (fun z hz => hps ▸ ⟨z, rfl, hz⟩) ?_
    intro hlast
    refine toPadBCol_enters L (by omega) ?_
    intro x hx hz
    rcases hz with hz | hz
    · have := hz.lt
      omega
    · exact hz.1
  | padBCol =>
    rw [hps] at hp
    obtain ⟨y, hy, hcol⟩ := hp
    rw [hy]
    simp only [padNext, hps]
    refine padColNext_enters (ownsB L) hs hy hcol (fun z hz => hps ▸ ⟨z, rfl, hz⟩) ?_
    intro hlast
    refine toPadBRow_enters L (Nat.le_of_eq (by rw [Nat.add_assoc, hlast]; rfl)) ?_
    intro x hx _
    rw [Nat.add_assoc, hlast] at hx
    exact hx
  | padBRow =>
    rw [hps] at hp
    obtain ⟨y, hy, hrow⟩ := hp
    rw [hy]
    simp only [padNext, hps]
    refine padRowNext_enters (ownsB L) hs hy hrow (fun z hz => hps ▸ ⟨z, rfl, hz⟩) ?_
    intro hlast
    refine .inr ⟨rfl, fun x hx hz => ?_⟩
    have := L.zone_lt hz
    omega

/-- A cycle of the accelerator while it computes: the dimensions do not change, and
nothing is written. -/
def Goes (cfg : Configs) (d : Dims) (s t : MatrixMultiplication) : Prop :=
  ∃ (io : Input) (undef : Undef), io.toDims = d ∧ io.writeEnable = false ∧ t = s.next cfg io undef

def Busy (s : MatrixMultiplication) : Prop := s.busy = true

end MatrixMultiplication

namespace Dims

variable (cfg : Configs) (d : Dims) (mem : ℕ → BitVec 8)

instance (R : Region) : DecidablePred R.Zone :=
  fun _ => inferInstanceAs (Decidable (_ ∧ _ ∧ (_ ∨ _)))

instance : DecidablePred (d.Zone cfg) := fun _ => inferInstanceAs (Decidable (_ ∨ _))

/-- The memory when the bytes below `cur` have been cleared. -/
def cleared (cur x : ℕ) : BitVec 8 := if d.Zone cfg x ∧ x < cur then 0 else mem x

/-- The memory when all have been. -/
def padded (x : ℕ) : BitVec 8 := if d.Zone cfg x then 0 else mem x

variable {cfg d mem}

theorem cleared_zero : d.cleared cfg mem 0 = mem := by
  funext x
  simp [cleared]

theorem update_cleared {cur : ℕ} (h : d.Zone cfg cur) :
    Function.update (d.cleared cfg mem cur) cur 0 = d.cleared cfg mem (cur + 1) := by
  funext x
  by_cases hx : x = cur
  · subst hx
    simp [cleared, h]
  · have : x < cur + 1 ↔ x < cur := by omega
    rw [Function.update_of_ne hx, cleared, cleared]
    simp [this]

theorem cleared_eq {lo cur : ℕ} (hlo : lo ≤ cur)
    (h : ∀ x, lo ≤ x → x < cur → ¬d.Zone cfg x) : d.cleared cfg mem lo = d.cleared cfg mem cur := by
  funext x
  have : d.Zone cfg x ∧ x < lo ↔ d.Zone cfg x ∧ x < cur := by
    constructor
    · exact fun hx => ⟨hx.1, by omega⟩
    · intro hx
      refine ⟨hx.1, ?_⟩
      by_contra hge
      exact h x (by omega) hx.2 hx.1
  simp [cleared, this]

theorem cleared_eq_padded {lo : ℕ} (h : ∀ x, lo ≤ x → ¬d.Zone cfg x) :
    d.cleared cfg mem lo = d.padded cfg mem := by
  funext x
  have : d.Zone cfg x ∧ x < lo ↔ d.Zone cfg x := by
    constructor
    · exact And.left
    · intro hx
      refine ⟨hx, ?_⟩
      by_contra hge
      exact h x (by omega) hx
  simp [cleared, padded, this]

end Dims

namespace MatrixMultiplication

variable {cfg : Configs} {d : Dims} {s : MatrixMultiplication} {mem : ℕ → BitVec 8}

theorem Rest.repads {t : MatrixMultiplication} {mem' : ℕ → BitVec 8} {core : Core}
    (h : s.Rest mem) (ht : Repads s t) (hc : core.At .ready (fun _ => 0#32) mem') :
    Rest mem' { t with core } := by
  obtain ⟨ps, pi, rfl | rfl⟩ := ht <;>
    exact ⟨h.currentBlockRow, h.currentBlockCol, h.index, h.waitCalculation, h.waitStore, hc⟩

/-- The padding of the bytes from `lo` on is still to be done. -/
def Unpadded (cfg : Configs) (d : Dims) (mem : ℕ → BitVec 8) (lo : ℕ)
    (s : MatrixMultiplication) : Prop :=
  Enters cfg d lo s ∧ s.Rest (d.cleared cfg mem lo)

/-- The operands are padded, and no block has been computed. -/
def Prepared (cfg : Configs) (d : Dims) (mem : ℕ → BitVec 8) (s : MatrixMultiplication) : Prop :=
  s.state = .busy ∧ s.Rest (d.padded cfg mem)

theorem Unpadded.next (L : Layout cfg d) {lo : ℕ} (h : Unpadded cfg d mem lo s)
    (hs : s.state = .pad) {t : MatrixMultiplication} (hg : Goes cfg d s t) :
    lo ≤ s.padIndex ∧ s.padIndex < cfg.memSize ∧ Unpadded cfg d mem (s.padIndex + 1) t := by
  obtain ⟨hE, hr⟩ := h
  obtain ⟨io, undef, rfl, hw, rfl⟩ := hg
  obtain ⟨-, hlo, hp, hfree⟩ | ⟨hb, -⟩ := hE
  · have hz := L.place_zone hp
    have hlt : s.padIndex < cfg.memSize := by
      have := L.zone_lt hz
      have := L.endB
      have := L.baseC_le
      omega
    have hat := hr.next_core cfg io undef
    have haddr : (s.coreInput cfg io).address = s.padIndex := by
      simp only [coreInput, hs, if_true]
      exact Nat.mod_eq_of_lt (Nat.lt_of_lt_of_le hlt cfg.memSize_le)
    have hmem : (s.core.next cfg (s.coreInput cfg io) undef).memory.mem =
        io.toDims.cleared cfg mem (s.padIndex + 1) := by
      rw [hr.core.next_mem_of_write cfg undef (.inl rfl) (by simp [coreInput, hs])
        (haddr ▸ hlt), haddr,
        Dims.cleared_eq hlo hfree, ← Dims.update_cleared hz]
      simp [coreInput, hs]
    rw [hmem, if_neg (by simp [hs])] at hat
    refine ⟨hlo, hlt, ?_, ?_⟩
    · have := padNext_enters L hs hp
      simpa [Enters, next_eq, fsm, hs] using this
    · rw [next_eq]
      simp only [fsm, hs]
      exact hr.repads (padNext_repads hs) hat
  · rw [hs] at hb
    cases hb

theorem Unpadded.prepared {lo : ℕ} (h : Unpadded cfg d mem lo s) (hs : s.state ≠ .pad) :
    Prepared cfg d mem s := by
  obtain ⟨⟨hp, -⟩ | ⟨hb, hfree⟩, hr⟩ := h
  · exact absurd hp hs
  · exact ⟨hb, Dims.cleared_eq_padded hfree ▸ hr⟩

theorem Unpadded.leads (L : Layout cfg d) {lo : ℕ} (h : Unpadded cfg d mem lo s) :
    Leads (Goes cfg d) Busy (Prepared cfg d mem) s := by
  by_cases hs : s.state = .pad
  · -- the address grows, and stays inside the memory
    refine Leads.variant (I := fun s => s.state = .pad ∧ ∃ lo, Unpadded cfg d mem lo s)
      (fun s => cfg.memSize - s.padIndex) ?_ ⟨hs, lo, h⟩
    rintro s ⟨hs, lo, h⟩
    refine .step (by simp [Busy, busy, hs]) fun t ht => ?_
    obtain ⟨-, hlt, hn⟩ := h.next L hs ht
    by_cases ht' : t.state = .pad
    · obtain ⟨⟨-, hlo, -⟩ | ⟨hb, -⟩, -⟩ := id hn
      · exact .inr ⟨⟨ht', _, hn⟩, by omega⟩
      · rw [ht'] at hb
        cases hb
    · exact .inl (hn.prepared ht')
  · exact .now (h.prepared hs)

/-- The start. -/
theorem Rest.next_start {io : Input} (undef : Undef) (L : Layout cfg d) (hs : s.state = .ready)
    (hr : s.Rest mem) (hd : io.toDims = d) (hst : io.start = true)
    (hw : io.writeEnable = false) : Unpadded cfg d mem 0 (s.next cfg io undef) := by
  subst hd
  have hat := hr.next_core cfg io undef
  have hmem : (s.core.next cfg (s.coreInput cfg io) undef).memory.mem = mem :=
    hr.core.next_mem_of_read cfg undef (.inl rfl) (by simp [coreInput, hs, hw])
  rw [if_neg (by simp [hs]), hmem] at hat
  have hE := toPadACol_enters (s := s) L
  constructor
  · simpa [Enters, next_eq, fsm, hs, hst] using hE
  · rw [Dims.cleared_zero, next_eq]
    simp only [fsm, hs, hst, if_true]
    exact hr.repads (toPadACol_repads cfg s io.toDims) hat

end MatrixMultiplication

end Course.Gemm
