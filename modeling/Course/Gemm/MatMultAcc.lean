import Course.Gemm.RoccShell

/-! `mat_mult_acc` on the accelerator of `Configs.scala`. The driver places the operands by
constants of its own, which lie in the region of A for the shell, so the words it reads
back are those of the memory before the call. -/

namespace Course.Gemm

open Finset RoccInterface

/-- The parameters that `Configs.scala` gives. -/
def hardware : Configs where
  two_le := by decide
  isPowerOfTwo := ⟨3, rfl⟩
  memSize_lt := by decide

def MAX_MATA_ROW : ℕ := 1

def MAX_MATA_COL : ℕ := 64

def MAX_MATB_ROW : ℕ := 64

def MAX_MATB_COL : ℕ := 10

def CORESIZE : ℕ := 4

def onChipLAddr : ℕ := 0

def onChipRAddr : ℕ := pad MAX_MATA_ROW CORESIZE * pad MAX_MATA_COL CORESIZE

def onChipResAddr : ℕ := onChipRAddr + pad MAX_MATB_ROW CORESIZE * pad MAX_MATB_COL CORESIZE

/-- `rs1 = (rs1 << 32) + lo` -/
def rs1 (high low : ℕ) : ℕ := (high % 2 ^ 32 * 2 ^ 32 + low % 2 ^ 32) % 2 ^ 64

/-- A call of `mat_mult_acc` from `s` to `s'`, with the `N * M` numbers that it leaves in
`result`. The operands are arrays of `int8_t`, the buffers of `long`. -/
def MatMultAcc (mat_l mat_r : ℕ → BitVec 8) (N K M : ℕ) (s s' : RoccInterface)
    (result : ℕ → BitVec 32) : Prop :=
  ∃ s₁ s₂ s₃ s₄ res_buffer,
    Info hardware (rs1 N K) M s s₁ ∧
    Load hardware (rs1 (N * K) onChipLAddr) (fun i => (mat_l i).signExtend 64) s₁ s₂ ∧
    Load hardware (rs1 (K * M) onChipRAddr) (fun i => (mat_r i).signExtend 64) s₂ s₃ ∧
    Compute hardware s₃ s₄ ∧
    Store hardware (rs1 (N * M) onChipResAddr) s₄ s' res_buffer ∧
    ∀ i < N * M, result i = (res_buffer i).setWidth 32

/-- The limits of the driver, which are within those of the hardware. -/
structure Limits (N K M : ℕ) : Prop where
  rows : 1 ≤ N ∧ N ≤ MAX_MATA_ROW
  inner : 1 ≤ K ∧ K ≤ MAX_MATA_COL
  cols : 1 ≤ M ∧ M ≤ MAX_MATB_COL

/-- `result` is the product of the matrices. -/
def IsProduct (mat_l mat_r : ℕ → BitVec 8) (N K M : ℕ) (result : ℕ → BitVec 32) : Prop :=
  ∀ i < N, ∀ j < M, (result (i * M + j)).toInt =
    ∑ k ∈ range K, (mat_l (i * K + k)).toInt * (mat_r (k * M + j)).toInt

/-- Where the shell and the decode look for the address of element `e` of the result,
which they take for an address of A. -/
def staleAddress (K e : ℕ) : ℕ :=
  onChipResAddr + e + (onChipResAddr + e) / K * (roundUp hardware.calcCoreSize K - K)

theorem layout_constants : hardware.baseAddressB = 6272 ∧ hardware.baseAddressC = 106624 ∧
    hardware.memSize = 110720 ∧ onChipRAddr = 256 ∧ onChipResAddr = 1024 := by
  decide

section
variable {N K M : ℕ} {mat_l mat_r : ℕ → BitVec 8} {s s' : RoccInterface} {mem : ℕ → BitVec 8}

theorem hi_rs1 {high low : ℕ} (h : high < 2 ^ 32) : hi (rs1 high low) = high := by
  rw [hi, rs1, Nat.mod_eq_of_lt h]
  omega

theorem lo_rs1 {high low : ℕ} (hh : high < 2 ^ 32) (hl : low < 2 ^ 32) :
    lo (rs1 high low) = low := by
  rw [lo, rs1, Nat.mod_eq_of_lt hh, Nat.mod_eq_of_lt hl]
  omega

theorem reqLen_rs1 {len low : ℕ} (h : len < 2 ^ 16) : reqLen hardware (rs1 len low) = len := by
  have hm := layout_constants.2.2.1
  have hw := hardware.memSize_le
  have hlt : len < 2 ^ hardware.addrWidth := by omega
  rw [reqLen, hi_rs1 (by omega), Nat.mod_eq_of_lt hlt, Nat.mod_eq_of_lt h]

theorem reqAddr_rs1 {len low i : ℕ} (h : len < 2 ^ 16) (hi : low + i < 2 ^ 16) :
    reqAddr hardware (rs1 len low) i = low + i := by
  have hm := layout_constants.2.2.1
  have hw := hardware.memSize_le
  rw [reqAddr, lo_rs1 (by omega) (by omega), Nat.mod_eq_of_lt (show low < _ by omega),
    Nat.mod_eq_of_lt (by omega)]

theorem roundUp_bounds {n : ℕ} : n ≤ roundUp hardware.calcCoreSize n ∧
    roundUp hardware.calcCoreSize n < n + 8 ∧ roundUp hardware.calcCoreSize n % 8 = 0 := by
  have h : roundUp hardware.calcCoreSize n = (n + 8 - 1) / 8 * 8 := rfl
  omega

theorem padded_eq {n : ℕ} (h : n ≤ 64) :
    pad n hardware.calcCoreSize = roundUp hardware.calcCoreSize n := by
  refine pad_eq_roundUp hardware.isPowerOfTwo ?_
  have : hardware.calcCoreSize = 8 := rfl
  omega

theorem Limits.fits (h : Limits N K M) : (Dims.mk N K K M).Fits hardware := by
  obtain ⟨⟨hN, hN'⟩, ⟨hK, hK'⟩, ⟨hM, hM'⟩⟩ := h
  have r : roundUp hardware.calcCoreSize N ≤ 8 := by
    have := roundUp_bounds (n := N)
    simp only [MAX_MATA_ROW] at hN'
    omega
  have k : roundUp hardware.calcCoreSize K ≤ 64 := by
    have := roundUp_bounds (n := K)
    simp only [MAX_MATA_COL] at hK'
    omega
  have m : roundUp hardware.calcCoreSize M ≤ 16 := by
    have := roundUp_bounds (n := M)
    simp only [MAX_MATB_COL] at hM'
    omega
  refine ⟨hN, hK, hM, rfl, ?_, ?_, ?_⟩
  · exact Nat.le_trans (Nat.mul_le_mul r k) (by decide)
  · exact Nat.le_trans (Nat.mul_le_mul k m) (by decide)
  · exact Nat.le_trans (Nat.mul_le_mul r m) (by decide)

/-- An address below the region of B is decoded as one of A. -/
theorem chipAddress_low {d : Dims} {a : ℕ} (hK : d.matACols ≤ 64) (ha : a < 6272)
    (hlt : a + a / d.matACols * (roundUp hardware.calcCoreSize d.matACols - d.matACols) < 110720) :
    chipAddress hardware d a =
      a + a / d.matACols * (roundUp hardware.calcCoreSize d.matACols - d.matACols) := by
  obtain ⟨hB, -, hm, -⟩ := layout_constants
  have hw := hardware.memSize_le
  have hr := roundUp_bounds (n := d.matACols)
  obtain ⟨e, he⟩ := Nat.exists_eq_add_of_le hr.1
  have hsel : a < hardware.baseAddressB := by omega
  have hbase : hardware.baseAddressA = 0 := rfl
  have husub : usub hardware.addrWidth a 0 = a := by
    have := usub_add (w := hardware.addrWidth) (x := 0) (y := a) (by omega)
    rwa [Nat.zero_add] at this
  have hpad : usub 32 (d.paddedMatACols hardware) d.matACols =
      roundUp hardware.calcCoreSize d.matACols - d.matACols := by
    rw [Dims.paddedMatACols, padded_eq hK, he, usub_add (by omega), Nat.add_sub_cancel_left]
  simp only [chipAddress, decodedAddress, gemmInput, Option.map_some, Option.getD_some, hsel,
    if_true, hbase, husub, hpad]
  exact Nat.mod_eq_of_lt (by omega)

/-- The bytes that are read back: no operand and no padding reaches them. -/
theorem staleAddress_bounds {e : ℕ} (hK : 1 ≤ K) (hK' : K ≤ 64) (he : e < 10) :
    1024 + e ≤ staleAddress K e ∧
      (staleAddress K e + 3 < 6272 ∨
        K = 1 ∧ 8192 ≤ staleAddress K e ∧ staleAddress K e < 8272) := by
  have hres := layout_constants.2.2.2.2
  have hr := roundUp_bounds (n := K)
  rw [staleAddress, hres]
  refine ⟨Nat.le_add_right _ _, ?_⟩
  rcases Nat.lt_or_ge 1 K with h2 | h1
  · refine .inl ?_
    have hq2 : (1024 + e) / K ≤ (1024 + e) / 2 := Nat.div_le_div_left h2 (by decide)
    have hq : (1024 + e) / K ≤ 516 := by omega
    have hp : (1024 + e) / K * (roundUp hardware.calcCoreSize K - K) ≤ 516 * 7 :=
      Nat.mul_le_mul hq (by omega)
    omega
  · obtain rfl : K = 1 := by omega
    refine .inr ⟨rfl, ?_⟩
    have h8 : roundUp hardware.calcCoreSize 1 = 8 := rfl
    rw [h8, Nat.div_one]
    omega

theorem staleAddress_lt {e : ℕ} (hK : 1 ≤ K) (hK' : K ≤ 64) (he : e < 10) :
    staleAddress K e + 3 < 8275 := by
  rcases (staleAddress_bounds hK hK' he).2 with h | ⟨-, -, h⟩ <;> omega

/-- The elements of L keep their places. -/
theorem chipAddress_L {d : Dims} {i : ℕ} (hK : d.matACols ≤ 64) (hi : i < d.matACols) :
    chipAddress hardware d (reqAddr hardware (rs1 (1 * d.matACols) onChipLAddr) i) = i := by
  rw [reqAddr_rs1 (by omega) (by simp only [onChipLAddr]; omega), onChipLAddr, Nat.zero_add]
  have h0 : i / d.matACols = 0 := Nat.div_eq_of_lt hi
  rw [chipAddress_low hK (by omega) (by rw [h0]; omega), h0, Nat.zero_mul, Nat.add_zero]

/-- Those of R are spread like rows of L, below the result. -/
theorem chipAddress_R {d : Dims} {i : ℕ} (hK : d.matACols ≤ 64) (hlen : d.matACols * M < 2 ^ 16)
    (hi : i < 640) :
    chipAddress hardware d (reqAddr hardware (rs1 (d.matACols * M) onChipRAddr) i) < 110720 ∧
    ∀ e, chipAddress hardware d (reqAddr hardware (rs1 (d.matACols * M) onChipRAddr) i) <
      staleAddress d.matACols e := by
  obtain ⟨-, -, -, hR, hRes⟩ := layout_constants
  have hr := roundUp_bounds (n := d.matACols)
  have hp : (256 + i) / d.matACols * (roundUp hardware.calcCoreSize d.matACols - d.matACols) ≤
      895 * 7 := by
    have hq := Nat.div_le_self (256 + i) d.matACols
    exact Nat.mul_le_mul (by omega) (by omega)
  rw [hR, reqAddr_rs1 hlen (by omega), chipAddress_low hK (by omega) (by omega)]
  refine ⟨by omega, fun e => ?_⟩
  rw [staleAddress, hRes]
  have hq : (256 + i) / d.matACols ≤ (1024 + e) / d.matACols := Nat.div_le_div_right (by omega)
  have := Nat.mul_le_mul_right (roundUp hardware.calcCoreSize d.matACols - d.matACols) hq
  omega

theorem chipAddress_res {d : Dims} {e : ℕ} (hK : 1 ≤ d.matACols) (hK' : d.matACols ≤ 64)
    (hM : M < 2 ^ 16) (he : e < 10) :
    chipAddress hardware d (reqAddr hardware (rs1 (1 * M) onChipResAddr) e) =
      staleAddress d.matACols e := by
  have hlt := staleAddress_lt hK hK' he
  rw [staleAddress, layout_constants.2.2.2.2] at *
  rw [reqAddr_rs1 (by omega) (by omega)]
  exact chipAddress_low hK' (by omega) (by omega)

/-- The padding stays clear of the result. -/
theorem not_zone_stale {x e : ℕ} (h : Limits 1 K M) (he : e < 10) (hx : staleAddress K e ≤ x)
    (hx' : x < staleAddress K e + 4) : ¬(Dims.mk 1 K K M).Zone hardware x := by
  obtain ⟨-, ⟨hK, hK'⟩, ⟨hM, hM'⟩⟩ := h
  simp only [MAX_MATA_COL, MAX_MATB_COL] at hK' hM'
  have hb := staleAddress_bounds hK hK' he
  have hk := roundUp_bounds (n := K)
  have hm := roundUp_bounds (n := M)
  rintro (hz | hz)
  · have hlt := hz.lt
    have hsize : Region.size (Dims.regionA hardware ⟨1, K, K, M⟩) ≤ 8 * 64 := by
      refine Nat.mul_le_mul (show pad 1 8 ≤ 8 by decide) ?_
      show pad K _ ≤ 64
      rw [padded_eq hK']
      omega
    have hbase : Region.base (Dims.regionA hardware ⟨1, K, K, M⟩) = 0 := rfl
    omega
  · have hlt := hz.lt
    have hge := hz.1
    have hbase : Region.base (Dims.regionB hardware ⟨1, K, K, M⟩) = 6272 := layout_constants.1
    rcases hb.2 with hlow | ⟨rfl, hhigh⟩
    · omega
    · have hsize : Region.size (Dims.regionB hardware ⟨1, 1, 1, M⟩) ≤ 8 * 16 := by
        refine Nat.mul_le_mul (show pad 1 8 ≤ 8 by decide) ?_
        show pad M _ ≤ 16
        rw [padded_eq (by omega)]
        omega
      omega

/-- The loads leave the bytes alone that are read back. -/
theorem RoccInterface.Load.frame_L (h : Limits 1 K M) (hd : s.matDims = ⟨1, K, K, M⟩)
    (hs : s.gemm.Idle mem) {buffer : ℕ → BitVec 64}
    (hl : Load hardware (rs1 (1 * K) onChipLAddr) buffer s s') :
    s'.matDims = ⟨1, K, K, M⟩ ∧ ∃ mem', s'.gemm.Idle mem' ∧
      ∀ e < 10, ∀ x, staleAddress K e ≤ x → mem' x = mem x := by
  obtain ⟨-, ⟨hK, hK'⟩, -⟩ := h
  have hsize := layout_constants.2.2.1
  simp only [MAX_MATA_COL] at hK'
  have chip : ∀ i < reqLen hardware (rs1 (1 * K) onChipLAddr), i < K ∧
      chipAddress hardware s.matDims (reqAddr hardware (rs1 (1 * K) onChipLAddr) i) = i := by
    intro i hi
    rw [reqLen_rs1 (by omega), Nat.one_mul] at hi
    rw [hd]
    exact ⟨hi, chipAddress_L (d := ⟨1, K, K, M⟩) hK' hi⟩
  obtain ⟨hd', mem', hidle, hx⟩ := hl.idle hs fun i hi => by
    rw [(chip i hi).2]
    have := (chip i hi).1
    omega
  refine ⟨hd'.trans hd, mem', hidle, fun e he x hle => hx x fun i hi => ?_⟩
  rw [(chip i hi).2]
  have := (chip i hi).1
  have := (staleAddress_bounds hK hK' he).1
  omega

theorem RoccInterface.Load.frame_R (h : Limits 1 K M) (hd : s.matDims = ⟨1, K, K, M⟩)
    (hs : s.gemm.Idle mem) {buffer : ℕ → BitVec 64}
    (hl : Load hardware (rs1 (K * M) onChipRAddr) buffer s s') :
    s'.matDims = ⟨1, K, K, M⟩ ∧ ∃ mem', s'.gemm.Idle mem' ∧
      ∀ e < 10, ∀ x, staleAddress K e ≤ x → mem' x = mem x := by
  obtain ⟨-, ⟨hK, hK'⟩, ⟨hM, hM'⟩⟩ := h
  have hsize := layout_constants.2.2.1
  simp only [MAX_MATA_COL, MAX_MATB_COL] at hK' hM'
  have hKM : K * M ≤ 64 * 10 := Nat.mul_le_mul hK' hM'
  have chip : ∀ i < reqLen hardware (rs1 (K * M) onChipRAddr),
      chipAddress hardware s.matDims (reqAddr hardware (rs1 (K * M) onChipRAddr) i) < 110720 ∧
      ∀ e, chipAddress hardware s.matDims (reqAddr hardware (rs1 (K * M) onChipRAddr) i) <
        staleAddress K e := by
    intro i hi
    rw [reqLen_rs1 (by omega)] at hi
    rw [hd]
    exact chipAddress_R (d := ⟨1, K, K, M⟩) hK' (show K * M < 2 ^ 16 by omega) (by omega)
  obtain ⟨hd', mem', hidle, hx⟩ := hl.idle hs fun i hi => hsize ▸ (chip i hi).1
  refine ⟨hd'.trans hd, mem', hidle, fun e he x hle => hx x fun i hi => ?_⟩
  have := (chip i hi).2 e
  omega

theorem dims_rs1 (h : Limits 1 K M) :
    Dims.mk (hi (rs1 1 K)) (lo (rs1 1 K)) (lo (rs1 1 K)) (M % 2 ^ 32) = ⟨1, K, K, M⟩ := by
  obtain ⟨-, ⟨-, hK⟩, ⟨-, hM⟩⟩ := h
  simp only [MAX_MATA_COL, MAX_MATB_COL] at hK hM
  rw [hi_rs1 (by decide), lo_rs1 (by decide) (by omega), Nat.mod_eq_of_lt (by omega)]

/-- What a call reads back was in the memory before it. -/
theorem MatMultAcc.stale (h : Limits N K M) (hs : s.gemm.Idle mem) {result : ℕ → BitVec 32}
    (hm : MatMultAcc mat_l mat_r N K M s s' result) :
    ∀ e < N * M, result e = wordAt mem (staleAddress K e) := by
  obtain rfl : N = 1 := Nat.le_antisymm h.rows.2 h.rows.1
  have L := h.fits.layout
  obtain ⟨-, ⟨hK, hK'⟩, ⟨hM, hM'⟩⟩ := id h
  obtain ⟨hB, hC, hsize, -⟩ := layout_constants
  simp only [MAX_MATA_COL, MAX_MATB_COL] at hK' hM'
  obtain ⟨s₁, s₂, s₃, s₄, buffer, ⟨undefs, hi⟩, hl, hr, hc, hst, hres⟩ := hm
  have d₁ : s₁.matDims = ⟨1, K, K, M⟩ := by
    rw [hi]
    exact dims_rs1 h
  have idle₁ : s₁.gemm.Idle mem := by
    rw [hi]
    refine access_reads _ hs fun r hr q hq => ?_
    obtain ⟨u, -, rfl⟩ := List.mem_map.mp hr
    cases hq
  obtain ⟨d₂, mem₂, idle₂, frame₂⟩ := hl.frame_L h d₁ idle₁
  obtain ⟨d₃, mem₃, idle₃, frame₃⟩ := hr.frame_R h d₂ idle₂
  obtain ⟨d₄, mem₄, idle₄, frame₄⟩ := hc.idle (d₃ ▸ L) idle₃
  rw [d₃] at d₄
  intro e he
  have he10 : e < 10 := by omega
  have hlt := staleAddress_lt hK hK' he10
  have hchip : chipAddress hardware s₄.matDims (reqAddr hardware (rs1 (1 * M) onChipResAddr) e) =
      staleAddress K e := by
    rw [d₄]
    exact chipAddress_res hK hK' (by omega) he10
  have hword := hst.words idle₄ (i := e) (by rw [reqLen_rs1 (by omega)]; exact he) (by
    rw [hchip]
    omega)
  have byte : ∀ x, staleAddress K e ≤ x → x < staleAddress K e + 4 → mem₄ x = mem x := by
    intro x hx hx'
    rw [frame₄ x (by omega) (d₃ ▸ not_zone_stale h he10 hx hx'), frame₃ e he10 x hx,
      frame₂ e he10 x hx]
  rw [hres e he, hword, hchip, BitVec.setWidth_setWidth_of_le _ (by decide), BitVec.setWidth_eq]
  rw [wordAt, wordAt, byte _ (by omega) (by omega), byte _ (by omega) (by omega),
    byte _ (by omega) (by omega), byte _ (by omega) (by omega)]

/-- The driver gets to its end. -/
theorem exists_matMultAcc (h : Limits N K M) (hs : s.gemm.Idle mem) (mat_l mat_r : ℕ → BitVec 8) :
    ∃ s' result, MatMultAcc mat_l mat_r N K M s s' result := by
  obtain rfl : N = 1 := Nat.le_antisymm h.rows.2 h.rows.1
  have L := h.fits.layout
  let s₁ : RoccInterface := { s with matDims := ⟨1, K, K, M⟩ }
  have info : Info hardware (rs1 1 K) M s s₁ := ⟨[], by rw [dims_rs1 h]; rfl⟩
  obtain ⟨s₂, hl⟩ := exists_load hardware s₁ (rs1 (1 * K) onChipLAddr)
    fun i => (mat_l i).signExtend 64
  obtain ⟨d₂, mem₂, idle₂, -⟩ := hl.frame_L h rfl (show s₁.gemm.Idle mem from hs)
  obtain ⟨s₃, hr⟩ := exists_load hardware s₂ (rs1 (K * M) onChipRAddr)
    fun i => (mat_r i).signExtend 64
  obtain ⟨d₃, mem₃, idle₃, -⟩ := hr.frame_R h d₂ idle₂
  obtain ⟨s₄, hc⟩ := exists_compute (d₃ ▸ L) idle₃
  obtain ⟨s₅, buffer, hst⟩ := exists_store hardware s₄ (rs1 (1 * M) onChipResAddr)
  exact ⟨s₅, fun i => (buffer i).setWidth 32, s₁, s₂, s₃, s₄, buffer, info, hl, hr, hc, hst,
    fun _ _ => rfl⟩

theorem isProduct_congr {result result' : ℕ → BitVec 32}
    (h : ∀ e < N * M, result e = result' e) :
    IsProduct mat_l mat_r N K M result ↔ IsProduct mat_l mat_r N K M result' := by
  have at_index : ∀ i < N, ∀ j < M, result (i * M + j) = result' (i * M + j) :=
    fun i hi j hj => h _ (Lib.index_lt hi hj)
  constructor <;> intro hp i hi j hj
  · rw [← at_index i hi j hj]
    exact hp i hi j hj
  · rw [at_index i hi j hj]
    exact hp i hi j hj

/-- A call comes to an end, and leaves the product only where the memory held it already. -/
theorem mat_mult_acc_iff (N K M : ℕ) (h : Limits N K M) (mat_l mat_r : ℕ → BitVec 8)
    (s : RoccInterface) (hs : MatrixMultiplication.Reachable hardware s.gemm)
    (hb : s.gemm.busy = false) :
    (∃ s' result, MatMultAcc mat_l mat_r N K M s s' result) ∧
    ∀ s' result, MatMultAcc mat_l mat_r N K M s s' result →
      (IsProduct mat_l mat_r N K M result ↔
        IsProduct mat_l mat_r N K M
          fun e => wordAt s.gemm.core.memory.mem (staleAddress K e)) :=
  ⟨exists_matMultAcc h (hs.rest hb) mat_l mat_r,
    fun _ _ hm => isProduct_congr (hm.stale h (hs.rest hb))⟩

end

def afterReset : RoccInterface where
  matDims := ⟨0, 0, 0, 0⟩
  gemm := { core := { memory := ⟨fun _ => 0#8, fun _ _ => 0#8⟩ } }

theorem limits_one : Limits 1 1 1 := ⟨by decide, by decide, by decide⟩

theorem wordAt_zero (a : ℕ) : wordAt (fun _ => 0#8) a = 0#32 := by
  simp only [wordAt]
  decide

/-- The words that the driver will read are 15 and 21. -/
def holding : RoccInterface where
  matDims := ⟨0, 0, 0, 0⟩
  gemm := { core := { memory :=
    ⟨fun x => if x = 8192 then 15#8 else if x = 8200 then 21#8 else 0#8, fun _ _ => 0#8⟩ } }

/-- The memory holds the products of 3 and of 5 and 7. -/
theorem mat_mult_acc_iff_holding : ∃ s' result,
    MatMultAcc (fun _ => 3) (fun i => if i = 0 then 5 else 7) 1 1 2 holding s' result ∧
      IsProduct (fun _ => 3) (fun i => if i = 0 then 5 else 7) 1 1 2 result ∧
      (result 0).toInt = 15 ∧ (result 1).toInt = 21 := by
  obtain ⟨⟨s', result, h⟩, hiff⟩ := mat_mult_acc_iff 1 1 2 ⟨by decide, by decide, by decide⟩
    (fun _ => 3) (fun i => if i = 0 then 5 else 7) holding (.reset _) rfl
  have hproduct : IsProduct (fun _ => 3) (fun i => if i = 0 then 5 else 7) 1 1 2 result := by
    refine (hiff s' result h).mpr fun i hi j hj => ?_
    obtain rfl := Nat.lt_one_iff.mp hi
    rcases Nat.lt_succ_iff_lt_or_eq.mp hj with hj | rfl
    · obtain rfl := Nat.lt_one_iff.mp hj
      decide
    · decide
  exact ⟨s', result, h, hproduct, (hproduct 0 (by decide) 0 (by decide)).trans (by decide),
    (hproduct 0 (by decide) 1 (by decide)).trans (by decide)⟩

/-- The product of 1 and 1, over memory of zeros. -/
theorem not_mat_mult_acc : ¬∀ N K M, Limits N K M → ∀ (mat_l mat_r : ℕ → BitVec 8)
    (s : RoccInterface), MatrixMultiplication.Reachable hardware s.gemm → s.gemm.busy = false →
    ∀ s' result, MatMultAcc mat_l mat_r N K M s s' result →
      IsProduct mat_l mat_r N K M result := by
  intro h
  have reset : MatrixMultiplication.Reachable hardware afterReset.gemm := .reset _
  have idle : afterReset.gemm.Idle fun _ => 0#8 := reset.rest rfl
  obtain ⟨s', result, hm⟩ := exists_matMultAcc limits_one idle (fun _ => 1) (fun _ => 1)
  have hp := h 1 1 1 limits_one _ _ afterReset reset rfl s' result hm 0 (by decide) 0 (by decide)
  rw [hm.stale limits_one idle 0 (by decide), wordAt_zero] at hp
  revert hp
  decide

end Course.Gemm
