import Course.Gemm.Blocks

/-! A product as a user of the accelerator sees it: write the operands, start, wait, and
read the result, all through the address decode. -/

namespace Course.Gemm

open Course.Lib Finset

namespace Layout

variable {cfg : Configs} {d : Dims} {i j k : ℕ}

/-- What the decode makes of the address of an element. -/
theorem decode_sum (base : ℕ) {cols padded : ℕ} (h : cols ≤ padded) (hj : j < cols) :
    base + (i * cols + j) + (i * cols + j) / cols * (padded - cols) =
      base + (i * padded + j) := by
  obtain ⟨e, rfl⟩ := Nat.exists_eq_add_of_le h
  rw [(index_div_mod hj).1, Nat.add_sub_cancel_left, Nat.mul_add]
  omega

theorem ltA (L : Layout cfg d) (hi : i < d.paddedMatARows cfg) (hk : k < d.paddedMatACols cfg) :
    cfg.baseAddressA + (i * d.paddedMatACols cfg + k) < cfg.baseAddressB := by
  have := index_lt hi hk
  have := L.regionA
  have hbase : cfg.baseAddressA = 0 := rfl
  omega

theorem ltB (L : Layout cfg d) (hk : k < d.paddedMatBRows cfg) (hj : j < d.paddedMatBCols cfg) :
    cfg.baseAddressB + (k * d.paddedMatBCols cfg + j) < cfg.baseAddressC := by
  have := index_lt hk hj
  have := L.regionB
  omega

theorem ltC (L : Layout cfg d) (hi : i < d.paddedMatARows cfg) (hj : j < d.paddedMatBCols cfg) :
    cfg.baseAddressC + 4 * (i * d.paddedMatBCols cfg + j) + 3 < cfg.memSize := by
  have := index_lt hi hj
  have := L.regionC
  omega

theorem baseB_le (L : Layout cfg d) : cfg.baseAddressB ≤ cfg.baseAddressC :=
  Nat.le_trans (Nat.le_add_right _ _) L.regionB

theorem usub_padded {cols padded : ℕ} (h : cols ≤ padded)
    (hp : padded ≤ cfg.memSize) : usub 32 padded cols = padded - cols := by
  have hm := cfg.memSize_lt
  obtain ⟨e, rfl⟩ := Nat.exists_eq_add_of_le h
  rw [usub_add (by omega), Nat.add_sub_cancel_left]

theorem cols_le (L : Layout cfg d) : d.paddedMatACols cfg ≤ cfg.memSize ∧
    d.paddedMatBCols cfg ≤ cfg.memSize := by
  have hA := L.regionA
  have hB := L.regionB
  have hC := L.baseC_le
  have hc := Nat.le_mul_of_pos_left (d.paddedMatACols cfg)
    (Nat.lt_of_lt_of_le L.rowsA.pos L.rowsA.le)
  have hn := Nat.le_mul_of_pos_left (d.paddedMatBCols cfg)
    (Nat.lt_of_lt_of_le L.rowsB.pos L.rowsB.le)
  omega

theorem decodeA {io : Input} (L : Layout cfg io.toDims) (hi : i < io.paddedMatARows cfg)
    (hk : k < io.matACols) (hs : io.select = cfg.selectA)
    (ha : io.address = cfg.baseAddressA + (i * io.matACols + k)) :
    decodedAddress cfg io = cfg.baseAddressA + (i * io.paddedMatACols cfg + k) := by
  have hle := L.colsA.le
  have hlt := L.ltA hi (Nat.lt_of_lt_of_le hk hle)
  have hB := L.baseB_le
  have hC := L.baseC_le
  have hw := cfg.memSize_le
  have hik := Nat.mul_le_mul_left i hle
  simp only [decodedAddress, hs, if_true, ha]
  rw [usub_add (by omega), usub_padded hle L.cols_le.1, decode_sum _ hle hk]
  exact Nat.mod_eq_of_lt (by omega)

theorem decodeB {io : Input} (L : Layout cfg io.toDims) (hk : k < io.paddedMatBRows cfg)
    (hj : j < io.matBCols) (hs : io.select = cfg.selectB)
    (ha : io.address = cfg.baseAddressB + (k * io.matBCols + j)) :
    decodedAddress cfg io = cfg.baseAddressB + (k * io.paddedMatBCols cfg + j) := by
  have hle := L.colsB.le
  have hlt := L.ltB hk (Nat.lt_of_lt_of_le hj hle)
  have hC := L.baseC_le
  have hw := cfg.memSize_le
  have hik := Nat.mul_le_mul_left k hle
  have hne : ¬cfg.selectB = cfg.selectA := nofun
  simp only [decodedAddress, hs, if_neg hne, if_true, ha]
  rw [usub_add (by omega), usub_padded hle L.cols_le.2, decode_sum _ hle hj]
  exact Nat.mod_eq_of_lt (by omega)

theorem decodeC {io : Input} (L : Layout cfg io.toDims) (hi : i < io.paddedMatARows cfg)
    (hj : j < io.matBCols) (hs : io.select = cfg.selectC)
    (ha : io.address = cfg.baseAddressC + (i * io.matBCols + j)) :
    decodedAddress cfg io = cfg.baseAddressC + 4 * (i * io.paddedMatBCols cfg + j) := by
  have hle := L.colsB.le
  have hlt := L.ltC hi (Nat.lt_of_lt_of_le hj hle)
  have hw := cfg.memSize_le
  have hik := Nat.mul_le_mul_left i hle
  have hneA : ¬cfg.selectC = cfg.selectA := nofun
  have hneB : ¬cfg.selectC = cfg.selectB := nofun
  have hsum := decode_sum (i := i) 0 hle hj
  simp only [decodedAddress, hs, if_neg hneA, if_neg hneB, ha]
  rw [usub_add (by omega), usub_padded hle L.cols_le.2]
  have heq : cfg.baseAddressC + (i * io.matBCols + j) * 4 +
      (i * io.matBCols + j) / io.matBCols * (io.paddedMatBCols cfg - io.matBCols) * 4 =
        cfg.baseAddressC + 4 * (i * io.paddedMatBCols cfg + j) := by omega
  rw [heq]
  exact Nat.mod_eq_of_lt (by omega)

end Layout

namespace MatrixMultiplication

variable {cfg : Configs} {d : Dims} {s : MatrixMultiplication} {mem : ℕ → BitVec 8}

/-- Some cycles, each with what the memory leaves undefined in it. -/
def run (cfg : Configs) (s : MatrixMultiplication) (ios : List (Input × Undef)) :
    MatrixMultiplication :=
  ios.foldl (fun s io => s.next cfg io.1 io.2) s

/-- The first `n` cycles of an unending sequence. -/
def cycles (cfg : Configs) (s : MatrixMultiplication) (ios : ℕ → Input × Undef) :
    ℕ → MatrixMultiplication
  | 0 => s
  | n + 1 => (cycles cfg s ios n).next cfg (ios n).1 (ios n).2

/-- The accelerator is not busy. -/
def Idle (mem : ℕ → BitVec 8) (s : MatrixMultiplication) : Prop := s.state = .ready ∧ s.Rest mem

theorem Idle.coreInput (cfg : Configs) (io : Input) (h : s.Idle mem) :
    (s.coreInput cfg io).address = decodedAddress cfg io ∧ (s.coreInput cfg io).dataIn = io.dataIn ∧
      (s.coreInput cfg io).writeEnable = io.writeEnable := by
  simp [MatrixMultiplication.coreInput, h.1]

/-- A cycle without a start: a write, or nothing. -/
theorem Idle.next {io : Input} (cfg : Configs) (undef : Undef) (h : s.Idle mem)
    (hst : io.start = false) :
    (s.next cfg io undef).Idle (s.next cfg io undef).core.memory.mem := by
  obtain ⟨hs, hr⟩ := h
  have hat := hr.next_core cfg io undef
  rw [if_neg (by simp [hs])] at hat
  have hfsm : s.fsm cfg io = s := by simp [fsm, hs, hst]
  rw [next_eq, hfsm]
  exact ⟨hs, hr.currentBlockRow, hr.currentBlockCol, hr.index, hr.waitCalculation, hr.waitStore,
    hat⟩

theorem Idle.next_read {io : Input} (cfg : Configs) (undef : Undef) (h : s.Idle mem)
    (hst : io.start = false) (hw : io.writeEnable = false) : (s.next cfg io undef).Idle mem := by
  have hn := h.next cfg undef hst
  have hm := h.2.core.next_mem_of_read cfg undef (.inl rfl) ((h.coreInput cfg io).2.2.trans hw)
  rw [show (s.next cfg io undef).core.memory.mem = mem from hm] at hn
  exact hn

theorem Idle.next_write {io : Input} (undef : Undef) (h : s.Idle mem)
    (hst : io.start = false) (hw : io.writeEnable = true)
    (ha : decodedAddress cfg io < cfg.memSize) :
    (s.next cfg io undef).Idle (Function.update mem (decodedAddress cfg io) io.dataIn) := by
  obtain ⟨haddr, hdata, hwrite⟩ := h.coreInput cfg io
  have hn := h.next cfg undef hst
  have hm := h.2.core.next_mem_of_write cfg undef (.inl rfl) (hwrite.trans hw) (haddr ▸ ha)
  rw [haddr, hdata] at hm
  rw [show (s.next cfg io undef).core.memory.mem = _ from hm] at hn
  exact hn

/-- Cycles without a start, whose writes are in the memory. -/
def Quiet (cfg : Configs) (ios : List (Input × Undef)) : Prop :=
  ∀ io ∈ ios, io.1.start = false ∧
    (io.1.writeEnable = true → decodedAddress cfg io.1 < cfg.memSize)

/-- A byte holds what every write to it has written. -/
theorem Idle.run_memory {ios : List (Input × Undef)} (h : s.Idle mem) (hq : Quiet cfg ios) :
    ∃ mem', (run cfg s ios).Idle mem' ∧ ∀ x v,
      (∀ io ∈ ios, io.1.writeEnable = true → decodedAddress cfg io.1 = x → io.1.dataIn = v) →
      ((∃ io ∈ ios, io.1.writeEnable = true ∧ decodedAddress cfg io.1 = x) ∨ mem x = v) →
      mem' x = v := by
  induction ios generalizing s mem with
  | nil => exact ⟨mem, h, fun x v _ hx => hx.resolve_left (by simp)⟩
  | cons io ios ih =>
    obtain ⟨hio, htl⟩ := List.forall_mem_cons.mp hq
    by_cases hw : io.1.writeEnable = true
    · obtain ⟨mem', hr, hx⟩ := ih (h.next_write io.2 hio.1 hw (hio.2 hw)) htl
      refine ⟨mem', hr, fun x v hall hone => hx x v (fun io' hm => hall io' (.tail _ hm)) ?_⟩
      by_cases hax : decodedAddress cfg io.1 = x
      · refine .inr ?_
        rw [← hall io (.head _) hw hax, ← hax, Function.update_self]
      · rw [Function.update_of_ne (Ne.symm hax)]
        rcases hone with ⟨io', hm, hw', hax'⟩ | hone
        · rcases List.mem_cons.mp hm with rfl | hm
          · exact absurd hax' hax
          · exact .inl ⟨io', hm, hw', hax'⟩
        · exact .inr hone
    · obtain ⟨mem', hr, hx⟩ := ih (h.next_read cfg io.2 hio.1 (by simpa using hw)) htl
      refine ⟨mem', hr, fun x v hall hone => hx x v (fun io' hm => hall io' (.tail _ hm)) ?_⟩
      rcases hone with ⟨io', hm, hw', hax'⟩ | hone
      · rcases List.mem_cons.mp hm with rfl | hm
        · exact absurd hw' hw
        · exact .inl ⟨io', hm, hw', hax'⟩
      · exact .inr hone

/-- The word that is asked for in a cycle is there in the next one. -/
theorem Idle.dataOut {io io' : Input} {undef : Undef} (h : s.Idle mem) (hst : io.start = false)
    (hw : io.writeEnable = false) (hw' : io'.writeEnable = false)
    (ha : decodedAddress cfg io + 3 < cfg.memSize) :
    (s.next cfg io undef).dataOut cfg io' = wordAt mem (decodedAddress cfg io) := by
  obtain ⟨haddr, -, hwrite⟩ := h.coreInput cfg io
  have hn := h.next_read cfg undef hst hw
  have hio := h.2.core.memoryInput cfg (s.coreInput cfg io) (.inl rfl)
  have hsize : (s.core.memoryInput cfg (s.coreInput cfg io)).dataSize = .wordOp := by
    rw [hio, hwrite, hw]
    rfl
  have hread : (s.core.memoryInput cfg (s.coreInput cfg io)).writeEnable = false := by
    rw [hio, hwrite, hw]
  have haddr' : (s.core.memoryInput cfg (s.coreInput cfg io)).address = decodedAddress cfg io := by
    rw [hio, haddr]
  have hword := Memory.dataOut_word s.core.memory undef hsize hread
    (haddr' ▸ ha)
  rw [haddr', h.2.core.memory] at hword
  have hsize' : (((s.next cfg io undef).core).memoryInput cfg
      ((s.next cfg io undef).coreInput cfg io')).dataSize = .wordOp := by
    rw [hn.2.core.memoryInput _ _ (.inl rfl), (hn.coreInput cfg io').2.2, hw']
    rfl
  rw [MatrixMultiplication.dataOut, Core.dataOut, hsize']
  exact hword

/-- From a start to the end of the computation, whatever the user puts on the lines that
do not matter. -/
theorem Idle.leads (io : Input) (undef : Undef) (L : Layout cfg d) (h : s.Idle mem)
    (hd : io.toDims = d) (hst : io.start = true) (hw : io.writeEnable = false) :
    Busy (s.next cfg io undef) ∧ Leads (Goes cfg d) Busy (fun s' => ∃ mem', s'.Idle mem' ∧
      Done cfg d (d.padded cfg mem) (d.blockARow cfg * d.blockBCol cfg) mem')
      (s.next cfg io undef) := by
  have hstart := h.2.next_start undef L h.1 hd hst hw
  constructor
  · obtain ⟨⟨hp, -⟩ | ⟨hb, -⟩, -⟩ := hstart
    · simp [Busy, busy, hp]
    · simp [Busy, busy, hb]
  · refine (hstart.leads L).trans fun s₁ h₁ => (h₁.leads L).mono ?_
    rintro s₂ ⟨hs₂, mem', hr, hdone⟩
    exact ⟨mem', ⟨hs₂, hr⟩, hdone⟩

end MatrixMultiplication

namespace Layout

variable {cfg : Configs} {d : Dims} (L : Layout cfg d) {mem : ℕ → BitVec 8}
include L

/-- The padded operands are the elements, with zeros around them. -/
theorem elemA_padded {r k : ℕ} (hr : r < d.matARows) (hk : k < d.paddedMatACols cfg) :
    d.elemA cfg (d.padded cfg mem) r k = if k < d.matACols then d.elemA cfg mem r k else 0 := by
  have hlt := L.ltA (Nat.lt_of_lt_of_le hr L.rowsA.le) hk
  have hrow := index_lt hr hk
  have hmod := (index_div_mod (i := r) hk).2
  have hB : ¬(d.regionB cfg).Zone (cfg.baseAddressA + r * d.paddedMatACols cfg + k) := fun hz => by
    have : cfg.baseAddressB ≤ _ := hz.1
    omega
  have hoff : cfg.baseAddressA + r * d.paddedMatACols cfg + k - cfg.baseAddressA =
      r * d.paddedMatACols cfg + k := by omega
  rw [Dims.elemA, Dims.padded]
  by_cases hkc : k < d.matACols
  · rw [if_pos hkc, if_neg]
    · rfl
    · rintro (⟨-, -, hz⟩ | hz)
      · simp only [Dims.regionA, hoff, hmod] at hz
        omega
      · exact hB hz
  · rw [if_neg hkc, if_pos]
    refine .inl ⟨Nat.le_trans (Nat.le_add_right _ _) (Nat.le_add_right _ _), ?_, .inr ?_⟩
    · have := L.properA.rows_le_size
      simp only [Dims.regionA, hoff] at this ⊢
      omega
    · simp only [Dims.regionA, hoff, hmod]
      omega

theorem elemB_padded {k c : ℕ} (hk : k < d.matBRows) (hc : c < d.matBCols) :
    d.elemB cfg (d.padded cfg mem) k c = d.elemB cfg mem k c := by
  have hc' := Nat.lt_of_lt_of_le hc L.colsB.le
  have hrow := index_lt hk hc'
  have hmod := (index_div_mod (i := k) hc').2
  have hoff : cfg.baseAddressB + k * d.paddedMatBCols cfg + c - cfg.baseAddressB =
      k * d.paddedMatBCols cfg + c := by omega
  rw [Dims.elemB, Dims.padded, if_neg]
  · rfl
  · rintro (hz | ⟨-, -, hz⟩)
    · exact L.not_zoneA (Nat.le_trans (Nat.le_add_right _ _) (Nat.le_add_right _ _)) hz
    · simp only [Dims.regionB, hoff, hmod] at hz
      omega

/-- The zeros add nothing. -/
theorem total_padded {r c : ℕ} (hr : r < d.matARows) (hc : c < d.matBCols) :
    d.total cfg (d.padded cfg mem) r c = d.partialSum cfg mem d.matACols r c := by
  have hle := L.colsA.le
  obtain ⟨e, he⟩ := Nat.exists_eq_add_of_le hle
  rw [Dims.total, he, Dims.partialSum_add]
  have hzero : ∑ x ∈ range e, term cfg
      (d.elemA cfg (d.padded cfg mem) r (d.matACols + x))
      (d.elemB cfg (d.padded cfg mem) (d.matACols + x) c) = 0 := by
    apply sum_eq_zero
    intro x hx
    have hx := mem_range.mp hx
    rw [L.elemA_padded hr (by omega), if_neg (by omega)]
    cases hs : cfg.isSignedA <;> simp [term, converted, hs]
  rw [hzero, show BitVec.ofInt 32 0 = 0#32 from rfl, BitVec.add_zero, Dims.partialSum,
    Dims.partialSum]
  congr 1
  apply sum_congr rfl
  intro k hk
  have hk := mem_range.mp hk
  rw [L.elemA_padded hr (by omega), if_pos hk, L.elemB_padded (L.inner.symm ▸ hk) hc]

end Layout

namespace MatrixMultiplication

variable {cfg : Configs} {d : Dims} {A B : ℕ → ℕ → BitVec 8}

/-- A cycle that writes element `(i, k)` of A through the decode. -/
structure WritesA (cfg : Configs) (d : Dims) (A : ℕ → ℕ → BitVec 8) (i k : ℕ) (io : Input) :
    Prop where
  writeEnable : io.writeEnable = true
  select : io.select = cfg.selectA
  address : io.address = cfg.baseAddressA + (i * d.matACols + k)
  dataIn : io.dataIn = A i k

structure WritesB (cfg : Configs) (d : Dims) (B : ℕ → ℕ → BitVec 8) (k j : ℕ) (io : Input) :
    Prop where
  writeEnable : io.writeEnable = true
  select : io.select = cfg.selectB
  address : io.address = cfg.baseAddressB + (k * d.matBCols + j)
  dataIn : io.dataIn = B k j

/-- Cycles that write every element of the operands, in any order, and nothing else. -/
structure Loads (cfg : Configs) (d : Dims) (A B : ℕ → ℕ → BitVec 8) (ios : List (Input × Undef)) :
    Prop where
  dims : ∀ io ∈ ios, io.1.toDims = d
  start : ∀ io ∈ ios, io.1.start = false
  writes : ∀ io ∈ ios, io.1.writeEnable = true →
    (∃ i < d.matARows, ∃ k < d.matACols, WritesA cfg d A i k io.1) ∨
    (∃ k < d.matBRows, ∃ j < d.matBCols, WritesB cfg d B k j io.1)
  elemsA : ∀ i < d.matARows, ∀ k < d.matACols, ∃ io ∈ ios, WritesA cfg d A i k io.1
  elemsB : ∀ k < d.matBRows, ∀ j < d.matBCols, ∃ io ∈ ios, WritesB cfg d B k j io.1

variable {ios : List (Input × Undef)} {io : Input}

theorem WritesA.decode {i k : ℕ} (L : Layout cfg d) (h : WritesA cfg d A i k io)
    (hd : io.toDims = d) (hi : i < d.matARows) (hk : k < d.matACols) :
    decodedAddress cfg io = cfg.baseAddressA + (i * d.paddedMatACols cfg + k) := by
  subst hd
  exact L.decodeA (Nat.lt_of_lt_of_le hi L.rowsA.le) hk h.select h.address

theorem WritesB.decode {k j : ℕ} (L : Layout cfg d) (h : WritesB cfg d B k j io)
    (hd : io.toDims = d) (hk : k < d.matBRows) (hj : j < d.matBCols) :
    decodedAddress cfg io = cfg.baseAddressB + (k * d.paddedMatBCols cfg + j) := by
  subst hd
  exact L.decodeB (Nat.lt_of_lt_of_le hk L.rowsB.le) hj h.select h.address

theorem Loads.quiet (L : Layout cfg d) (h : Loads cfg d A B ios) : Quiet cfg ios := by
  have hB := L.baseB_le
  have hC := L.baseC_le
  intro io hm
  refine ⟨h.start io hm, fun hw => ?_⟩
  rcases h.writes io hm hw with ⟨i, hi, k, hk, hio⟩ | ⟨k, hk, j, hj, hio⟩
  · rw [hio.decode L (h.dims io hm) hi hk]
    have := L.ltA (Nat.lt_of_lt_of_le hi L.rowsA.le) (Nat.lt_of_lt_of_le hk L.colsA.le)
    omega
  · rw [hio.decode L (h.dims io hm) hk hj]
    have := L.ltB (Nat.lt_of_lt_of_le hk L.rowsB.le) (Nat.lt_of_lt_of_le hj L.colsB.le)
    omega

/-- After the writes, the elements are where the blocks expect them. -/
theorem Loads.memory {s : MatrixMultiplication} {mem : ℕ → BitVec 8} (L : Layout cfg d)
    (h : Loads cfg d A B ios) (hs : s.Idle mem) :
    ∃ mem', (run cfg s ios).Idle mem' ∧
      (∀ i < d.matARows, ∀ k < d.matACols, d.elemA cfg mem' i k = A i k) ∧
      ∀ k < d.matBRows, ∀ j < d.matBCols, d.elemB cfg mem' k j = B k j := by
  obtain ⟨mem', hr, hx⟩ := hs.run_memory (h.quiet L)
  have decA : ∀ i < d.matARows, ∀ k < d.matACols,
      cfg.baseAddressA + (i * d.paddedMatACols cfg + k) < cfg.baseAddressB := fun i hi k hk =>
    L.ltA (Nat.lt_of_lt_of_le hi L.rowsA.le) (Nat.lt_of_lt_of_le hk L.colsA.le)
  refine ⟨mem', hr, fun i hi k hk => ?_, fun k hk j hj => ?_⟩
  · obtain ⟨io, hm, hio⟩ := h.elemsA i hi k hk
    rw [Dims.elemA, Nat.add_assoc]
    refine hx _ _ (fun io' hm' hw' ha' => ?_)
      (.inl ⟨io, hm, hio.writeEnable, hio.decode L (h.dims io hm) hi hk⟩)
    have hlt := decA i hi k hk
    rcases h.writes io' hm' hw' with ⟨i', hi', k', hk', hio'⟩ | ⟨k', hk', j', hj', hio'⟩
    · rw [hio'.decode L (h.dims io' hm') hi' hk'] at ha'
      obtain ⟨rfl, rfl⟩ := index_inj (Nat.lt_of_lt_of_le hk' L.colsA.le)
        (Nat.lt_of_lt_of_le hk L.colsA.le) (Nat.add_left_cancel ha')
      exact hio'.dataIn
    · rw [hio'.decode L (h.dims io' hm') hk' hj'] at ha'
      omega
  · obtain ⟨io, hm, hio⟩ := h.elemsB k hk j hj
    rw [Dims.elemB, Nat.add_assoc]
    refine hx _ _ (fun io' hm' hw' ha' => ?_)
      (.inl ⟨io, hm, hio.writeEnable, hio.decode L (h.dims io hm) hk hj⟩)
    rcases h.writes io' hm' hw' with ⟨i', hi', k', hk', hio'⟩ | ⟨k', hk', j', hj', hio'⟩
    · have hlt := decA i' hi' k' hk'
      rw [hio'.decode L (h.dims io' hm') hi' hk'] at ha'
      omega
    · rw [hio'.decode L (h.dims io' hm') hk' hj'] at ha'
      obtain ⟨rfl, rfl⟩ := index_inj (Nat.lt_of_lt_of_le hj' L.colsB.le)
        (Nat.lt_of_lt_of_le hj L.colsB.le) (Nat.add_left_cancel ha')
      exact hio'.dataIn

/-- A cycle with the dimensions of the product that writes nothing. The other lines are
free. -/
structure Steady (d : Dims) (io : Input) : Prop where
  dims : io.toDims = d
  writeEnable : io.writeEnable = false

/-- A cycle that asks for element `(i, j)` of the result through the decode. -/
structure ReadsC (cfg : Configs) (d : Dims) (i j : ℕ) (io : Input) : Prop extends Steady d io where
  start : io.start = false
  select : io.select = cfg.selectC
  address : io.address = cfg.baseAddressC + (i * d.matBCols + j)

theorem cycles_goes {s : MatrixMultiplication} {ins : ℕ → Input × Undef}
    (h : ∀ n, Steady d (ins n).1) (n : ℕ) :
    Goes cfg d (cycles cfg s ins n) (cycles cfg s ins (n + 1)) :=
  ⟨_, _, (h n).dims, (h n).writeEnable, rfl⟩

theorem Idle.run_reads {s : MatrixMultiplication} {mem : ℕ → BitVec 8} (cfg : Configs)
    (h : s.Idle mem)
    (hr : ∀ io ∈ ios, io.1.start = false ∧ io.1.writeEnable = false) :
    (run cfg s ios).Idle mem := by
  have noWrite : ∀ io ∈ ios, io.1.writeEnable ≠ true := fun io hm => by simp [(hr io hm).2]
  have quiet : Quiet cfg ios := fun io hm =>
    ⟨(hr io hm).1, fun hw => absurd hw (noWrite io hm)⟩
  obtain ⟨mem', hi, hx⟩ := h.run_memory quiet
  have : mem' = mem := funext fun x =>
    hx x (mem x) (fun io hm hw => absurd hw (noWrite io hm)) (.inr rfl)
  exact this ▸ hi

/-- Over any earlier runs and any memory, the words of the result are the sums of
products, and the accelerator comes to an end. -/
theorem computes_product (cfg : Configs) (d : Dims) (A B : ℕ → ℕ → BitVec 8)
    (hsA : cfg.isSignedA = true) (hsB : cfg.isSignedB = true) (hd : d.Fits cfg)
    (s : MatrixMultiplication) (hs : Reachable cfg s) (hb : s.busy = false)
    (ios : List (Input × Undef)) (hl : Loads cfg d A B ios)
    (io : Input) (undef : Undef) (hst : io.start = true) (hio : Steady d io)
    (ins : ℕ → Input × Undef) (hins : ∀ n, Steady d (ins n).1) :
    ∃ n > 0, (∀ j < n, (cycles cfg ((run cfg s ios).next cfg io undef) ins j).busy = true) ∧
      (cycles cfg ((run cfg s ios).next cfg io undef) ins n).busy = false ∧
      ∀ reads : List (Input × Undef),
        (∀ io ∈ reads, io.1.start = false ∧ io.1.writeEnable = false) →
        ∀ i < d.matARows, ∀ j < d.matBCols, ∀ (rd : Input) (undef' : Undef) (after : Input),
          ReadsC cfg d i j rd → after.writeEnable = false →
          ((run cfg (cycles cfg ((run cfg s ios).next cfg io undef) ins n) reads).next cfg rd
            undef').dataOut cfg after =
              BitVec.ofInt 32 (∑ k ∈ range d.matACols, (A i k).toInt * (B k j).toInt) := by
  have L := hd.layout
  have hidle : s.Idle s.core.memory.mem := hs.rest hb
  obtain ⟨mem, hloaded, hA, hB⟩ := hl.memory L hidle
  obtain ⟨hbusy, hleads⟩ := hloaded.leads io undef L hio.dims hst hio.writeEnable
  obtain ⟨n, hwhile, mem', hidle', hdone⟩ :=
    Leads.exists_time (cycles cfg ((run cfg s ios).next cfg io undef) ins) (cycles_goes hins) hleads
  refine ⟨n, ?_, hwhile, ?_, fun reads hreads i hi j hj rd undef' after hrd hafter => ?_⟩
  · rcases Nat.eq_zero_or_pos n with h0 | hpos
    · subst h0
      have hready := hidle'.1
      simp [Busy, busy, cycles] at hbusy hready
      exact absurd hready hbusy
    · exact hpos
  · simp [busy, hidle'.1]
  · have hrun := hidle'.run_reads cfg hreads
    have hdec : decodedAddress cfg rd =
        cfg.baseAddressC + 4 * (i * d.paddedMatBCols cfg + j) := by
      obtain ⟨⟨rfl, -⟩, -, hsel, haddr⟩ := hrd
      exact L.decodeC (Nat.lt_of_lt_of_le hi L.rowsA.le) hj hsel haddr
    have hi' := Nat.lt_of_lt_of_le hi L.rowsA.le
    have hj' := Nat.lt_of_lt_of_le hj L.colsB.le
    rw [hrun.dataOut hrd.start hrd.writeEnable hafter (hdec ▸ L.ltC hi' hj'), hdec]
    have hblock : i / cfg.calcCoreSize * d.blockBCol cfg + j / cfg.calcCoreSize <
        d.blockARow cfg * d.blockBCol cfg := by
      rw [← L.blockARow_mul] at hi'
      rw [← L.blockBCol_mul] at hj'
      exact index_lt (Nat.div_lt_of_lt_mul (Nat.mul_comm _ _ ▸ hi'))
        (Nat.div_lt_of_lt_mul (Nat.mul_comm _ _ ▸ hj'))
    rw [hdone.word i (Nat.lt_of_lt_of_le hi L.rowsA.le) j (Nat.lt_of_lt_of_le hj L.colsB.le) hblock,
      L.total_padded hi hj, Dims.partialSum]
    congr 1
    apply sum_congr rfl
    intro k hk
    have hk := mem_range.mp hk
    rw [hA i hi k hk, hB k (L.inner.symm ▸ hk) j hj]
    simp [term, converted, hsA, hsB]

def line (d : Dims) (start writeEnable : Bool) (select address : ℕ) (dataIn : BitVec 8) :
    Input × Undef where
  fst := { toDims := d, start, dataIn, address, select, writeEnable }
  snd _ _ := 0

def lineA (cfg : Configs) (d : Dims) (A : ℕ → ℕ → BitVec 8) (i k : ℕ) : Input × Undef :=
  line d false true cfg.selectA (cfg.baseAddressA + (i * d.matACols + k)) (A i k)

def lineB (cfg : Configs) (d : Dims) (B : ℕ → ℕ → BitVec 8) (k j : ℕ) : Input × Undef :=
  line d false true cfg.selectB (cfg.baseAddressB + (k * d.matBCols + j)) (B k j)

/-- The elements row by row, those of A first. -/
def load (cfg : Configs) (d : Dims) (A B : ℕ → ℕ → BitVec 8) : List (Input × Undef) :=
  ((List.range d.matARows).flatMap fun i => (List.range d.matACols).map (lineA cfg d A i)) ++
    (List.range d.matBRows).flatMap fun k => (List.range d.matBCols).map (lineB cfg d B k)

theorem mem_load {cfg : Configs} {d : Dims} {A B : ℕ → ℕ → BitVec 8} {io : Input × Undef} :
    io ∈ load cfg d A B ↔
      (∃ i < d.matARows, ∃ k < d.matACols, lineA cfg d A i k = io) ∨
      ∃ k < d.matBRows, ∃ j < d.matBCols, lineB cfg d B k j = io := by
  simp [load]

theorem loads_load (cfg : Configs) (d : Dims) (A B : ℕ → ℕ → BitVec 8) :
    Loads cfg d A B (load cfg d A B) where
  dims io hm := by
    obtain ⟨i, -, k, -, rfl⟩ | ⟨k, -, j, -, rfl⟩ := mem_load.mp hm <;> rfl
  start io hm := by
    obtain ⟨i, -, k, -, rfl⟩ | ⟨k, -, j, -, rfl⟩ := mem_load.mp hm <;> rfl
  writes io hm _ := by
    obtain ⟨i, hi, k, hk, rfl⟩ | ⟨k, hk, j, hj, rfl⟩ := mem_load.mp hm
    · exact .inl ⟨i, hi, k, hk, rfl, rfl, rfl, rfl⟩
    · exact .inr ⟨k, hk, j, hj, rfl, rfl, rfl, rfl⟩
  elemsA i hi k hk := ⟨_, mem_load.mpr (.inl ⟨i, hi, k, hk, rfl⟩), rfl, rfl, rfl, rfl⟩
  elemsB k hk j hj := ⟨_, mem_load.mpr (.inr ⟨k, hk, j, hj, rfl⟩), rfl, rfl, rfl, rfl⟩

/-- A circuit with cores of four cells. -/
def cfgUneven : Configs where
  calcCoreSize := 2
  maxMatARows := 3
  maxMatACols := 5
  maxMatBRows := 5
  maxMatBCols := 3
  two_le := by decide
  isPowerOfTwo := ⟨1, rfl⟩
  memSize_lt := by decide

/-- Every side is padded. -/
def uneven : Dims := ⟨3, 5, 5, 3⟩

def matA (i k : ℕ) : BitVec 8 := .ofInt 8 (i - 2 * k)

def matB (k j : ℕ) : BitVec 8 := .ofInt 8 (3 * k - 4 * j)

def dirty : Memory := ⟨fun _ => 7, fun _ _ => 7⟩

def lineUneven (start : Bool) (select address : ℕ) : Input × Undef :=
  line uneven start false select address 0

/-- The last element of the product, from a memory that held something else. -/
theorem computes_product_uneven :
    ∃ n, ((cycles cfgUneven ((run cfgUneven { core := { memory := dirty } }
        (load cfgUneven uneven matA matB)).next cfgUneven (lineUneven true 0 0).1
        (lineUneven true 0 0).2) (fun _ => lineUneven false 0 0) n).next cfgUneven
        (lineUneven false 2 56).1 (lineUneven false 2 56).2).dataOut cfgUneven
        (lineUneven false 0 0).1 = BitVec.ofInt 32 (-40) := by
  obtain ⟨n, -, -, -, h⟩ := computes_product cfgUneven uneven matA matB rfl rfl
    ⟨by decide, by decide, by decide, rfl, by decide, by decide, by decide⟩
    { core := { memory := dirty } } (.reset dirty) rfl _ (loads_load cfgUneven uneven matA matB)
    (lineUneven true 0 0).1 (lineUneven true 0 0).2 rfl ⟨rfl, rfl⟩
    (fun _ => lineUneven false 0 0) (fun _ => ⟨rfl, rfl⟩)
  refine ⟨n, ?_⟩
  refine (h [] nofun 2 (by decide) 2 (by decide) _ _ _ ⟨⟨rfl, rfl⟩, rfl, rfl, rfl⟩ rfl).trans ?_
  decide

end MatrixMultiplication

end Course.Gemm
