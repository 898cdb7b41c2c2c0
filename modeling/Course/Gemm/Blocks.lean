import Course.Gemm.Padding
import Mathlib.Algebra.BigOperators.Intervals
import Mathlib.Data.Int.Basic
import Mathlib.Tactic.Ring

/-! The blocks of the result, one after the other: for each the core adds up the products
of the blocks of the operands, and stores them. -/

namespace Course.Gemm

open Course.Lib Finset

/-- The product of two elements -/
def term (cfg : Configs) (a b : BitVec 8) : ℤ :=
  converted cfg.isSignedA a * converted cfg.isSignedB b

theorem ofInt_sum_toInt (n : ℕ) (f : ℕ → ℤ) :
    BitVec.ofInt 32 (∑ i ∈ range n, (BitVec.ofInt 32 (f i)).toInt) =
      BitVec.ofInt 32 (∑ i ∈ range n, f i) := by
  induction n with
  | zero => rfl
  | succ n ih => rw [sum_range_succ, sum_range_succ, BitVec.ofInt_add, BitVec.ofInt_add, ih,
      BitVec.ofInt_toInt]

theorem vecDotProduct_eq (cfg : Configs) (u v : ℕ → BitVec 8) :
    vecDotProduct cfg u v =
      BitVec.ofInt 32 (∑ x ∈ range cfg.calcCoreSize, term cfg (u x) (v x)) :=
  ofInt_sum_toInt _ fun x => term cfg (u x) (v x)

/-- A walk that stores words at distinct places of a region leaves each word in its
place, and everything else alone. -/
theorem stored_spec (cfg : Configs) (b : Bases) (acc : ℕ → BitVec 32) (mem : ℕ → BitVec 8)
    {base : ℕ} {w : ℕ → ℕ} (n : ℕ) (haddr : ∀ p < n, Core.cellAddress cfg b p = base + 4 * w p)
    (hinj : ∀ p < n, ∀ p' < n, w p = w p' → p = p') :
    (∀ p < n, wordAt (Core.stored cfg b acc mem n) (base + 4 * w p) = acc p) ∧
    (∀ v, (∀ p < n, w p ≠ v) →
      wordAt (Core.stored cfg b acc mem n) (base + 4 * v) = wordAt mem (base + 4 * v)) ∧
    ∀ x < base, Core.stored cfg b acc mem n x = mem x := by
  induction n with
  | zero => exact ⟨nofun, fun _ _ => rfl, fun _ _ => rfl⟩
  | succ n ih =>
    obtain ⟨hword, hother, hbelow⟩ := ih (fun p hp => haddr p (by omega))
      (fun p hp p' hp' => hinj p (by omega) p' (by omega))
    simp only [Core.stored, haddr n (by omega)]
    refine ⟨fun p hp => ?_, fun v hv => ?_, fun x hx => ?_⟩
    · by_cases hpn : p = n
      · subst hpn
        exact wordAt_writeWord _ _ _
      · have hne : w p ≠ w n := fun h => hpn (hinj p hp n (by omega) h)
        rw [wordAt_writeWord_of_ne (by omega)]
        exact hword p (by omega)
    · have hne := hv n (by omega)
      rw [wordAt_writeWord_of_ne (by omega)]
      exact hother v fun p hp => hv p (by omega)
    · rw [writeWord_frame (by omega)]
      exact hbelow x hx

namespace Dims

variable (cfg : Configs) (d : Dims) (mem : ℕ → BitVec 8)

/-- The padded operands in the memory -/
def elemA (r k : ℕ) : BitVec 8 := mem (cfg.baseAddressA + r * d.paddedMatACols cfg + k)

def elemB (k c : ℕ) : BitVec 8 := mem (cfg.baseAddressB + k * d.paddedMatBCols cfg + c)

/-- The first `n` products of an element of the result -/
def partialSum (n r c : ℕ) : BitVec 32 :=
  BitVec.ofInt 32 (∑ k ∈ range n, term cfg (d.elemA cfg mem r k) (d.elemB cfg mem k c))

def total (r c : ℕ) : BitVec 32 := d.partialSum cfg mem (d.paddedMatACols cfg) r c

theorem partialSum_add (n m r c : ℕ) : d.partialSum cfg mem (n + m) r c =
    d.partialSum cfg mem n r c + BitVec.ofInt 32 (∑ x ∈ range m,
      term cfg (d.elemA cfg mem r (n + x)) (d.elemB cfg mem (n + x) c)) := by
  rw [partialSum, sum_range_add, BitVec.ofInt_add]
  rfl

/-- The bases that are issued for index `t` of block `(R, C)` -/
def bases (R C t : ℕ) : Bases where
  baseAddressA := (cfg.baseAddressA + R * d.blockACol cfg * (cfg.calcCoreSize * cfg.calcCoreSize) +
    t * cfg.calcCoreSize) % 2 ^ cfg.addrWidth
  baseAddressB := (cfg.baseAddressB + t * d.blockBCol cfg * (cfg.calcCoreSize * cfg.calcCoreSize) +
    C * cfg.calcCoreSize) % 2 ^ cfg.addrWidth
  baseAddressC := (cfg.baseAddressC +
    (R * d.blockCCol cfg * (cfg.calcCoreSize * cfg.calcCoreSize) + C * cfg.calcCoreSize) * 4) %
      2 ^ cfg.addrWidth
  rowAddrDiffA := d.rowAddrDiffA cfg % 2 ^ cfg.addrWidth
  rowAddrDiffB := d.rowAddrDiffB cfg % 2 ^ cfg.addrWidth
  rowAddrDiffC := d.rowAddrDiffC cfg % 2 ^ cfg.addrWidth

end Dims

theorem mod_address (M a r x y : ℕ) : (a % M + r * (x % M) + y) % M = (a + r * x + y) % M := by
  simp [Nat.add_mod, Nat.mul_mod]

namespace Layout

variable {cfg : Configs} {d : Dims} (L : Layout cfg d) {mem : ℕ → BitVec 8} {R C t : ℕ}
include L

theorem blockACol_mul : d.blockACol cfg * cfg.calcCoreSize = d.paddedMatACols cfg :=
  Nat.div_mul_cancel L.colsA.dvd

theorem blockARow_mul : d.blockARow cfg * cfg.calcCoreSize = d.paddedMatARows cfg :=
  Nat.div_mul_cancel L.rowsA.dvd

theorem blockBCol_mul : d.blockBCol cfg * cfg.calcCoreSize = d.paddedMatBCols cfg :=
  Nat.div_mul_cancel L.colsB.dvd

theorem paddedInner : d.paddedMatBRows cfg = d.paddedMatACols cfg :=
  congrArg (pad · cfg.calcCoreSize) L.inner

/-- The address of an element of an operand block, and that it is in the memory. -/
theorem addressA (hR : R < d.blockARow cfg) (ht : t < d.blockACol cfg) {r x : ℕ}
    (hr : r < cfg.calcCoreSize) (hx : x < cfg.calcCoreSize) :
    ((d.bases cfg R C t).baseAddressA + r * (d.bases cfg R C t).rowAddrDiffA + x) %
        2 ^ cfg.addrWidth =
      cfg.baseAddressA + (R * cfg.calcCoreSize + r) * d.paddedMatACols cfg +
        (t * cfg.calcCoreSize + x) ∧
    cfg.baseAddressA + (R * cfg.calcCoreSize + r) * d.paddedMatACols cfg +
        (t * cfg.calcCoreSize + x) < cfg.memSize := by
  have hrow := index_lt hR hr
  have hcol := index_lt ht hx
  rw [L.blockARow_mul] at hrow
  rw [L.blockACol_mul] at hcol
  have hlt := index_lt hrow hcol
  have hsize : cfg.baseAddressA + (R * cfg.calcCoreSize + r) * d.paddedMatACols cfg +
      (t * cfg.calcCoreSize + x) < cfg.memSize := by
    have := L.regionA
    have := L.regionB
    have := L.baseC_le
    simp only [MatrixMultiplicationConfigs.baseAddressA]
    omega
  refine ⟨?_, hsize⟩
  simp only [Dims.bases]
  rw [mod_address]
  have heq : cfg.baseAddressA + R * d.blockACol cfg * (cfg.calcCoreSize * cfg.calcCoreSize) +
      t * cfg.calcCoreSize + r * d.rowAddrDiffA cfg + x =
        cfg.baseAddressA + (R * cfg.calcCoreSize + r) * d.paddedMatACols cfg +
          (t * cfg.calcCoreSize + x) := by
    rw [Dims.rowAddrDiffA, ← L.blockACol_mul]
    ring
  rw [heq]
  exact Nat.mod_eq_of_lt (Nat.lt_of_lt_of_le hsize cfg.memSize_le)

theorem addressB (ht : t < d.blockACol cfg) (hC : C < d.blockBCol cfg) {x c : ℕ}
    (hx : x < cfg.calcCoreSize) (hc : c < cfg.calcCoreSize) :
    ((d.bases cfg R C t).baseAddressB + x * (d.bases cfg R C t).rowAddrDiffB + c) %
        2 ^ cfg.addrWidth =
      cfg.baseAddressB + (t * cfg.calcCoreSize + x) * d.paddedMatBCols cfg +
        (C * cfg.calcCoreSize + c) ∧
    cfg.baseAddressB + (t * cfg.calcCoreSize + x) * d.paddedMatBCols cfg +
        (C * cfg.calcCoreSize + c) < cfg.memSize := by
  have hrow := index_lt ht hx
  have hcol := index_lt hC hc
  rw [L.blockACol_mul, ← L.paddedInner] at hrow
  rw [L.blockBCol_mul] at hcol
  have hlt := index_lt hrow hcol
  have hsize : cfg.baseAddressB + (t * cfg.calcCoreSize + x) * d.paddedMatBCols cfg +
      (C * cfg.calcCoreSize + c) < cfg.memSize := by
    have := L.regionB
    have := L.baseC_le
    omega
  refine ⟨?_, hsize⟩
  simp only [Dims.bases]
  rw [mod_address]
  have heq : cfg.baseAddressB + t * d.blockBCol cfg * (cfg.calcCoreSize * cfg.calcCoreSize) +
      C * cfg.calcCoreSize + x * d.rowAddrDiffB cfg + c =
        cfg.baseAddressB + (t * cfg.calcCoreSize + x) * d.paddedMatBCols cfg +
          (C * cfg.calcCoreSize + c) := by
    rw [Dims.rowAddrDiffB, ← L.blockBCol_mul]
    ring
  rw [heq]
  exact Nat.mod_eq_of_lt (Nat.lt_of_lt_of_le hsize cfg.memSize_le)

/-- The word of cell `p` of a block -/
theorem addressC (hR : R < d.blockARow cfg) (hC : C < d.blockBCol cfg) {p : ℕ}
    (hp : p < cfg.calcCoreSize * cfg.calcCoreSize) :
    Core.cellAddress cfg (d.bases cfg R C t) p = cfg.baseAddressC +
      4 * ((R * cfg.calcCoreSize + p / cfg.calcCoreSize) * d.paddedMatBCols cfg +
        (C * cfg.calcCoreSize + p % cfg.calcCoreSize)) ∧
    cfg.baseAddressC +
      4 * ((R * cfg.calcCoreSize + p / cfg.calcCoreSize) * d.paddedMatBCols cfg +
        (C * cfg.calcCoreSize + p % cfg.calcCoreSize)) + 3 < cfg.memSize := by
  have hrow := index_lt hR (Nat.div_lt_of_lt_mul hp)
  have hcol := index_lt hC (Nat.mod_lt p (Core.calcCoreSize_pos cfg))
  rw [L.blockARow_mul] at hrow
  rw [L.blockBCol_mul] at hcol
  have hlt := index_lt hrow hcol
  have hsize : cfg.baseAddressC +
      4 * ((R * cfg.calcCoreSize + p / cfg.calcCoreSize) * d.paddedMatBCols cfg +
        (C * cfg.calcCoreSize + p % cfg.calcCoreSize)) + 3 < cfg.memSize := by
    have := L.regionC
    omega
  refine ⟨?_, hsize⟩
  simp only [Core.cellAddress, Dims.bases]
  rw [mod_address]
  have heq : cfg.baseAddressC + (R * d.blockCCol cfg * (cfg.calcCoreSize * cfg.calcCoreSize) +
      C * cfg.calcCoreSize) * 4 + p / cfg.calcCoreSize * d.rowAddrDiffC cfg +
        p % cfg.calcCoreSize * 4 = cfg.baseAddressC +
      4 * ((R * cfg.calcCoreSize + p / cfg.calcCoreSize) * d.paddedMatBCols cfg +
        (C * cfg.calcCoreSize + p % cfg.calcCoreSize)) := by
    rw [Dims.rowAddrDiffC, show d.blockCCol cfg = d.blockBCol cfg from rfl, ← L.blockBCol_mul]
    ring
  rw [heq]
  exact Nat.mod_eq_of_lt (Nat.lt_of_le_of_lt (Nat.le_add_right _ 3)
    (Nat.lt_of_lt_of_le hsize cfg.memSize_le))

theorem loadable (hR : R < d.blockARow cfg) (hC : C < d.blockBCol cfg)
    (ht : t < d.blockACol cfg) : Core.Loadable cfg (d.bases cfg R C t) where
  rows r hr x hx := by
    obtain ⟨heq, hlt⟩ := L.addressA (C := C) hR ht hr hx
    rw [heq]
    exact hlt
  cols x hx c hc := by
    obtain ⟨heq, hlt⟩ := L.addressB (R := R) ht hC hx hc
    rw [heq]
    exact hlt

theorem storable (hR : R < d.blockARow cfg) (hC : C < d.blockBCol cfg) :
    Core.Storable cfg (d.bases cfg R C t) := by
  intro p hp
  obtain ⟨heq, hlt⟩ := L.addressC (t := t) hR hC hp
  rw [heq]
  exact hlt

theorem dotCell_eq (hR : R < d.blockARow cfg) (hC : C < d.blockBCol cfg)
    (ht : t < d.blockACol cfg) {p : ℕ} (hp : p < cfg.calcCoreSize * cfg.calcCoreSize) :
    Core.dotCell cfg (d.bases cfg R C t) mem p = BitVec.ofInt 32 (∑ x ∈ range cfg.calcCoreSize,
      term cfg
        (d.elemA cfg mem (R * cfg.calcCoreSize + p / cfg.calcCoreSize) (t * cfg.calcCoreSize + x))
        (d.elemB cfg mem (t * cfg.calcCoreSize + x)
          (C * cfg.calcCoreSize + p % cfg.calcCoreSize))) := by
  have hr := Nat.div_lt_of_lt_mul hp
  have hc := Nat.mod_lt p (Core.calcCoreSize_pos cfg)
  rw [Core.dotCell, vecDotProduct_eq]
  congr 1
  apply sum_congr rfl
  intro x hx
  have hx := mem_range.mp hx
  rw [Core.operandA, Core.operandB, (L.addressA hR ht hr hx).1, (L.addressB ht hC hx hc).1]
  rfl

/-- One calculation adds one block of products to each cell. -/
theorem accumulated_partialSum (hR : R < d.blockARow cfg) (hC : C < d.blockBCol cfg)
    (ht : t < d.blockACol cfg) {acc : ℕ → BitVec 32} {p : ℕ}
    (hp : p < cfg.calcCoreSize * cfg.calcCoreSize)
    (hacc : acc p = d.partialSum cfg mem (t * cfg.calcCoreSize)
      (R * cfg.calcCoreSize + p / cfg.calcCoreSize)
      (C * cfg.calcCoreSize + p % cfg.calcCoreSize)) :
    Core.accumulated cfg (d.bases cfg R C t) acc mem (cfg.calcCoreSize * cfg.calcCoreSize) p =
      d.partialSum cfg mem ((t + 1) * cfg.calcCoreSize)
        (R * cfg.calcCoreSize + p / cfg.calcCoreSize)
        (C * cfg.calcCoreSize + p % cfg.calcCoreSize) := by
  rw [Core.accumulated, if_pos hp, hacc, L.dotCell_eq hR hC ht hp, Nat.succ_mul,
    Dims.partialSum_add]

end Layout

namespace MatrixMultiplication

variable {cfg : Configs} {d : Dims} {s : MatrixMultiplication} {R C t : ℕ}
  {acc : ℕ → BitVec 32} {mem : ℕ → BitVec 8}

/-- The counters of a module that is busy. -/
structure On (R C t : ℕ) (calculation store : Bool) (s : MatrixMultiplication) : Prop where
  state : s.state = .busy
  currentBlockRow : s.currentBlockRow = R
  currentBlockCol : s.currentBlockCol = C
  index : s.index = t
  waitCalculation : s.waitCalculation = calculation
  waitStore : s.waitStore = store

/-- Calculation `t` of a block is next. -/
def Issue (R C t : ℕ) (acc : ℕ → BitVec 32) (mem : ℕ → BitVec 8) (s : MatrixMultiplication) :
    Prop :=
  On R C t false false s ∧ s.core.At .ready acc mem

/-- The module waits for the core, which works with the bases `b`. -/
structure Waits (cfg : Configs) (d : Dims) (b : Bases) (R C t : ℕ) (calculation store : Bool)
    (s : MatrixMultiplication) : Prop where
  on : On R C t calculation store s
  waits : calculation = true ∨ store = true
  baseAddressA : s.baseAddressABuffer = b.baseAddressA
  baseAddressB : s.baseAddressBBuffer = b.baseAddressB
  baseAddressC : s.baseAddressCBuffer = b.baseAddressC
  rowAddrDiffA : d.rowAddrDiffA cfg % 2 ^ cfg.addrWidth = b.rowAddrDiffA
  rowAddrDiffB : d.rowAddrDiffB cfg % 2 ^ cfg.addrWidth = b.rowAddrDiffB
  rowAddrDiffC : d.rowAddrDiffC cfg % 2 ^ cfg.addrWidth = b.rowAddrDiffC

theorem On.busy {calculation store : Bool} (h : On R C t calculation store s) : Busy s := by
  simp [Busy, MatrixMultiplication.busy, h.state]

theorem Waits.sim {b : Bases} {calculation store : Bool} :
    ∀ s, Waits cfg d b R C t calculation store s → s.core.Working → Busy s ∧
      ∀ s', Goes cfg d s s' →
        Waits cfg d b R C t calculation store s' ∧ Core.Goes cfg b s.core s'.core := by
  rintro s h hw
  refine ⟨h.on.busy, ?_⟩
  rintro s' ⟨io, undef, rfl, hwrite, rfl⟩
  have hfin : s.core.finish = false := by
    simp only [Core.finish, decide_eq_false_iff_not]
    exact hw
  have hfsm : s.fsm cfg io = s := by
    simp only [fsm, h.on.state, busyNext, h.on.waitStore, h.on.waitCalculation, hfin]
    rcases h.waits with hc | hc <;> simp [hc]
  have hquiet : (s.coreInput cfg io).Quiet := by
    constructor
    · simp only [coreInput, coreStart, h.on.waitStore, h.on.waitCalculation]
      rcases h.waits with hc | hc <;> simp [hc]
    · simp [coreInput, coreStore, hfin]
    · simp [coreInput, h.on.state, hwrite]
  have hbases : (s.coreInput cfg io).toBases = b := by
    simp [coreInput, h.baseAddressA, h.baseAddressB, h.baseAddressC, h.rowAddrDiffA,
      h.rowAddrDiffB, h.rowAddrDiffC]
  rw [next_eq, hfsm]
  exact ⟨⟨⟨h.on.state, h.on.currentBlockRow, h.on.currentBlockCol, h.on.index,
    h.on.waitCalculation, h.on.waitStore⟩, h.waits, h.baseAddressA, h.baseAddressB,
    h.baseAddressC, h.rowAddrDiffA, h.rowAddrDiffB, h.rowAddrDiffC⟩,
    ⟨s.coreInput cfg io, undef, hbases, hquiet, rfl⟩⟩

/-- The start of a calculation. -/
theorem Issue.leads (h : Issue R C t acc mem s) :
    Leads (Goes cfg d) Busy (fun s' => Waits cfg d (d.bases cfg R C t) R C t true false s' ∧
      s'.core.At .load acc mem) s := by
  obtain ⟨on, hat⟩ := h
  refine .step on.busy ?_
  rintro s' ⟨io, undef, rfl, hwrite, rfl⟩
  have hcore := hat.order cfg (s.coreInput cfg io) undef (.inl rfl)
  rw [hat.next_mem_of_read cfg undef (.inl rfl) (by simp [coreInput, on.state, hwrite])] at hcore
  rw [next_eq]
  constructor
  · refine ⟨⟨?_, ?_, ?_, ?_, ?_, ?_⟩, .inl rfl, ?_, ?_, ?_, rfl, rfl, rfl⟩ <;>
      simp [fsm, busyNext, Dims.bases, on.state, on.currentBlockRow, on.currentBlockCol, on.index,
        on.waitCalculation, on.waitStore]
  · simpa [coreInput, coreStart, coreStore, on.state, on.waitCalculation, on.waitStore] using hcore

/-- The end of a calculation, which is not the last of its block. -/
theorem Waits.next_index {b : Bases} (hs : Waits cfg d b R C t true false s)
    (hat : s.core.At .finish acc mem) (ht : t + 1 < d.blockACol cfg)
    (hsmall : d.blockACol cfg < 2 ^ 32) :
    Leads (Goes cfg d) Busy (Issue R C (t + 1) acc mem) s := by
  refine .step hs.on.busy ?_
  rintro s' ⟨io, undef, rfl, hwrite, rfl⟩
  have hfin : s.core.finish = true := by simp [Core.finish, hat.state]
  have hlast : s.lastIndex cfg io.toDims = false := by
    have : usub 32 (1 + (io.blockACol cfg - 1)) 1 = io.blockACol cfg - 1 := usub_add (by omega)
    rw [Nat.add_sub_cancel' (by omega)] at this
    simp only [lastIndex, hs.on.index, this, decide_eq_false_iff_not]
    omega
  have hcore := hat.order cfg (s.coreInput cfg io) undef (.inr rfl)
  rw [hat.next_mem_of_read cfg undef (.inr rfl) (by simp [coreInput, hs.on.state, hwrite])] at hcore
  rw [next_eq]
  constructor
  · constructor <;> simp [fsm, busyNext, hs.on.state, hs.on.currentBlockRow,
      hs.on.currentBlockCol, hs.on.index, hs.on.waitCalculation, hs.on.waitStore, hfin, hlast,
      Nat.mod_eq_of_lt (show t + 1 < 4294967296 by omega)]
  · simpa [coreInput, coreStart, coreStore, hlast] using hcore

/-- The end of the last calculation of a block. -/
theorem Waits.next_store {b : Bases} (hs : Waits cfg d b R C t true false s)
    (hat : s.core.At .finish acc mem) (ht : t + 1 = d.blockACol cfg)
    (hsmall : d.blockACol cfg < 2 ^ 32) :
    Leads (Goes cfg d) Busy (fun s' => Waits cfg d b R C 0 false true s' ∧
      s'.core.At .store acc mem) s := by
  refine .step hs.on.busy ?_
  rintro s' ⟨io, undef, rfl, hwrite, rfl⟩
  have hfin : s.core.finish = true := by simp [Core.finish, hat.state]
  have hlast : s.lastIndex cfg io.toDims = true := by
    have : usub 32 (1 + t) 1 = t := usub_add (by omega)
    rw [Nat.add_comm, ht] at this
    simp [lastIndex, hs.on.index, this]
  have hcore := hat.order cfg (s.coreInput cfg io) undef (.inr rfl)
  rw [hat.next_mem_of_read cfg undef (.inr rfl) (by simp [coreInput, hs.on.state, hwrite])] at hcore
  rw [next_eq]
  constructor
  · refine ⟨⟨?_, ?_, ?_, ?_, ?_, ?_⟩, .inr rfl, ?_, ?_, ?_, hs.rowAddrDiffA, hs.rowAddrDiffB,
      hs.rowAddrDiffC⟩ <;>
      simp [fsm, busyNext, hs.on.state, hs.on.currentBlockRow, hs.on.currentBlockCol,
        hs.on.waitCalculation, hs.on.waitStore, hfin, hlast, hs.baseAddressA, hs.baseAddressB,
        hs.baseAddressC]
  · simpa [coreInput, coreStore, hs.on.state, hs.on.waitCalculation, hs.on.waitStore, hfin,
      hlast] using hcore

/-- The end of the store of block `q`. -/
theorem Waits.next_block {b : Bases} {q : ℕ} (hq : q < d.blockARow cfg * d.blockBCol cfg)
    (hs : Waits cfg d b (q / d.blockBCol cfg) (q % d.blockBCol cfg) 0 false true s)
    (hat : s.core.At .finish acc mem)
    (hrows : d.blockARow cfg < 2 ^ 32) (hcols : d.blockBCol cfg < 2 ^ 32) :
    Leads (Goes cfg d) Busy (fun s' =>
      (q + 1 < d.blockARow cfg * d.blockBCol cfg ∧
        Issue ((q + 1) / d.blockBCol cfg) ((q + 1) % d.blockBCol cfg) 0 acc mem s') ∨
      (q + 1 = d.blockARow cfg * d.blockBCol cfg ∧ s'.state = .ready ∧
        On 0 0 0 false false { s' with state := .busy } ∧ s'.core.At .ready acc mem)) s := by
  refine .step hs.on.busy ?_
  rintro s' ⟨io, undef, rfl, hwrite, rfl⟩
  have hpos : 0 < io.blockBCol cfg := Nat.pos_of_lt_mul_left hq
  have hrow : q / io.blockBCol cfg < io.blockARow cfg :=
    Nat.div_lt_of_lt_mul (Nat.mul_comm _ _ ▸ hq)
  have hcol := Nat.mod_lt q hpos
  have pred : ∀ n, 0 < n → n < 2 ^ 32 → usub 32 n 1 = n - 1 := by
    intro n h0 hn
    have : usub 32 (1 + (n - 1)) 1 = n - 1 := usub_add (by omega)
    rwa [Nat.add_sub_cancel' h0] at this
  have hrow1 := pred _ (Nat.zero_lt_of_lt hrow) hrows
  have hcol1 := pred _ hpos hcols
  have hfin : s.core.finish = true := by simp [Core.finish, hat.state]
  have hcore := hat.order cfg (s.coreInput cfg io) undef (.inr rfl)
  rw [hat.next_mem_of_read cfg undef (.inr rfl) (by simp [coreInput, hs.on.state, hwrite])] at hcore
  have hcore : (s.core.next cfg (s.coreInput cfg io) undef).At .ready acc mem := by
    simpa [coreInput, coreStore, hs.on.waitStore] using hcore
  have hgrid := last_of_grid (m := io.blockARow cfg) (p := q) hpos
  rw [next_eq]
  simp only [fsm, hs.on.state, busyNext, hs.on.waitStore, hfin, if_true, hs.on.currentBlockCol,
    hs.on.currentBlockRow, hrow1, hcol1]
  by_cases hc : q % io.blockBCol cfg = io.blockBCol cfg - 1
  · obtain ⟨hd, hm⟩ := (div_mod_succ q hpos).1 (by omega)
    by_cases hr : q / io.blockBCol cfg = io.blockARow cfg - 1
    · refine .inr ⟨hgrid.mp (by omega), ?_⟩
      simp only [hc, hr, if_true]
      exact ⟨trivial, ⟨rfl, rfl, rfl, hs.on.index, hs.on.waitCalculation, rfl⟩, hcore⟩
    · have hlt : q + 1 < io.blockARow cfg * io.blockBCol cfg := by
        have hne : q + 1 ≠ io.blockARow cfg * io.blockBCol cfg := fun h =>
          hr (Nat.eq_sub_of_add_eq (hgrid.mpr h).1)
        omega
      refine .inl ⟨hlt, ?_⟩
      simp only [hc, hr, if_true, if_false, hd, hm]
      refine ⟨⟨rfl, ?_, rfl, hs.on.index, hs.on.waitCalculation, rfl⟩, hcore⟩
      exact Nat.mod_eq_of_lt (by omega)
  · obtain ⟨hd, hm⟩ := (div_mod_succ q hpos).2 (by omega)
    have hlt : q + 1 < io.blockARow cfg * io.blockBCol cfg := by
      have hne : q + 1 ≠ io.blockARow cfg * io.blockBCol cfg := fun h =>
        hc (Nat.eq_sub_of_add_eq (hgrid.mpr h).2)
      omega
    refine .inl ⟨hlt, ?_⟩
    simp only [hc, if_false, hd, hm]
    refine ⟨⟨rfl, rfl, ?_, hs.on.index, hs.on.waitCalculation, rfl⟩, hcore⟩
    exact Nat.mod_eq_of_lt (by omega)

end MatrixMultiplication

namespace Layout

variable {cfg : Configs} {d : Dims} (L : Layout cfg d)
include L

theorem sizes_lt : d.blockARow cfg < 2 ^ 32 ∧ d.blockACol cfg < 2 ^ 32 ∧
    d.blockBCol cfg < 2 ^ 32 := by
  have hA := L.regionA
  have hB := L.regionB
  have hC := L.baseC_le
  have hm := cfg.memSize_lt
  have hr := Nat.le_mul_of_pos_right (d.paddedMatARows cfg)
    (Nat.lt_of_lt_of_le L.colsA.pos L.colsA.le)
  have hc := Nat.le_mul_of_pos_left (d.paddedMatACols cfg)
    (Nat.lt_of_lt_of_le L.rowsA.pos L.rowsA.le)
  have hn := Nat.le_mul_of_pos_left (d.paddedMatBCols cfg)
    (Nat.lt_of_lt_of_le L.rowsB.pos L.rowsB.le)
  have h1 := Nat.div_le_self (d.paddedMatARows cfg) cfg.calcCoreSize
  have h2 := Nat.div_le_self (d.paddedMatACols cfg) cfg.calcCoreSize
  have h3 := Nat.div_le_self (d.paddedMatBCols cfg) cfg.calcCoreSize
  simp only [Dims.blockARow, Dims.blockACol, Dims.blockBCol]
  omega

theorem blocks_pos : 0 < d.blockARow cfg ∧ 0 < d.blockACol cfg ∧ 0 < d.blockBCol cfg := by
  have pos : ∀ {n padded}, Padded cfg.calcCoreSize n padded → 0 < padded / cfg.calcCoreSize :=
    fun h => Nat.div_pos (Nat.le_of_dvd (Nat.lt_of_lt_of_le h.pos h.le) h.dvd)
      (Core.calcCoreSize_pos cfg)
  exact ⟨pos L.rowsA, pos L.colsA, pos L.colsB⟩

end Layout

namespace MatrixMultiplication

variable {cfg : Configs} {d : Dims} {s : MatrixMultiplication} {R C : ℕ} {mem : ℕ → BitVec 8}

/-- The accumulators of block `(R, C)` hold the first `n` products. -/
def Holds (cfg : Configs) (d : Dims) (mem : ℕ → BitVec 8) (R C n : ℕ) (acc : ℕ → BitVec 32) :
    Prop :=
  ∀ p < cfg.calcCoreSize * cfg.calcCoreSize, acc p = d.partialSum cfg mem n
    (R * cfg.calcCoreSize + p / cfg.calcCoreSize) (C * cfg.calcCoreSize + p % cfg.calcCoreSize)

theorem Issue.leads_store (L : Layout cfg d) (hR : R < d.blockARow cfg)
    (hC : C < d.blockBCol cfg) (h : Issue R C 0 (fun _ => 0#32) mem s) :
    Leads (Goes cfg d) Busy (fun s' => ∃ acc t, Holds cfg d mem R C (d.paddedMatACols cfg) acc ∧
      Waits cfg d (d.bases cfg R C t) R C 0 false true s' ∧ s'.core.At .store acc mem) s := by
  have hsmall := L.sizes_lt.2.1
  refine Leads.count
    (I := fun t s => ∃ acc, Holds cfg d mem R C (t * cfg.calcCoreSize) acc ∧ Issue R C t acc mem s)
    ?_ L.blocks_pos.2.1 ⟨_, ?_, h⟩
  · rintro t ht s ⟨acc, hacc, hs⟩
    have hload := L.loadable hR hC ht
    have hacc' : Holds cfg d mem R C ((t + 1) * cfg.calcCoreSize) _ := fun p hp =>
      L.accumulated_partialSum hR hC ht hp (hacc p hp)
    refine hs.leads.trans fun s₁ ⟨hw, hat⟩ => ?_
    refine (Leads.lift Waits.sim hw (hat.leads_finish hload)).trans fun s₂ ⟨hw', hat'⟩ => ?_
    by_cases hlast : t + 1 = d.blockACol cfg
    · refine (hw'.next_store hat' hlast hsmall).mono fun s₃ ⟨hw₃, hat₃⟩ => .inr ⟨hlast, ?_⟩
      rw [hlast, L.blockACol_mul] at hacc'
      exact ⟨_, t, hacc', hw₃, hat₃⟩
    · have hlt : t + 1 < d.blockACol cfg := by omega
      exact (hw'.next_index hat' hlt hsmall).mono fun s₃ hs₃ => .inl ⟨hlt, _, hacc', hs₃⟩
  · intro p _
    rw [Nat.zero_mul]
    rfl

/-- The words of the first `q` blocks are there, and nothing below them has changed. -/
structure Done (cfg : Configs) (d : Dims) (mem : ℕ → BitVec 8) (q : ℕ) (mem' : ℕ → BitVec 8) :
    Prop where
  below : ∀ x < cfg.baseAddressC, mem' x = mem x
  word : ∀ r < d.paddedMatARows cfg, ∀ c < d.paddedMatBCols cfg,
    r / cfg.calcCoreSize * d.blockBCol cfg + c / cfg.calcCoreSize < q →
    wordAt mem' (cfg.baseAddressC + 4 * (r * d.paddedMatBCols cfg + c)) = d.total cfg mem r c

theorem total_congr (L : Layout cfg d) {mem' : ℕ → BitVec 8}
    (h : ∀ x < cfg.baseAddressC, mem' x = mem x) {r c : ℕ} (hr : r < d.paddedMatARows cfg)
    (hc : c < d.paddedMatBCols cfg) : d.total cfg mem' r c = d.total cfg mem r c := by
  rw [Dims.total, Dims.total, Dims.partialSum, Dims.partialSum]
  congr 1
  apply sum_congr rfl
  intro k hk
  have hk := mem_range.mp hk
  have hA := index_lt hr hk
  have hB := index_lt (L.paddedInner.symm ▸ hk) hc
  have := L.regionA
  have := L.regionB
  have := L.baseC_le
  have hbase : cfg.baseAddressA = 0 := rfl
  rw [Dims.elemA, Dims.elemA, Dims.elemB, Dims.elemB, h _ (by omega), h _ (by omega)]

theorem Done.store (L : Layout cfg d) {q t : ℕ} {mem' : ℕ → BitVec 8} {acc : ℕ → BitVec 32}
    (hq : q < d.blockARow cfg * d.blockBCol cfg) (h : Done cfg d mem q mem')
    (hacc : Holds cfg d mem' (q / d.blockBCol cfg) (q % d.blockBCol cfg)
      (d.paddedMatACols cfg) acc) :
    Done cfg d mem (q + 1) (Core.stored cfg
      (d.bases cfg (q / d.blockBCol cfg) (q % d.blockBCol cfg) t) acc mem'
      (cfg.calcCoreSize * cfg.calcCoreSize)) := by
  have hN := Core.calcCoreSize_pos cfg
  have hR : q / d.blockBCol cfg < d.blockARow cfg :=
    Nat.div_lt_of_lt_mul (Nat.mul_comm _ _ ▸ hq)
  have hC : q % d.blockBCol cfg < d.blockBCol cfg := Nat.mod_lt q L.blocks_pos.2.2
  have hcol : ∀ p, q % d.blockBCol cfg * cfg.calcCoreSize + p % cfg.calcCoreSize <
      d.paddedMatBCols cfg := by
    intro p
    rw [← L.blockBCol_mul]
    exact index_lt hC (Nat.mod_lt p hN)
  obtain ⟨hword, hother, hbelow⟩ := stored_spec cfg
    (d.bases cfg (q / d.blockBCol cfg) (q % d.blockBCol cfg) t) acc mem'
    (cfg.calcCoreSize * cfg.calcCoreSize) (fun p hp => (L.addressC hR hC hp).1) (by
      intro p _ p' _ hw
      obtain ⟨hrow, hcol'⟩ := index_inj (hcol p) (hcol p') hw
      have hdiv := Nat.div_add_mod p cfg.calcCoreSize
      have hdiv' := Nat.div_add_mod p' cfg.calcCoreSize
      rw [Nat.add_left_cancel hrow, Nat.add_left_cancel hcol'] at hdiv
      omega)
  refine ⟨fun x hx => (hbelow x hx).trans (h.below x hx), fun r hr c hc hlt => ?_⟩
  have hr' : r / cfg.calcCoreSize < d.blockARow cfg := by
    rw [← L.blockARow_mul] at hr
    exact Nat.div_lt_of_lt_mul (Nat.mul_comm _ _ ▸ hr)
  have hc' : c / cfg.calcCoreSize < d.blockBCol cfg := by
    rw [← L.blockBCol_mul] at hc
    exact Nat.div_lt_of_lt_mul (Nat.mul_comm _ _ ▸ hc)
  have hblock := index_div_mod (i := r / cfg.calcCoreSize) hc'
  have hrm := Nat.mod_lt r hN
  have hcm := Nat.mod_lt c hN
  have hr0 := Nat.div_add_mod r cfg.calcCoreSize
  have hc0 := Nat.div_add_mod c cfg.calcCoreSize
  rw [Nat.mul_comm] at hr0 hc0
  by_cases hnew : r / cfg.calcCoreSize * d.blockBCol cfg + c / cfg.calcCoreSize = q
  · -- the cell of this block
    rw [hnew] at hblock
    have hp := index_lt hrm hcm
    have hdm := index_div_mod (i := r % cfg.calcCoreSize) hcm
    have hw := hword _ hp
    have ha := hacc _ hp
    rw [hdm.1, hdm.2, hblock.1, hblock.2, hr0, hc0] at hw ha
    rw [hblock.1, hblock.2, hw, ha]
    exact total_congr L h.below hr hc
  · rw [hother _ ?_]
    · exact h.word r hr c hc (by omega)
    · intro p hp hw
      obtain ⟨hrow, hcol'⟩ := index_inj (hcol p) hc hw
      have hpr := index_div_mod (i := q / d.blockBCol cfg) (Nat.div_lt_of_lt_mul hp)
      have hpc := index_div_mod (i := q % d.blockBCol cfg) (Nat.mod_lt p hN)
      rw [hrow] at hpr
      rw [hcol'] at hpc
      apply hnew
      rw [hpr.1, hpc.1, Nat.mul_comm]
      exact Nat.div_add_mod q _

/-- The blocks, from the operands in the memory to the words of the result. -/
theorem Prepared.leads (L : Layout cfg d) (h : Prepared cfg d mem s) :
    Leads (Goes cfg d) Busy (fun s' => s'.state = .ready ∧ ∃ mem', s'.Rest mem' ∧
      Done cfg d (d.padded cfg mem) (d.blockARow cfg * d.blockBCol cfg) mem') s := by
  obtain ⟨hrows, -, hcols⟩ := L.sizes_lt
  obtain ⟨hrpos, -, hcpos⟩ := L.blocks_pos
  obtain ⟨hs, hr⟩ := h
  refine Leads.count (I := fun q s => ∃ mem', Done cfg d (d.padded cfg mem) q mem' ∧
    Issue (q / d.blockBCol cfg) (q % d.blockBCol cfg) 0 (fun _ => 0#32) mem' s)
    ?_ (Nat.mul_pos hrpos hcpos)
    ⟨_, ⟨fun _ _ => rfl, fun _ _ _ _ h => absurd h (Nat.not_lt_zero _)⟩,
      ⟨hs, ?_, ?_, hr.index, hr.waitCalculation, hr.waitStore⟩, hr.core⟩
  · rintro q hq s ⟨mem', hdone, hissue⟩
    have hR : q / d.blockBCol cfg < d.blockARow cfg :=
      Nat.div_lt_of_lt_mul (Nat.mul_comm _ _ ▸ hq)
    have hC := Nat.mod_lt q hcpos
    refine (hissue.leads_store L hR hC).trans fun s₁ ⟨acc, t, hacc, hw, hat⟩ => ?_
    have hstore := hat.leads_stored (L.storable (t := t) hR hC)
    refine (Leads.lift Waits.sim hw hstore).trans fun s₂ ⟨hw', hat'⟩ => ?_
    have hdone' := hdone.store (t := t) L hq hacc
    refine (hw'.next_block hq hat' hrows hcols).mono fun s₃ hs₃ => ?_
    rcases hs₃ with ⟨hlt, hi⟩ | ⟨hlast, hready, on, hcore⟩
    · exact .inl ⟨hlt, _, hdone', hi⟩
    · exact .inr ⟨hlast, hready, _, ⟨on.currentBlockRow, on.currentBlockCol, on.index,
        on.waitCalculation, on.waitStore, hcore⟩, hlast ▸ hdone'⟩
  · rw [Nat.zero_div, hr.currentBlockRow]
  · rw [Nat.zero_mod, hr.currentBlockCol]

end MatrixMultiplication

end Course.Gemm
