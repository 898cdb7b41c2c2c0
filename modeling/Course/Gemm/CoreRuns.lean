import Course.Gemm.MatrixMultiplicationCore
import Course.Lib.Grid
import Course.Lib.Leads

/-! What a core does from a start or a store to the next `finish`, whatever its user
puts on the data and address lines meanwhile. -/

namespace Course.Gemm

open Course.Lib

structure CoreInput.Quiet (io : CoreInput) : Prop where
  start : io.start = false
  store : io.store = false
  writeEnable : io.writeEnable = false

theorem vecDotProduct_congr {cfg : Configs} {u u' v v' : ℕ → BitVec 8}
    (hu : ∀ x < cfg.calcCoreSize, u x = u' x) (hv : ∀ x < cfg.calcCoreSize, v x = v' x) :
    vecDotProduct cfg u v = vecDotProduct cfg u' v' := by
  simp only [vecDotProduct]
  congr 1
  apply Finset.sum_congr rfl
  intro x hx
  rw [hu x (Finset.mem_range.mp hx), hv x (Finset.mem_range.mp hx)]

namespace Core

variable {cfg : Configs} {b : Bases} {acc : ℕ → BitVec 32} {mem : ℕ → BitVec 8}

/-- A cycle of the core while it works. -/
def Goes (cfg : Configs) (b : Bases) (s t : Core) : Prop :=
  ∃ (io : CoreInput) (undef : Undef), io.toBases = b ∧ io.Quiet ∧ t = s.next cfg io undef

def Working (s : Core) : Prop := s.state ≠ .finish

/-- The counters are where reset puts them. -/
structure At (st : CoreState) (acc : ℕ → BitVec 32) (mem : ℕ → BitVec 8) (s : Core) : Prop where
  state : s.state = st
  currentRow : s.currentRow = 0
  currentCol : s.currentCol = 0
  loadState : s.loadState = .loadRow
  index : s.index = 0
  waitMem : s.waitMem = true
  accumulator : s.accumulator = acc
  memory : s.memory.mem = mem

section
variable (cfg : Configs) (b : Bases) (acc : ℕ → BitVec 32) (mem : ℕ → BitVec 8)

def operandA (r x : ℕ) : BitVec 8 :=
  mem ((b.baseAddressA + r * b.rowAddrDiffA + x) % 2 ^ cfg.addrWidth)

def operandB (x c : ℕ) : BitVec 8 :=
  mem ((b.baseAddressB + x * b.rowAddrDiffB + c) % 2 ^ cfg.addrWidth)

def dotCell (e : ℕ) : BitVec 32 :=
  vecDotProduct cfg (operandA cfg b mem (e / cfg.calcCoreSize))
    (operandB cfg b mem · (e % cfg.calcCoreSize))

/-- The accumulators after the first `p` cells. -/
def accumulated (p e : ℕ) : BitVec 32 := if e < p then acc e + dotCell cfg b mem e else acc e

/-- The operands of the block lie in the memory. -/
structure Loadable : Prop where
  rows : ∀ r < cfg.calcCoreSize, ∀ x < cfg.calcCoreSize,
    (b.baseAddressA + r * b.rowAddrDiffA + x) % 2 ^ cfg.addrWidth < cfg.memSize
  cols : ∀ x < cfg.calcCoreSize, ∀ c < cfg.calcCoreSize,
    (b.baseAddressB + x * b.rowAddrDiffB + c) % 2 ^ cfg.addrWidth < cfg.memSize

/-- Cell `p` is next. -/
structure Cell (p : ℕ) (s : Core) : Prop where
  currentRow : s.currentRow = p / cfg.calcCoreSize
  currentCol : s.currentCol = p % cfg.calcCoreSize
  accumulator : s.accumulator = accumulated cfg b acc mem p
  waitMem : s.waitMem = true
  memory : s.memory.mem = mem

/-- The first `j` bytes of the row of cell `p` are there. -/
structure LoadingRow (p j : ℕ) (s : Core) : Prop extends Cell cfg b acc mem p s where
  state : s.state = .load
  loadState : s.loadState = .loadRow
  index : s.index = j
  row : ∀ x < j, s.bufferRow x = operandA cfg b mem (p / cfg.calcCoreSize) x

structure LoadingCol (p j : ℕ) (s : Core) : Prop extends Cell cfg b acc mem p s where
  state : s.state = .load
  loadState : s.loadState = .loadCol
  index : s.index = j
  row : ∀ x < cfg.calcCoreSize,
    s.bufferRow x = operandA cfg b mem (p / cfg.calcCoreSize) x
  col : ∀ x < j, s.bufferCol x = operandB cfg b mem x (p % cfg.calcCoreSize)

structure Multiplying (p : ℕ) (s : Core) : Prop extends Cell cfg b acc mem p s where
  state : s.state = .busy
  index : s.index = 0
  row : ∀ x < cfg.calcCoreSize,
    s.bufferRow x = operandA cfg b mem (p / cfg.calcCoreSize) x
  col : ∀ x < cfg.calcCoreSize,
    s.bufferCol x = operandB cfg b mem x (p % cfg.calcCoreSize)

end

theorem next_eq (s : Core) (io : CoreInput) (undef : Undef) :
    s.next cfg io undef =
      { s.fsm cfg io with memory := s.memory.next cfg (s.memoryInput cfg io) undef } := rfl

theorem memoryInput_load (cfg : Configs) {s : Core} {io : CoreInput} (hs : s.state = .load)
    (hq : io.Quiet) : (s.memoryInput cfg io).dataSize = .byteOp ∧
      (s.memoryInput cfg io).writeEnable = false ∧
      (s.memoryInput cfg io).address = s.loadAddress cfg io.toBases := by
  simp [memoryInput, hs, hq.writeEnable]

/-- The second cycle of a byte. -/
theorem next_loaded {s : Core} {io : CoreInput} (undef : Undef) (hs : s.state = .load)
    (hw : s.waitMem = false) (hq : io.Quiet) :
    ∃ m : Memory, m.mem = s.memory.mem ∧ s.next cfg io undef =
      { s.loaded cfg ((s.memory.dataOut .byteOp).setWidth 8) with memory := m } := by
  have hread := (memoryInput_load cfg hs hq).2.1
  refine ⟨s.memory.next cfg (s.memoryInput cfg io) undef,
    Memory.next_mem_of_read cfg _ undef hread, ?_⟩
  rw [next_eq, fsm]
  simp only [hs, loadNext, hw, Bool.false_eq_true, if_false, dataOut,
    (memoryInput_load cfg hs hq).1]

theorem leads_loaded {s : Core} (hs : s.state = .load) (hw : s.waitMem = true)
    (ha : s.loadAddress cfg b < cfg.memSize) :
    Leads (Goes cfg b) Working (fun t => ∃ m : Memory, m.mem = s.memory.mem ∧
      t = { s.loaded cfg (s.memory.mem (s.loadAddress cfg b)) with memory := m }) s := by
  refine .later (by simp [Working, hs]) ?_
  rintro t ⟨io, undef, rfl, hq, rfl⟩
  obtain ⟨hsize, hread, haddr⟩ := memoryInput_load cfg hs hq
  have hfsm : s.fsm cfg io = { s with waitMem := false } := by
    simp [fsm, hs, loadNext, hw]
  have hdata := Memory.dataOut_byte s.memory undef hsize hread (haddr ▸ ha)
  have hmem := Memory.next_mem_of_read cfg s.memory undef hread
  rw [next_eq, hfsm]
  refine .step (by simp [Working, hs]) ?_
  rintro t ⟨io', undef', -, hq', rfl⟩
  obtain ⟨m, hm, hnext⟩ := next_loaded (s := { s with
    waitMem := false, memory := s.memory.next cfg (s.memoryInput cfg io) undef }) undef' hs rfl hq'
  refine ⟨m, hm.trans hmem, hnext.trans ?_⟩
  rw [hdata, haddr]
  cases hl : s.loadState <;> simp [loaded, hl]

theorem LoadingRow.byte {p j : ℕ} {s : Core} (hL : Loadable cfg b)
    (hp : p / cfg.calcCoreSize < cfg.calcCoreSize) (hj : j < cfg.calcCoreSize)
    (h : LoadingRow cfg b acc mem p j s) :
    Leads (Goes cfg b) Working (fun t =>
      (j + 1 < cfg.calcCoreSize ∧ LoadingRow cfg b acc mem p (j + 1) t) ∨
      (j + 1 = cfg.calcCoreSize ∧ LoadingCol cfg b acc mem p 0 t)) s := by
  have haddr : s.loadAddress cfg b =
      (b.baseAddressA + p / cfg.calcCoreSize * b.rowAddrDiffA + j) % 2 ^ cfg.addrWidth := by
    simp [loadAddress, h.loadState, h.currentRow, h.index]
  refine (leads_loaded h.state h.waitMem (haddr ▸ hL.rows _ hp _ hj)).mono ?_
  rintro t ⟨m, hm, rfl⟩
  rw [haddr, h.memory]
  have hrow : ∀ x < j + 1, Function.update s.bufferRow j
      (operandA cfg b mem (p / cfg.calcCoreSize) j) x =
        operandA cfg b mem (p / cfg.calcCoreSize) x := by
    intro x hx
    by_cases hxj : x = j
    · simp [hxj]
    · rw [Function.update_of_ne hxj, h.row x (by omega)]
  by_cases hlast : j + 1 = cfg.calcCoreSize
  · have hj' : s.index = cfg.calcCoreSize - 1 := by rw [h.index]; omega
    refine .inr ⟨hlast, ?_⟩
    constructor <;> simp only [loaded, h.loadState, hj', if_true, h.state]
    · exact ⟨h.currentRow, h.currentCol, h.accumulator, rfl, hm.trans h.memory⟩
    · rw [← hj', h.index]
      exact hlast ▸ hrow
    · exact nofun
  · have hj' : ¬s.index = cfg.calcCoreSize - 1 := by rw [h.index]; omega
    refine .inl ⟨by omega, ?_⟩
    constructor <;> simp only [loaded, h.loadState, hj', if_false, h.state]
    · exact ⟨h.currentRow, h.currentCol, h.accumulator, rfl, hm.trans h.memory⟩
    · rw [h.index, Nat.mod_eq_of_lt (by omega)]
    · rw [h.index]
      exact hrow

theorem LoadingCol.byte {p j : ℕ} {s : Core} (hL : Loadable cfg b)
    (hp : p % cfg.calcCoreSize < cfg.calcCoreSize) (hj : j < cfg.calcCoreSize)
    (h : LoadingCol cfg b acc mem p j s) :
    Leads (Goes cfg b) Working (fun t =>
      (j + 1 < cfg.calcCoreSize ∧ LoadingCol cfg b acc mem p (j + 1) t) ∨
      (j + 1 = cfg.calcCoreSize ∧ Multiplying cfg b acc mem p t)) s := by
  have haddr : s.loadAddress cfg b =
      (b.baseAddressB + j * b.rowAddrDiffB + p % cfg.calcCoreSize) % 2 ^ cfg.addrWidth := by
    simp [loadAddress, h.loadState, h.currentCol, h.index]
  refine (leads_loaded h.state h.waitMem (haddr ▸ hL.cols _ hj _ hp)).mono ?_
  rintro t ⟨m, hm, rfl⟩
  rw [haddr, h.memory]
  have hcol : ∀ x < j + 1, Function.update s.bufferCol j
      (operandB cfg b mem j (p % cfg.calcCoreSize)) x =
        operandB cfg b mem x (p % cfg.calcCoreSize) := by
    intro x hx
    by_cases hxj : x = j
    · simp [hxj]
    · rw [Function.update_of_ne hxj, h.col x (by omega)]
  by_cases hlast : j + 1 = cfg.calcCoreSize
  · have hj' : s.index = cfg.calcCoreSize - 1 := by rw [h.index]; omega
    refine .inr ⟨hlast, ?_⟩
    constructor <;> simp only [loaded, h.loadState, hj', if_true]
    · exact ⟨h.currentRow, h.currentCol, h.accumulator, rfl, hm.trans h.memory⟩
    · exact h.row
    · rw [← hj', h.index]
      exact hlast ▸ hcol
  · have hj' : ¬s.index = cfg.calcCoreSize - 1 := by rw [h.index]; omega
    refine .inl ⟨by omega, ?_⟩
    constructor <;> simp only [loaded, h.loadState, hj', if_false]
    · exact ⟨h.currentRow, h.currentCol, h.accumulator, rfl, hm.trans h.memory⟩
    · exact h.state
    · rw [h.index, Nat.mod_eq_of_lt (by omega)]
    · exact h.row
    · rw [h.index]
      exact hcol

theorem calcCoreSize_pos (cfg : Configs) : 0 < cfg.calcCoreSize := by
  have := cfg.two_le
  omega

theorem lastCell_iff {p : ℕ} {s : Core} (hr : s.currentRow = p / cfg.calcCoreSize)
    (hc : s.currentCol = p % cfg.calcCoreSize) :
    s.lastCell cfg = true ↔ p + 1 = cfg.calcCoreSize * cfg.calcCoreSize := by
  have hpos := calcCoreSize_pos cfg
  rw [← last_of_grid hpos]
  simp only [lastCell, lastCol, hr, hc, Bool.and_eq_true, decide_eq_true_eq]
  omega

theorem nextCell_of_last {s : Core} (h : s.lastCell cfg = true) :
    s.nextCell cfg = { s with currentCol := 0, currentRow := 0 } := by
  simp only [lastCell, lastCol, Bool.and_eq_true, decide_eq_true_eq] at h
  simp [nextCell, h]

theorem nextCell_of_lt {p : ℕ} {s : Core} (hr : s.currentRow = p / cfg.calcCoreSize)
    (hc : s.currentCol = p % cfg.calcCoreSize)
    (hp : p + 1 < cfg.calcCoreSize * cfg.calcCoreSize) :
    s.nextCell cfg = { s with
      currentRow := (p + 1) / cfg.calcCoreSize, currentCol := (p + 1) % cfg.calcCoreSize } := by
  have hpos := calcCoreSize_pos cfg
  have hrow : (p + 1) / cfg.calcCoreSize < cfg.calcCoreSize := Nat.div_lt_of_lt_mul hp
  have hcol : (p + 1) % cfg.calcCoreSize < cfg.calcCoreSize := Nat.mod_lt _ hpos
  by_cases h : p % cfg.calcCoreSize = cfg.calcCoreSize - 1
  · obtain ⟨hd, hm⟩ := (div_mod_succ p hpos).1 (by omega)
    rw [hd] at hrow
    have hr' : ¬p / cfg.calcCoreSize = cfg.calcCoreSize - 1 := by omega
    simp only [nextCell, hr, hc, h, hr', if_true, if_false, hd, hm, Nat.mod_eq_of_lt hrow]
  · obtain ⟨hd, hm⟩ := (div_mod_succ p hpos).2 (by omega)
    rw [hm] at hcol
    simp only [nextCell, hc, h, if_false, hd, hm, Nat.mod_eq_of_lt hcol, ← hr]

theorem accumulated_succ {p : ℕ} :
    Function.update (accumulated cfg b acc mem p) p (acc p + dotCell cfg b mem p) =
      accumulated cfg b acc mem (p + 1) := by
  funext e
  by_cases he : e = p
  · subst he
    simp [accumulated]
  · have : e < p + 1 ↔ e < p := by omega
    rw [Function.update_of_ne he, accumulated, accumulated]
    simp [this]

/-- Where the load of a cell starts: a row is loaded for its first cell only. -/
def Started (cfg : Configs) (b : Bases) (acc : ℕ → BitVec 32) (mem : ℕ → BitVec 8) (p : ℕ)
    (s : Core) : Prop :=
  (p % cfg.calcCoreSize = 0 ∧ LoadingRow cfg b acc mem p 0 s) ∨
  (p % cfg.calcCoreSize ≠ 0 ∧ LoadingCol cfg b acc mem p 0 s)

theorem Started.leads {p : ℕ} {s : Core} (hL : Loadable cfg b)
    (hp : p < cfg.calcCoreSize * cfg.calcCoreSize) (h : Started cfg b acc mem p s) :
    Leads (Goes cfg b) Working (Multiplying cfg b acc mem p) s := by
  have hpos := calcCoreSize_pos cfg
  have hcol : ∀ t, LoadingCol cfg b acc mem p 0 t →
      Leads (Goes cfg b) Working (Multiplying cfg b acc mem p) t := fun t ht =>
    Leads.count (fun j hj t ht => ht.byte hL (Nat.mod_lt p hpos) hj) hpos ht
  rcases h with ⟨-, h⟩ | ⟨-, h⟩
  · have hrow : Leads (Goes cfg b) Working (LoadingCol cfg b acc mem p 0) s :=
      Leads.count (fun j hj t ht => ht.byte hL (Nat.div_lt_of_lt_mul hp) hj) hpos h
    exact hrow.trans hcol
  · exact hcol s h

theorem Multiplying.dot {p : ℕ} {s : Core} (h : Multiplying cfg b acc mem p s) :
    vecDotProduct cfg s.bufferRow s.bufferCol = dotCell cfg b mem p :=
  vecDotProduct_congr h.row h.col

theorem next_busy (cfg : Configs) {s : Core} {io : CoreInput} (undef : Undef) (hs : s.state = .busy)
    (hq : io.Quiet) : ∃ m : Memory, m.mem = s.memory.mem ∧
      s.next cfg io undef = { s.busyNext cfg with memory := m } := by
  refine ⟨s.memory.next cfg (s.memoryInput cfg io) undef,
    Memory.next_mem_of_read cfg _ undef ?_, ?_⟩
  · simp [memoryInput, hs, hq.writeEnable]
  · simp [next_eq, fsm, hs]

theorem Multiplying.leads {p : ℕ} {s : Core} (hp : p < cfg.calcCoreSize * cfg.calcCoreSize)
    (h : Multiplying cfg b acc mem p s) :
    Leads (Goes cfg b) Working (fun t =>
      (p + 1 < cfg.calcCoreSize * cfg.calcCoreSize ∧ Started cfg b acc mem (p + 1) t) ∨
      (p + 1 = cfg.calcCoreSize * cfg.calcCoreSize ∧
        At .finish (accumulated cfg b acc mem (p + 1)) mem t)) s := by
  refine .step (by simp [Working, h.state]) ?_
  rintro t ⟨io, undef, -, hq, rfl⟩
  obtain ⟨m, hm, ht⟩ := next_busy cfg undef h.state hq
  rw [ht]
  have hcell : s.cell cfg = p := by
    rw [cell, h.currentRow, h.currentCol, Nat.mul_comm]
    exact Nat.div_add_mod p _
  have hacc : Function.update s.accumulator (s.cell cfg)
      (s.accumulator (s.cell cfg) + vecDotProduct cfg s.bufferRow s.bufferCol) =
        accumulated cfg b acc mem (p + 1) := by
    rw [hcell, h.dot, h.accumulator, ← accumulated_succ]
    simp [accumulated]
  have hpos := calcCoreSize_pos cfg
  by_cases hlast : p + 1 = cfg.calcCoreSize * cfg.calcCoreSize
  · have hl := (lastCell_iff h.currentRow h.currentCol).mpr hlast
    have hc : s.lastCol cfg = true := ((Bool.and_eq_true _ _).mp hl).1
    refine .inr ⟨hlast, ?_⟩
    constructor <;> simp only [busyNext, nextCell_of_last hl, hl, hc, if_true]
    · exact h.index
    · exact h.waitMem
    · exact hacc
    · exact hm.trans h.memory
  · have hlt : p + 1 < cfg.calcCoreSize * cfg.calcCoreSize := by omega
    have hl : s.lastCell cfg = false := by
      rw [← Bool.not_eq_true, lastCell_iff h.currentRow h.currentCol]
      exact hlast
    have hnext := nextCell_of_lt h.currentRow h.currentCol hlt
    have hCell : Cell cfg b acc mem (p + 1) { s.busyNext cfg with memory := m } := by
      constructor <;> simp only [busyNext, hnext]
      · exact hacc
      · exact h.waitMem
      · exact hm.trans h.memory
    refine .inl ⟨hlt, ?_⟩
    by_cases hc : p % cfg.calcCoreSize = cfg.calcCoreSize - 1
    · have hc' : s.lastCol cfg = true := by simp [lastCol, h.currentCol, hc]
      refine .inl ⟨((div_mod_succ p hpos).1 (by omega)).2, hCell, ?_, ?_, ?_, nofun⟩
      · simp [busyNext, hl]
      · simp [busyNext, hc']
      · simp [busyNext, hnext, h.index]
    · have hc' : s.lastCol cfg = false := by simp [lastCol, h.currentCol, hc]
      obtain ⟨hd, hm'⟩ := (div_mod_succ p hpos).2 (by omega)
      refine .inr ⟨by omega, hCell, ?_, ?_, ?_, ?_, nofun⟩
      · simp [busyNext, hl]
      · simp [busyNext, hc']
      · simp [busyNext, hnext, h.index]
      · simp only [busyNext, hnext, hd]
        exact h.row

/-- A calculation adds the products of the block to the accumulators. -/
theorem At.leads_finish {s : Core} (hL : Loadable cfg b) (h : At .load acc mem s) :
    Leads (Goes cfg b) Working
      (At .finish (accumulated cfg b acc mem (cfg.calcCoreSize * cfg.calcCoreSize)) mem) s := by
  have hpos := calcCoreSize_pos cfg
  have h0 : Started cfg b acc mem 0 s := by
    refine .inl ⟨Nat.zero_mod _, ⟨?_, ?_, ?_, h.waitMem, h.memory⟩, h.state, h.loadState,
      h.index, nofun⟩
    · simp [h.currentRow]
    · simp [h.currentCol]
    · rw [h.accumulator]
      funext e
      simp [accumulated]
  refine Leads.count (fun p hp t ht => ?_) (Nat.mul_pos hpos hpos) h0
  refine (ht.leads hL hp).trans fun t' ht' => (ht'.leads hp).mono ?_
  rintro u (hu | ⟨he, hu⟩)
  · exact .inl hu
  · exact .inr ⟨he, he ▸ hu⟩

section
variable (cfg : Configs) (b : Bases) (acc : ℕ → BitVec 32) (mem : ℕ → BitVec 8)

def cellAddress (p : ℕ) : ℕ :=
  (b.baseAddressC + p / cfg.calcCoreSize * b.rowAddrDiffC + p % cfg.calcCoreSize * 4) %
    2 ^ cfg.addrWidth

/-- The memory after the first `p` accumulators have been stored. -/
def stored : ℕ → ℕ → BitVec 8
  | 0 => mem
  | p + 1 => writeWord (stored p) (cellAddress cfg b p) (acc p)

def Storable : Prop :=
  ∀ p < cfg.calcCoreSize * cfg.calcCoreSize, cellAddress cfg b p + 3 < cfg.memSize

structure Storing (p : ℕ) (s : Core) : Prop where
  state : s.state = .store
  currentRow : s.currentRow = p / cfg.calcCoreSize
  currentCol : s.currentCol = p % cfg.calcCoreSize
  loadState : s.loadState = .loadRow
  index : s.index = 0
  waitMem : s.waitMem = true
  accumulator : s.accumulator = acc
  memory : s.memory.mem = stored cfg b acc mem p

end

theorem Storing.leads {p : ℕ} {s : Core} (hS : Storable cfg b)
    (hp : p < cfg.calcCoreSize * cfg.calcCoreSize) (h : Storing cfg b acc mem p s) :
    Leads (Goes cfg b) Working (fun t =>
      (p + 1 < cfg.calcCoreSize * cfg.calcCoreSize ∧ Storing cfg b acc mem (p + 1) t) ∨
      (p + 1 = cfg.calcCoreSize * cfg.calcCoreSize ∧
        At .finish (fun _ => 0#32) (stored cfg b acc mem (p + 1)) t)) s := by
  refine .step (by simp [Working, h.state]) ?_
  rintro t ⟨io, undef, rfl, -, rfl⟩
  have hcell : s.cell cfg = p := by
    rw [cell, h.currentRow, h.currentCol, Nat.mul_comm]
    exact Nat.div_add_mod p _
  have haddr : (s.memoryInput cfg io).address = cellAddress cfg io.toBases p := by
    simp [memoryInput, h.state, storeAddress, h.currentRow, h.currentCol, cellAddress]
  have hmem : (s.memory.next cfg (s.memoryInput cfg io) undef).mem =
      stored cfg io.toBases acc mem (p + 1) := by
    rw [Memory.next_mem_word (by simp [memoryInput, h.state]) (by simp [memoryInput, h.state])
      (haddr ▸ hS p hp), haddr, h.memory, stored]
    simp [memoryInput, h.state, hcell, h.accumulator]
  by_cases hlast : p + 1 = cfg.calcCoreSize * cfg.calcCoreSize
  · have hl := (lastCell_iff h.currentRow h.currentCol).mpr hlast
    refine .inr ⟨hlast, ?_⟩
    constructor <;>
      simp only [next_eq, fsm, h.state, storeNext, hl, if_true, nextCell_of_last hl]
    · exact h.loadState
    · exact h.index
    · exact h.waitMem
    · exact hmem
  · have hlt : p + 1 < cfg.calcCoreSize * cfg.calcCoreSize := by omega
    have hl : s.lastCell cfg = false := by
      rw [← Bool.not_eq_true, lastCell_iff h.currentRow h.currentCol]
      exact hlast
    have hnext := nextCell_of_lt h.currentRow h.currentCol hlt
    refine .inl ⟨hlt, ?_⟩
    constructor <;>
      simp only [next_eq, fsm, h.state, storeNext, hl, Bool.false_eq_true, if_false, hnext]
    · exact h.loadState
    · exact h.index
    · exact h.waitMem
    · exact h.accumulator
    · exact hmem

/-- A store writes every accumulator and clears them all. -/
theorem At.leads_stored {s : Core} (hS : Storable cfg b) (h : At .store acc mem s) :
    Leads (Goes cfg b) Working
      (At .finish (fun _ => 0#32)
        (stored cfg b acc mem (cfg.calcCoreSize * cfg.calcCoreSize))) s := by
  have hpos := calcCoreSize_pos cfg
  have h0 : Storing cfg b acc mem 0 s := by
    refine ⟨h.state, ?_, ?_, h.loadState, h.index, h.waitMem, h.accumulator, h.memory⟩
    · simp [h.currentRow]
    · simp [h.currentCol]
  refine Leads.count (fun p hp t ht => (ht.leads hS hp).mono ?_) (Nat.mul_pos hpos hpos) h0
  rintro u (hu | ⟨he, hu⟩)
  · exact .inl hu
  · exact .inr ⟨he, he ▸ hu⟩

theorem low_byte (d : BitVec 8) : (d.setWidth 32).extractLsb' 0 8 = d := by
  ext i hi
  have : i < 32 := by omega
  simp [this, BitVec.getLsbD_eq_getElem hi]

/-- The orders that a core takes between two tasks. -/
theorem At.order {st : CoreState} {s : Core} (cfg : Configs) (io : CoreInput) (undef : Undef)
    (h : At st acc mem s) (hst : st = .ready ∨ st = .finish) :
    At (if io.store then .store else if st = .ready ∧ io.start = true then .load else .ready) acc
      (s.next cfg io undef).memory.mem (s.next cfg io undef) := by
  rcases hst with rfl | rfl <;>
    constructor <;> simp only [next_eq, fsm, h.state]
  all_goals first
    | exact h.currentRow
    | exact h.currentCol
    | exact h.loadState
    | exact h.index
    | exact h.waitMem
    | exact h.accumulator
    | simp

theorem At.memoryInput {st : CoreState} {s : Core} (cfg : Configs) (io : CoreInput)
    (h : At st acc mem s) (hst : st = .ready ∨ st = .finish) : s.memoryInput cfg io =
      { dataIn := io.dataIn.setWidth 32
        address := io.address
        dataSize := if io.writeEnable then .byteOp else .wordOp
        writeEnable := io.writeEnable } := by
  rcases hst with rfl | rfl <;> simp [Core.memoryInput, h.state]

theorem At.next_mem_of_read {st : CoreState} {s : Core} (cfg : Configs) {io : CoreInput}
    (undef : Undef) (h : At st acc mem s) (hst : st = .ready ∨ st = .finish)
    (hw : io.writeEnable = false) :
    (s.next cfg io undef).memory.mem = mem := by
  rw [next_eq]
  simp only
  rw [h.memoryInput cfg io hst, Memory.next_mem_of_read _ _ _ (by simp [hw]), h.memory]

theorem At.next_mem_of_write {st : CoreState} {s : Core} (cfg : Configs) {io : CoreInput}
    (undef : Undef) (h : At st acc mem s) (hst : st = .ready ∨ st = .finish)
    (hw : io.writeEnable = true) (ha : io.address < cfg.memSize) :
    (s.next cfg io undef).memory.mem = Function.update mem io.address io.dataIn := by
  rw [next_eq]
  simp only
  rw [h.memoryInput cfg io hst, Memory.next_mem_byte (by simp [hw]) hw ha, h.memory, low_byte]

end Core

end Course.Gemm
