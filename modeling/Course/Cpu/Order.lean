import Course.Cpu.Simulation

/-! One cycle keeps the instructions of the pipeline in the order of the program. -/

namespace Course.Cpu.Arch

variable {board : Board} {s : Arch}

theorem step_PC_taken (h : s.taken board = true) : (s.step board).PC = s.branchAddr board :=
  if_pos h

theorem step_PC_jump (h : s.taken board = false) (hjump : (s.instruction board).jump = true) :
    (s.step board).PC = s.jumpAddr board := by
  rw [step, nextPC, h, if_neg (by decide), if_pos hjump]

theorem step_PC_next (h : s.taken board = false) (hjump : (s.instruction board).jump = false) :
    (s.step board).PC = s.PC + 4#32 := by
  rw [step, nextPC, h, hjump, if_neg (by decide), if_neg (by decide)]

/-- A branch is no jump. -/
theorem not_jump_of_taken (h : s.taken board = true) :
    (s.instruction board).jump = false := by
  have hop : ∀ opCode, (opCode == OP_BEQ || opCode == OP_BNE) = true →
      (opCode == OP_RTYPE) = false ∧ (opCode == OP_J) = false ∧ (opCode == OP_JAL) = false := by
    decide
  have hbranch : ((s.instruction board).opCode == OP_BEQ ||
      (s.instruction board).opCode == OP_BNE) = true := by
    rw [Bool.or_eq_true]
    rw [taken, Bool.or_eq_true, Bool.and_eq_true, Bool.and_eq_true] at h
    exact h.imp And.left And.left
  obtain ⟨hr, hj, hjal⟩ := hop _ hbranch
  simp [Word.jump, Word.branchControl, Cpu.branchControl, hr, hj, hjal]

end Course.Cpu.Arch

namespace Course.Cpu.Pipeline

open Word Arch

variable {board : Board} {t : Top} {s : Arch} {r : Reg} {vW vE vD vF : Bool}

/-! ### What a cycle does -/

namespace Top

/-- Before the asynchronous inputs are seen. -/
abbrev edge (board : Board) (t : Top) : Top := t.posedge.negedge board

theorem edge_PC : (t.edge board).PC =
    if t.exmem.branch then t.exmem.branchAddr else if t.idex.jump then t.idex.jumpAddr
    else if t.MEM_stall then t.PC else follow (t.posedge.fetched board) := rfl

theorem edge_ifid : (t.edge board).ifid =
    if t.flushIF then .reset else if t.MEM_stall then t.ifid else t.posedge.fetched board := rfl

theorem edge_idex : (t.edge board).idex =
    if t.flushID then .reset else if t.MEM_stall then t.idex else t.posedge.id := rfl

theorem edge_exmem : (t.edge board).exmem = if t.MEM_stall then .reset else t.ex := rfl

theorem cycle_exmem (hstall : t.MEM_stall = false) : (t.cycle board).exmem = t.ex :=
  if_neg (Bool.not_eq_true _ ▸ hstall)

theorem cycle_eq : t.cycle board = t.settle (t.edge board) := rfl

theorem settle_quiet {t' : Top} (hbranch : t'.exmem.branch = false)
    (hpredict : t'.exmem.predictCorrect = true) (hjump : t'.idex.jump = true → t.idex.jump = true) :
    t.settle t' = t' := by
  have hIF : (t'.flushIF && !t.flushIF) = false := by
    cases hj : t'.idex.jump with
    | true => simp [flushIF, hpredict, hj, hjump hj]
    | false => simp [flushIF, hpredict, hj]
  have hPC : (t'.exmem.branch && !t.exmem.branch || t'.idex.jump && !t.idex.jump) = false := by
    cases hj : t'.idex.jump with
    | true => simp [hbranch, hjump hj]
    | false => simp [hbranch]
  rw [settle, hIF, hPC, flushID, hpredict]
  rfl

theorem settle_branch {t' : Top} (hbranch : t'.exmem.branch = true)
    (hpredict : t'.exmem.predictCorrect = false) (hbranch' : t.exmem.branch = false)
    (hpredict' : t.exmem.predictCorrect = true) (hjump' : t.idex.jump = false) :
    t.settle t' = { t' with PC := t'.exmem.branchAddr, ifid := .reset, idex := .reset } := by
  simp [settle, flushIF, flushID, hbranch, hpredict, hbranch', hpredict', hjump']

theorem settle_jump {t' : Top} (hbranch : t'.exmem.branch = false)
    (hpredict : t'.exmem.predictCorrect = true) (hjump : t'.idex.jump = true)
    (hpredict' : t.exmem.predictCorrect = true) (hjump' : t.idex.jump = false) :
    t.settle t' = { t' with PC := t'.idex.jumpAddr, ifid := .reset } := by
  simp [settle, flushIF, flushID, hbranch, hpredict, hjump, hpredict', hjump']

end Top

/-! ### Execution and decoding -/

theorem BufferIDEX.Bubble.acts {b : BufferIDEX} (h : b.Bubble) : b.acts = false := by
  rw [BufferIDEX.acts, h.regWrite, h.memWrite, h.beq, h.bne]
  rfl

theorem BufferIDEX.Bubble.reads1 {b : BufferIDEX} (h : b.Bubble) : b.reads1 = false := by
  rw [BufferIDEX.reads1, h.acts]
  rfl

theorem BufferIDEX.Bubble.reads2 {b : BufferIDEX} (h : b.Bubble) : b.reads2 = false := by
  rw [BufferIDEX.reads2, h.acts, h.memWrite]
  rfl

theorem id_reads1 (h : t.posedge.id.reads1 = true) :
    Reads t.ifid.instruction t.ifid.instruction.rs := by
  have huses : uses1 t.ifid.instruction.ALUCtr = true := (Bool.and_eq_true_iff.mp h).2
  exact .inl ⟨by rw [Word.reads1, huses, Bool.true_or], rfl⟩

theorem id_reads2 (h : t.posedge.id.reads2 = true) :
    Reads t.ifid.instruction t.ifid.instruction.rt := by
  refine .inr ⟨?_, rfl⟩
  rw [BufferIDEX.reads2, Bool.or_eq_true] at h
  rw [Word.reads2, Bool.or_eq_true]
  apply h.imp_left
  intro huses
  rw [Bool.and_assoc, Bool.and_eq_true] at huses
  exact huses.2


namespace Inv

theorem branchE (h : Inv board t s vW vE vD vF) :
    t.exmem.branch = (vE && (s.next board vW).taken board) := by
  have hex := h.exmem
  cases vE with
  | true =>
    obtain ⟨data, hex, -⟩ := hex
    rw [hex]
    rfl
  | false => exact hex.branch

theorem predictE (h : Inv board t s vW vE vD vF) :
    t.exmem.predictCorrect = !t.exmem.branch := by
  have hex := h.exmem
  cases vE with
  | true =>
    obtain ⟨data, hex, -⟩ := hex
    rw [hex]
    rfl
  | false => rw [hex.predictCorrect, hex.branch]; rfl

theorem jumpD_eq (h : Inv board t s vW vE vD vF) : t.idex.jump =
    (vD && (((s.next board vW).next board vE).instruction board).jump) := by
  cases vD with
  | true =>
    rw [h.fields]
    rfl
  | false => exact BufferIDEX.Bubble.jump h.idex

theorem branchTaken (h : Inv board t s vW vE true vF) (hclear : DataClear t)
    (hstall : t.MEM_stall = false) :
    t.branchTaken = ((s.next board vW).next board vE).taken board := by
  rw [Top.branchTaken, Top.zero, h.result hclear hstall, h.fields]
  rfl

theorem predictCorrect (h : Inv board t s vW vE true vF) :
    t.predictCorrect = !t.branchTaken := by
  have hpredict : t.isBranch = true → t.idex.branchPredict = false := by
    intro hbranch
    apply BufferIDEX.Has.predict h.idex
    rw [Top.isBranch, h.fields] at hbranch
    exact hbranch
  rw [Top.predictCorrect]
  cases hbranch : t.isBranch with
  | true => simp [hpredict hbranch]
  | false =>
    obtain ⟨hbeq, hbne⟩ := Bool.or_eq_false_iff.mp hbranch
    simp [Top.branchTaken, hbeq, hbne]

theorem store (h : Inv board t s vW vE true vF) (hclear : DataClear t)
    (hstall : t.MEM_stall = false)
    (hwrite : (((s.next board vW).next board vE).instruction board).control.memWrite = true) :
    t.ex.readReg2 = ((s.next board vW).next board vE).regFile
      (((s.next board vW).next board vE).instruction board).rt := by
  have hi : t.idex.instruction = ((s.next board vW).next board vE).instruction board := by
    rw [h.fields]
    rfl
  have hwrite' : t.idex.memWrite = true := by
    rw [h.fields]
    exact hwrite
  rw [← hi]
  exact h.forward2 hclear hstall (by simp [BufferIDEX.reads2, hwrite'])

theorem ex (h : Inv board t s vW vE vD vF) (hclear : DataClear t) (hstall : t.MEM_stall = false) :
    t.ex.Holds board vD ((s.next board vW).next board vE) := by
  cases vD with
  | true =>
    refine ⟨t.ex.readReg2, ?_, h.store hclear hstall⟩
    have hof : ∀ b, b = decode (((s.next board vW).next board vE).instruction board)
        ((s.next board vW).next board vE).PC b.branchPredict b.jumpAddr b.readReg1 b.readReg2 →
        ∀ data, { PC := b.PC
                  ALUResult := ((s.next board vW).next board vE).result board
                  readReg2 := data
                  writeReg := if b.regDst then b.instruction.rd else b.instruction.rt
                  memToReg := b.memToReg
                  regWrite := b.regWrite
                  memRead := b.memRead
                  memWrite := b.memWrite
                  branch := ((s.next board vW).next board vE).taken board
                  branchAddr := b.PC + 4#32 + (b.immediate <<< 2)
                  predictCorrect := !((s.next board vW).next board vE).taken board
                  jal := b.jal } = BufferEXMEM.of board ((s.next board vW).next board vE) data := by
      intro b hb data
      rw [hb]
      rfl
    rw [← hof _ h.fields, ← h.result hclear hstall, ← h.branchTaken hclear hstall,
      ← h.predictCorrect]
    rfl
  | false =>
    have hid : t.idex.Bubble := h.idex
    refine ⟨.inr ?_, hid.regWrite, hid.memRead, hid.memWrite, ?_, ?_, hid.jal⟩
    · rw [Top.ex, hid.regDst, hid.instruction]
      rfl
    · simp [Top.ex, Top.branchTaken, hid.beq, hid.bne]
    · simp [Top.ex, Top.predictCorrect, Top.isBranch, hid.beq, hid.bne]

theorem readData (h : Inv board t s vW vE vD vF)
    (hzero : r = 0 → t.memwb.regWrite = true → t.WB_writeReg = 0 →
      t.WB_writeData = t.regFile 0) :
    t.posedge.readData r = (s.next board vW).regFile r := by
  have hdata : t.posedge.readData r =
      if t.memwb.regWrite && t.WB_writeReg == r then t.WB_writeData
      else write t.regFile t.regWrites r := rfl
  rw [hdata, ← h.regWrites]
  split
  · rename_i hbypass
    obtain ⟨hwrite, hreg⟩ := Bool.and_eq_true_iff.mp hbypass
    have hreg := beq_iff_eq.mp hreg
    rw [Top.regWrites]
    by_cases hr : r = 0
    · rw [if_neg (by simp [hreg, hr]), hzero hr hwrite (hreg.trans hr), hr]
      rfl
    · rw [if_pos ⟨hwrite, hreg ▸ hr⟩, hreg]
      exact (Function.update_self r t.WB_writeData t.regFile).symm
  · rfl

/-- What a decoded instruction reads. -/
theorem read (h : Inv board t s vW vE vD vF) (hclear : DataClear t) (hdecodes : t.Decodes)
    (hr : Reads t.ifid.instruction r) :
    t.posedge.readData r = (s.next board vW).regFile r := by
  apply h.readData
  rintro rfl
  exact hclear.zero hdecodes hr

/-- No jump and no branch that is taken is in front of the fetched instruction. -/
theorem not_jumpE_of_ifid (h : Inv board t s vW vE vD true) (hv : vE = true) :
    ((s.next board vW).instruction board).jump = false := by
  by_contra hjump
  exact absurd (h.jumpE hv (.inl (Bool.of_not_eq_false hjump))).2 (by decide)

theorem not_jumpD (h : Inv board t s vW vE vD true) : t.idex.jump = false := by
  by_contra hjump
  exact absurd (h.jumpD (Bool.of_not_eq_false hjump)) (by decide)

theorem execution_regFile (h : Inv board t s vW vE vD true)
    (hr : r ≠ 0 → t.idex.regWrite = true → t.ex.writeReg ≠ r) :
    ((((s.next board vW).next board vE)).next board vD).regFile r =
      ((s.next board vW).next board vE).regFile r := by
  cases vD with
  | true =>
    have hjump : (((s.next board vW).next board vE).instruction board).jump = false := by
      rw [← h.not_jumpD, h.jumpD_eq]
      rfl
    have hreg : t.ex.writeReg = (((s.next board vW).next board vE).instruction board).writeReg := by
      rw [Top.ex, h.fields]
      rfl
    apply step_regFile_of_ne
    intro hwrite hdest heq
    have hwrite' : t.idex.regWrite = true := by
      rw [h.fields]
      exact hwrite
    rw [writeReg_eq_dest hjump] at hdest heq
    exact hr (heq ▸ hdest) hwrite' (hreg.trans heq)
  | false => rfl

theorem memory_regFile (h : Inv board t s vW vE vD true)
    (hr : r ≠ 0 → t.exmem.regWrite = true → t.exmem.writeReg ≠ r) :
    ((s.next board vW).next board vE).regFile r = (s.next board vW).regFile r := by
  have hex := h.exmem
  cases vE with
  | true =>
    obtain ⟨data, hex, -⟩ := hex
    apply step_regFile_of_ne
    intro hwrite hdest heq
    rw [writeReg_eq_dest (h.not_jumpE_of_ifid rfl)] at hdest heq
    rw [hex] at hr
    exact hr (heq ▸ hdest) hwrite heq
  | false => rfl

theorem id (h : Inv board t s vW vE vD true) (hclear : DataClear t) (hcontrol : ControlClear t)
    (hdecodes : t.Decodes) {s' : Arch}
    (hs' : s' = ((s.next board vW).next board vE).next board vD) (hPC : t.ifid.PC = s'.PC)
    (hi : t.ifid.instruction = s'.instruction board) :
    t.posedge.id.Has board s' where
  fields := by
    rw [← hPC, ← hi]
    rfl
  predict hbranch := by
    rw [← hi] at hbranch
    exact hcontrol.predict hdecodes hbranch
  jumpAddr hjump := by
    have haddr : t.posedge.id.jumpAddr =
        if t.ifid.instruction.branchControl.jr then t.posedge.readData t.ifid.instruction.rs
        else (t.ifid.instruction.jumpImm.zeroExtend 32 <<< 2) +
          ((t.ifid.PC + 4#32) &&& 0xf0000000) := rfl
    rw [haddr, Arch.jumpAddr, ← hi, ← hPC]
    cases hjr : t.ifid.instruction.branchControl.jr with
    | true =>
      have hread : Reads t.ifid.instruction t.ifid.instruction.rs :=
        .inl ⟨by rw [Word.reads1, hjr, Bool.or_true], rfl⟩
      rw [if_pos rfl, if_pos rfl, h.read hclear hdecodes hread, hs',
        h.execution_regFile (hcontrol.execution hdecodes hjr),
        h.memory_regFile (hcontrol.memory hdecodes hjr)]
    | false => rfl

end Inv

/-! ### The cases of a cycle -/

/-- Nothing is decoded from an empty buffer. -/
theorem id_bubble (h : t.ifid = .reset) : t.posedge.id.Bubble := by
  have hi : t.ifid.instruction = NOP := by rw [h]; rfl
  have hid : t.posedge.id = decode NOP t.ifid.PC t.ifid.branchPredict t.posedge.id.jumpAddr
      t.posedge.id.readReg1 t.posedge.id.readReg2 := by
    rw [← hi]
    rfl
  rw [hid]
  exact ⟨rfl, rfl, rfl, rfl, rfl, rfl, rfl, rfl, rfl⟩

/-- Nothing in front of the decoded instruction stops it. -/
structure Quiet (t : Top) : Prop where
  stall : t.MEM_stall = false
  branch : t.exmem.branch = false
  predict : t.exmem.predictCorrect = true

namespace Quiet

theorem exmem (h : Quiet t) : (t.edge board).exmem = t.ex := by
  rw [Top.edge_exmem, h.stall, if_neg (by decide)]

theorem idex (h : Quiet t) : (t.edge board).idex = t.posedge.id := by
  rw [Top.edge_idex, Top.flushID, h.predict, h.stall, if_neg (by decide), if_neg (by decide)]

theorem ifid (h : Quiet t) :
    (t.edge board).ifid = if t.idex.jump then .reset else t.posedge.fetched board := by
  simp only [Top.edge_ifid, Top.flushIF, h.predict, h.stall, Bool.not_true, Bool.or_false,
    Bool.false_eq_true, if_false]

theorem PC (h : Quiet t) : (t.edge board).PC =
    if t.idex.jump then t.idex.jumpAddr else follow (t.posedge.fetched board) := by
  simp only [Top.edge_PC, h.branch, h.stall, Bool.false_eq_true, if_false]

end Quiet

namespace Inv

/-- The execution moves on. -/
theorem advance (h : Inv board t s vW vE vD vF) (hclear : DataClear t)
    (hstall : t.MEM_stall = false) {vD' vF' : Bool}
    (hidex : (t.cycle board).idex.Holds board vD'
      (((s.next board vW).next board vE).next board vD))
    (hid : vD' = true → vF = true ∧ t.predictCorrect = true ∧
      (t.cycle board).idex = t.posedge.id)
    (hifid : vF' = true → (t.cycle board).ifid.Fetched board
      (if vD' then (t.cycle board).idex.PC + 4#32
        else ((((s.next board vW).next board vE).next board vD).next board vD').PC)
        (t.cycle board).PC)
    (hempty : vF' = false → (t.cycle board).ifid = .reset ∧
      (t.cycle board).PC = ((((s.next board vW).next board vE).next board vD).next board vD').PC)
    (hjumpD : (t.cycle board).idex.jump = true → vF' = false)
    (hjumpE : vD = true → (((s.next board vW).next board vE).instruction board).jump = true ∨
      ((s.next board vW).next board vE).taken board = true → vD' = false ∧ vF' = false) :
    Inv board (t.cycle board) (s.next board vW) vE vD vD' vF' where
  regFile := h.regWrites
  memory := h.memWrites
  memwb := h.mem
  exmem := by
    rw [Top.cycle_exmem hstall]
    exact h.ex hclear hstall
  idex := hidex
  data1 hreads _ := by
    cases vD' with
    | true =>
      obtain ⟨-, hpredict, heq⟩ := hid rfl
      rw [heq] at hreads ⊢
      exact h.read hclear ⟨hstall, hpredict⟩ (id_reads1 hreads)
    | false => exact absurd hreads (Bool.eq_false_iff.mp (BufferIDEX.Bubble.reads1 hidex))
  data2 hreads _ := by
    cases vD' with
    | true =>
      obtain ⟨-, hpredict, heq⟩ := hid rfl
      rw [heq] at hreads ⊢
      exact h.read hclear ⟨hstall, hpredict⟩ (id_reads2 hreads)
    | false => exact absurd hreads (Bool.eq_false_iff.mp (BufferIDEX.Bubble.reads2 hidex))
  ifid := hifid
  empty := hempty
  jumpD := hjumpD
  jumpE := hjumpE
  jumpW hv hjump := by
    obtain ⟨hD, hF⟩ := h.jumpE hv (.inl hjump)
    refine ⟨hD, ?_⟩
    by_contra hD'
    rw [(hid (Bool.of_not_eq_false hD')).1] at hF
    exact absurd hF (by decide)

theorem of_memRead (h : Inv board t s vW vE vD vF) (hread : t.exmem.memRead = true) :
    vE = true ∧ t.exmem.regWrite = true ∧ t.exmem.branch = false := by
  have hex := h.exmem
  have hload : ∀ opCode, (Cpu.control opCode).memRead = true →
      (Cpu.control opCode).regWrite = true ∧ (opCode == OP_BEQ) = false ∧
        (opCode == OP_BNE) = false := by decide
  cases vE with
  | true =>
    obtain ⟨data, hex, -⟩ := hex
    rw [hex] at hread ⊢
    obtain ⟨hwrite, hbeq, hbne⟩ := hload _ hread
    refine ⟨rfl, hwrite, ?_⟩
    have hbeq : ((s.next board vW).instruction board).branchControl.beq = false := hbeq
    have hbne : ((s.next board vW).instruction board).branchControl.bne = false := hbne
    rw [BufferEXMEM.of, Arch.taken, hbeq, hbne]
    rfl
  | false => exact absurd hread (Bool.eq_false_iff.mp hex.memRead)

theorem not_reads (h : Inv board t s vW vE false vF) : ¬t.idex.Reads r := by
  have hid : t.idex.Bubble := h.idex
  rintro (⟨hreads, -⟩ | ⟨hreads, -⟩)
  · exact absurd hreads (Bool.eq_false_iff.mp hid.reads1)
  · exact absurd hreads (Bool.eq_false_iff.mp hid.reads2)

/-- An operand that stays in its buffer during a stall. -/
theorem stalled_operand (h : Inv board t s vW vE vD vF) (hclear : DataClear t)
    (hstall : t.MEM_stall = true) (hwrite : t.exmem.regWrite = true) {data : Word}
    (hreads : t.idex.Reads r) (hdata : t.memForward r = false → data = s.regFile r)
    (hforward : (t.edge board).memForward r = false) :
    data = (s.next board vW).regFile r := by
  cases vD with
  | true =>
    cases hr : t.memForward r with
    | true =>
      have hreg : r = t.exmem.writeReg := hclear.stall r hstall hreads hr
      have hne : r ≠ 0 := by
        rw [Top.memForward, Bool.and_eq_true, beq_iff_eq, bne_iff_ne] at hr
        exact hr.1 ▸ hr.2
      have hto : (t.edge board).forwardWriteReg = t.exmem.writeReg := if_pos hwrite
      rw [Top.memForward, hto, ← hreg, beq_self_eq_true, Bool.true_and,
        bne_eq_false_iff_eq] at hforward
      exact absurd hforward hne
    | false => rw [hdata hr, h.memForward_false h.not_jumpW hr]
  | false => exact absurd hreads h.not_reads

/-- A load waits for no one, the instruction after it does. -/
theorem stalled (h : Inv board t s vW vE vD vF) (hclear : DataClear t)
    (hstall : t.MEM_stall = true) :
    Inv board (t.cycle board) (s.next board vW) vE false vD vF := by
  have hstall' := hstall
  simp only [Top.MEM_stall, Bool.and_eq_true, Bool.not_eq_true'] at hstall'
  obtain ⟨⟨⟨hread, -⟩, -⟩, hjump⟩ := hstall'
  obtain ⟨hv, hwrite, hbranch⟩ := h.of_memRead hread
  have hpredict : t.exmem.predictCorrect = true := by rw [h.predictE, hbranch]; rfl
  have hIF : t.flushIF = false := by rw [Top.flushIF, hjump, hpredict]; rfl
  have hID : t.flushID = false := by rw [Top.flushID, hpredict]; rfl
  have hexmem : (t.edge board).exmem = .reset := by rw [Top.edge_exmem, if_pos hstall]
  have hidex : (t.edge board).idex = t.idex := by
    rw [Top.edge_idex, hID, if_neg (by decide), if_pos hstall]
  have hifid : (t.edge board).ifid = t.ifid := by
    rw [Top.edge_ifid, hIF, if_neg (by decide), if_pos hstall]
  have hPC : (t.edge board).PC = t.PC := by
    rw [Top.edge_PC, hbranch, hjump, if_neg (by decide), if_neg (by decide), if_pos hstall]
  have hcycle : t.cycle board = t.edge board := by
    rw [Top.cycle_eq]
    apply Top.settle_quiet
    · rw [hexmem]; rfl
    · rw [hexmem]; rfl
    · rw [hidex]
      exact fun h => h
  rw [hcycle]
  exact {
    regFile := h.regWrites
    memory := h.memWrites
    memwb := h.mem
    exmem := by
      rw [hexmem]
      exact ⟨.inl rfl, rfl, rfl, rfl, rfl, rfl, rfl⟩
    idex := by
      rw [hidex]
      exact h.idex
    data1 := by
      rw [hidex]
      exact fun hreads => h.stalled_operand hclear hstall hwrite (.inl ⟨hreads, rfl⟩)
        (h.data1 hreads)
    data2 := by
      rw [hidex]
      exact fun hreads => h.stalled_operand hclear hstall hwrite (.inr ⟨hreads, rfl⟩)
        (h.data2 hreads)
    ifid := by
      rw [hifid, hidex, hPC]
      exact h.ifid
    empty := by
      rw [hifid, hPC]
      exact h.empty
    jumpD := by
      rw [hidex]
      exact h.jumpD
    jumpE := fun hv => absurd hv (by decide)
    jumpW := fun hv' hjumpW => ⟨rfl, (h.jumpE hv' (.inl hjumpW)).1⟩ }

/-- A branch that was taken has left the execution. -/
theorem flushed (h : Inv board t s vW vE vD vF) (hclear : DataClear t)
    (hstall : t.MEM_stall = false) (hbranch : t.exmem.branch = true) :
    Inv board (t.cycle board) (s.next board vW) vE vD false false := by
  have hand : (vE && (s.next board vW).taken board) = true := h.branchE ▸ hbranch
  obtain ⟨rfl, htaken⟩ := Bool.and_eq_true_iff.mp hand
  obtain ⟨rfl, rfl⟩ := h.jumpE rfl (.inr htaken)
  have hpredict : t.exmem.predictCorrect = false := by rw [h.predictE, hbranch]; rfl
  have hex : t.ex.Bubble := h.ex hclear hstall
  have hIF : t.flushIF = true := by rw [Top.flushIF, hpredict]; exact Bool.or_true _
  have hID : t.flushID = true := by rw [Top.flushID, hpredict]; rfl
  have hexmem : (t.edge board).exmem = t.ex := by
    rw [Top.edge_exmem, hstall, if_neg (by decide)]
  have hidex : (t.edge board).idex = .reset := by rw [Top.edge_idex, if_pos hID]
  have hifid : (t.edge board).ifid = .reset := by rw [Top.edge_ifid, if_pos hIF]
  have hPC : (t.edge board).PC = t.exmem.branchAddr := by rw [Top.edge_PC, if_pos hbranch]
  have hcycle : t.cycle board = t.edge board := by
    rw [Top.cycle_eq]
    apply Top.settle_quiet
    · rw [hexmem, hex.branch]
    · rw [hexmem, hex.predictCorrect]
    · rw [hidex]
      exact fun h => absurd h (by decide)
  have haddr : t.exmem.branchAddr = ((s.next board vW).step board).PC := by
    obtain ⟨data, hof, -⟩ := h.exmem
    rw [step_PC_taken htaken, hof]
    rfl
  apply h.advance hclear hstall
  · rw [hcycle, hidex]
    exact ⟨rfl, rfl, rfl, rfl, rfl, rfl, rfl, rfl, rfl⟩
  · exact fun hv => absurd hv (by decide)
  · exact fun hv => absurd hv (by decide)
  · rw [hcycle, hifid, hPC]
    exact fun _ => ⟨rfl, haddr⟩
  · exact fun _ => rfl
  · exact fun hv => absurd hv (by decide)

/-- A branch is taken in the execution. -/
theorem branches (h : Inv board t s vW vE true vF) (hclear : DataClear t) (hquiet : Quiet t)
    (htaken : ((s.next board vW).next board vE).taken board = true) :
    Inv board (t.cycle board) (s.next board vW) vE true false false := by
  have hbranch : t.branchTaken = true := h.branchTaken hclear hquiet.stall ▸ htaken
  have hpredict : t.predictCorrect = false := by rw [h.predictCorrect, hbranch]; rfl
  have hjump : t.idex.jump = false := by
    rw [h.jumpD_eq, not_jump_of_taken htaken]
    rfl
  have hcycle : t.cycle board = { t.edge board with
      PC := (t.edge board).exmem.branchAddr, ifid := .reset, idex := .reset } := by
    have hbranch' : (t.edge board).exmem.branch = true := hquiet.exmem ▸ hbranch
    have hpredict' : (t.edge board).exmem.predictCorrect = false := hquiet.exmem ▸ hpredict
    rw [Top.cycle_eq, Top.settle_branch hbranch' hpredict' hquiet.branch hquiet.predict hjump]
  have haddr : (t.edge board).exmem.branchAddr =
      (((s.next board vW).next board vE).step board).PC := by
    rw [hquiet.exmem, step_PC_taken htaken, Top.ex, h.fields]
    rfl
  apply h.advance hclear hquiet.stall
  · rw [hcycle]
    exact ⟨rfl, rfl, rfl, rfl, rfl, rfl, rfl, rfl, rfl⟩
  · exact fun hv => absurd hv (by decide)
  · exact fun hv => absurd hv (by decide)
  · rw [hcycle]
    exact fun _ => ⟨rfl, haddr⟩
  · exact fun _ => rfl
  · exact fun _ _ => ⟨rfl, rfl⟩

/-- The execution redirects nothing. -/
structure Straight (board : Board) (t : Top) (s : Arch) (vD : Bool) : Prop where
  quiet : Quiet t
  branchTaken : t.branchTaken = false
  predictCorrect : t.predictCorrect = true
  taken : vD = true → s.taken board = false

theorem jumps (h : Inv board t s vW vE true vF) (hclear : DataClear t)
    (hs : Straight board t ((s.next board vW).next board vE) true)
    (hjump : t.idex.jump = true) :
    Inv board (t.cycle board) (s.next board vW) vE true false false := by
  have hF : vF = false := h.jumpD hjump
  obtain ⟨hifid, -⟩ := h.empty hF
  have hexmem : (t.edge board).exmem = t.ex := hs.quiet.exmem
  have hid : t.posedge.id.Bubble := id_bubble hifid
  have hcycle : t.cycle board = t.edge board := by
    rw [Top.cycle_eq]
    apply Top.settle_quiet
    · rw [hexmem]
      exact hs.branchTaken
    · rw [hexmem]
      exact hs.predictCorrect
    · exact fun _ => hjump
  have hi : (((s.next board vW).next board vE).instruction board).jump = true := by
    have hand := h.jumpD_eq ▸ hjump
    exact hand
  have haddr : t.idex.jumpAddr = (((s.next board vW).next board vE).step board).PC := by
    rw [step_PC_jump (hs.taken rfl) hi]
    exact BufferIDEX.Has.jumpAddr h.idex hi
  apply h.advance hclear hs.quiet.stall
  · rw [hcycle, hs.quiet.idex]
    exact hid
  · exact fun hv => absurd hv (by decide)
  · exact fun hv => absurd hv (by decide)
  · rw [hcycle, hs.quiet.ifid, hs.quiet.PC, if_pos hjump, if_pos hjump]
    exact fun _ => ⟨rfl, haddr⟩
  · exact fun _ => rfl
  · exact fun _ _ => ⟨rfl, rfl⟩

/-- Where the fetched instruction is. -/
theorem address (h : Inv board t s vW vE vD true)
    (hs : Straight board t ((s.next board vW).next board vE) vD) :
    (if vD then t.idex.PC + 4#32
      else (((s.next board vW).next board vE).next board vD).PC) =
      (((s.next board vW).next board vE).next board vD).PC := by
  cases vD with
  | true =>
    have hjump : (((s.next board vW).next board vE).instruction board).jump = false := by
      rw [← h.not_jumpD, h.jumpD_eq]
      rfl
    rw [if_pos rfl, next_true, step_PC_next (hs.taken rfl) hjump, h.fields]
    rfl
  | false => rfl

theorem not_jump_or_taken (h : Inv board t s vW vE vD vF)
    (hs : Straight board t ((s.next board vW).next board vE) vD) (hj : t.idex.jump = false)
    (hv : vD = true) :
    ¬((((s.next board vW).next board vE).instruction board).jump = true ∨
      ((s.next board vW).next board vE).taken board = true) := by
  subst hv
  rintro (hjump | htaken)
  · rw [h.jumpD_eq, hjump] at hj
    exact absurd hj (by decide)
  · rw [hs.taken rfl] at htaken
    exact absurd htaken (by decide)

theorem decodes_jump (h : Inv board t s vW vE vD true) (hclear : DataClear t)
    (hs : Straight board t ((s.next board vW).next board vE) vD)
    (hid : t.posedge.id.Has board (((s.next board vW).next board vE).next board vD))
    (hjump : t.posedge.id.jump = true) :
    Inv board (t.cycle board) (s.next board vW) vE vD true false := by
  have hcycle : t.cycle board = { t.edge board with
      PC := (t.edge board).idex.jumpAddr, ifid := .reset } := by
    have hbranch : (t.edge board).exmem.branch = false := hs.quiet.exmem ▸ hs.branchTaken
    have hpredict : (t.edge board).exmem.predictCorrect = true :=
      hs.quiet.exmem ▸ hs.predictCorrect
    have hjump' : (t.edge board).idex.jump = true := hs.quiet.idex ▸ hjump
    rw [Top.cycle_eq, Top.settle_jump hbranch hpredict hjump' hs.quiet.predict h.not_jumpD]
  have hidex : (t.edge board).idex = t.posedge.id := hs.quiet.idex
  have hi : ((((s.next board vW).next board vE).next board vD).instruction board).jump = true := by
    rw [hid.fields] at hjump
    exact hjump
  have htaken : (((s.next board vW).next board vE).next board vD).taken board = false := by
    by_contra htaken
    have hnot := not_jump_of_taken (Bool.of_not_eq_false htaken)
    rw [hi] at hnot
    exact absurd hnot (by decide)
  apply h.advance hclear hs.quiet.stall
  · rw [hcycle, hidex]
    exact hid
  · rw [hcycle]
    exact fun _ => ⟨rfl, hs.predictCorrect, hidex⟩
  · exact fun hv => absurd hv (by decide)
  · rw [hcycle, hidex, next_true, step_PC_jump htaken hi]
    exact fun _ => ⟨rfl, hid.jumpAddr hi⟩
  · exact fun _ => rfl
  · exact fun hv hor => absurd hor (h.not_jump_or_taken hs h.not_jumpD hv)

theorem decodes (h : Inv board t s vW vE vD true) (hclear : DataClear t)
    (hs : Straight board t ((s.next board vW).next board vE) vD)
    (hid : t.posedge.id.Has board (((s.next board vW).next board vE).next board vD))
    (hjump : t.posedge.id.jump = false) :
    Inv board (t.cycle board) (s.next board vW) vE vD true true := by
  have hcycle : t.cycle board = t.edge board := by
    rw [Top.cycle_eq]
    apply Top.settle_quiet
    · rw [hs.quiet.exmem]
      exact hs.branchTaken
    · rw [hs.quiet.exmem]
      exact hs.predictCorrect
    · rw [hs.quiet.idex, hjump]
      exact fun hv => absurd hv (by decide)
  have hifid : (t.edge board).ifid = t.posedge.fetched board := by
    rw [hs.quiet.ifid, h.not_jumpD, if_neg (by decide)]
  have hPC : (t.edge board).PC = follow (t.posedge.fetched board) := by
    rw [hs.quiet.PC, h.not_jumpD, if_neg (by decide)]
  have hfollow : t.PC = t.ifid.PC + 4#32 := by
    have hpredict : (t.ifid.instruction.opCode == OP_BEQ || t.ifid.instruction.opCode == OP_BNE) =
        true → t.ifid.branchPredict = false := by
      have hf : t.ifid.instruction = _ := congrArg BufferIDEX.instruction hid.fields
      rw [hf]
      exact hid.predict
    rw [(h.ifid rfl).follow, follow]
    apply if_neg
    rw [Bool.and_eq_true]
    exact fun hand => absurd hand.2 (Bool.eq_false_iff.mp (hpredict hand.1))
  apply h.advance hclear hs.quiet.stall
  · rw [hcycle, hs.quiet.idex]
    exact hid
  · rw [hcycle]
    exact fun _ => ⟨rfl, hs.predictCorrect, hs.quiet.idex⟩
  · rw [hcycle, hifid, hPC, hs.quiet.idex]
    exact fun _ => ⟨hfollow, congrArg board.fetch hfollow, rfl⟩
  · exact fun hv => absurd hv (by decide)
  · rw [hcycle, hs.quiet.idex, hjump]
    exact fun hv => absurd hv (by decide)
  · exact fun hv hor => absurd hor (h.not_jump_or_taken hs h.not_jumpD hv)

/-- The buffer was empty. -/
theorem fetches (h : Inv board t s vW vE vD false) (hclear : DataClear t)
    (hs : Straight board t ((s.next board vW).next board vE) vD)
    (hjump : t.idex.jump = false) :
    Inv board (t.cycle board) (s.next board vW) vE vD false true := by
  obtain ⟨hempty, hPC'⟩ := h.empty rfl
  have hid : t.posedge.id.Bubble := id_bubble hempty
  have hcycle : t.cycle board = t.edge board := by
    rw [Top.cycle_eq]
    apply Top.settle_quiet
    · rw [hs.quiet.exmem]
      exact hs.branchTaken
    · rw [hs.quiet.exmem]
      exact hs.predictCorrect
    · rw [hs.quiet.idex, hid.jump]
      exact fun hv => absurd hv (by decide)
  have hifid : (t.edge board).ifid = t.posedge.fetched board := by
    rw [hs.quiet.ifid, hjump, if_neg (by decide)]
  have hPC : (t.edge board).PC = follow (t.posedge.fetched board) := by
    rw [hs.quiet.PC, hjump, if_neg (by decide)]
  apply h.advance hclear hs.quiet.stall
  · rw [hcycle, hs.quiet.idex]
    exact hid
  · exact fun hv => absurd hv (by decide)
  · rw [hcycle, hifid, hPC]
    exact fun _ => ⟨hPC', congrArg board.fetch hPC', rfl⟩
  · exact fun hv => absurd hv (by decide)
  · rw [hcycle, hs.quiet.idex, hid.jump]
    exact fun hv => absurd hv (by decide)
  · exact fun hv hor => absurd hor (h.not_jump_or_taken hs hjump hv)

/-- Something moves on towards the last buffer. -/
structure Moves (vE vD vF vE' vD' vF' : Bool) : Prop where
  execution : vE = false → vE' = vD
  decode : vE = false → vD = false → vD' = vF
  fetch : vE = false → vD = false → vF = false → vF' = true

theorem straight (h : Inv board t s vW vE vD vF) (hclear : DataClear t) (hquiet : Quiet t)
    (htaken : vD = true → ((s.next board vW).next board vE).taken board = false) :
    Straight board t ((s.next board vW).next board vE) vD := by
  cases vD with
  | true =>
    have hbranch : t.branchTaken = false := by
      rw [h.branchTaken hclear hquiet.stall, htaken rfl]
    exact ⟨hquiet, hbranch, by rw [h.predictCorrect, hbranch]; rfl, htaken⟩
  | false =>
    have hex : t.ex.Bubble := h.ex hclear hquiet.stall
    exact ⟨hquiet, hex.branch, hex.predictCorrect, htaken⟩

/-- Nothing in the pipeline redirects it. -/
theorem cycle_straight (h : Inv board t s vW vE vD vF) (hclear : DataClear t)
    (hcontrol : ControlClear t) (hs : Straight board t ((s.next board vW).next board vE) vD) :
    ∃ vE' vD' vF', Inv board (t.cycle board) (s.next board vW) vE vE' vD' vF' ∧
      Moves vE vD vF vE' vD' vF' := by
  cases vF with
  | true =>
    have haddr := h.address hs
    have hfetched := h.ifid rfl
    have hid := h.id hclear hcontrol ⟨hs.quiet.stall, hs.predictCorrect⟩ rfl
      (hfetched.PC.trans haddr) (hfetched.instruction.trans (congrArg board.fetch haddr))
    cases hjump : t.posedge.id.jump with
    | true =>
      refine ⟨vD, true, false, h.decodes_jump hclear hs hid hjump, fun _ => rfl, fun _ _ => rfl, ?_⟩
      exact fun _ _ hv => absurd hv (by decide)
    | false =>
      exact ⟨vD, true, true, h.decodes hclear hs hid hjump, fun _ => rfl, fun _ _ => rfl,
        fun _ _ _ => rfl⟩
  | false =>
    cases hjump : t.idex.jump with
    | true =>
      have hD : vD = true := by
        have hand := h.jumpD_eq ▸ hjump
        exact (Bool.and_eq_true_iff.mp hand).1
      subst hD
      refine ⟨true, false, false, h.jumps hclear hs hjump, fun _ => rfl, fun _ _ => rfl, ?_⟩
      exact fun _ hv => absurd hv (by decide)
    | false =>
      exact ⟨vD, false, true, h.fetches hclear hs hjump, fun _ => rfl, fun _ _ => rfl,
        fun _ _ _ => rfl⟩

/-- One cycle. -/
theorem cycle (h : Inv board t s vW vE vD vF) (hclear : DataClear t) (hcontrol : ControlClear t) :
    ∃ vE' vD' vF', Inv board (t.cycle board) (s.next board vW) vE vE' vD' vF' ∧
      Moves vE vD vF vE' vD' vF' := by
  cases hstall : t.MEM_stall with
  | true =>
    have hread : t.exmem.memRead = true := by
      simp only [Top.MEM_stall, Bool.and_eq_true] at hstall
      exact hstall.1.1.1
    have hE : vE = true := (h.of_memRead hread).1
    refine ⟨false, vD, vF, h.stalled hclear hstall, ?_, ?_, ?_⟩
    all_goals exact fun hv => absurd (hE.symm.trans hv) (by decide)
  | false =>
    cases hbranch : t.exmem.branch with
    | true =>
      have hand := h.branchE ▸ hbranch
      have hE : vE = true := (Bool.and_eq_true_iff.mp hand).1
      refine ⟨vD, false, false, h.flushed hclear hstall hbranch, fun _ => rfl, ?_, ?_⟩
      all_goals exact fun hv => absurd (hE.symm.trans hv) (by decide)
    | false =>
      have hquiet : Quiet t := ⟨hstall, hbranch, by rw [h.predictE, hbranch]; rfl⟩
      by_cases htaken : vD = true ∧ ((s.next board vW).next board vE).taken board = true
      · obtain ⟨rfl, htaken⟩ := htaken
        refine ⟨true, false, false, h.branches hclear hquiet htaken, fun _ => rfl, ?_, ?_⟩
        all_goals exact fun _ hv => absurd hv (by decide)
      · apply h.cycle_straight hclear hcontrol
        apply h.straight hclear hquiet
        exact fun hv => Bool.eq_false_iff.mpr fun htaken' => htaken ⟨hv, htaken'⟩

end Inv

end Course.Cpu.Pipeline
