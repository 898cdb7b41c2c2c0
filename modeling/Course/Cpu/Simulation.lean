import Course.Cpu.Pipeline

/-! The instructions in the pipeline, in the order of the program. -/

namespace Course.Cpu.Arch

open Word

variable {board : Board} {s : Arch} {r : Reg}

theorem regWrites_pos (h : (s.instruction board).control.regWrite = true)
    (hdest : (s.instruction board).dest ≠ 0) :
    s.regWrites board = [((s.instruction board).dest, s.writeData board)] :=
  if_pos ⟨h, hdest⟩

theorem step_regFile_dest (h : (s.instruction board).control.regWrite = true)
    (hdest : (s.instruction board).dest = r) (hr : r ≠ 0) :
    (s.step board).regFile r = s.writeData board := by
  subst hdest
  rw [step, regWrites_pos h hr]
  exact Function.update_self ..

theorem step_regFile_of_ne
    (h : (s.instruction board).control.regWrite = true → (s.instruction board).dest ≠ 0 →
      (s.instruction board).dest ≠ r) :
    (s.step board).regFile r = s.regFile r := by
  rw [step, regWrites]
  split
  · rename_i hwrites
    exact Function.update_of_ne (h hwrites.1 hwrites.2).symm ..
  · rfl

/-- `step`, if there is an instruction. -/
def next (board : Board) (valid : Bool) (s : Arch) : Arch := if valid then s.step board else s

@[simp] theorem next_true : next board true s = s.step board := rfl

@[simp] theorem next_false : next board false s = s := rfl

end Course.Cpu.Arch

namespace Course.Cpu.Pipeline

open Word Arch

variable {board : Board} {t : Top} {s : Arch} {r : Reg}

/-! ### Instructions in the buffers -/

/-- The instruction of `s`, after the memory. -/
def BufferMEMWB.of (board : Board) (s : Arch) : BufferMEMWB :=
  let i := s.instruction board
  ⟨s.PC, s.result board, s.readMemData board, i.writeReg, i.control.memToReg, i.control.regWrite,
    i.branchControl.jal⟩

/-- The instruction of `s` after its execution, with the data of a store. -/
def BufferEXMEM.of (board : Board) (s : Arch) (data : Word) : BufferEXMEM :=
  let i := s.instruction board
  { PC := s.PC
    ALUResult := s.result board
    readReg2 := data
    writeReg := i.writeReg
    memToReg := i.control.memToReg
    regWrite := i.control.regWrite
    memRead := i.control.memRead
    memWrite := i.control.memWrite
    branch := s.taken board
    branchAddr := s.branchAddr board
    predictCorrect := !s.taken board
    jal := i.branchControl.jal }

/-- The decoded instruction, with what it read. -/
def decode (i PC : Word) (branchPredict : Bool) (jumpAddr readReg1 readReg2 : Word) :
    BufferIDEX where
  PC := PC
  instruction := i
  branchPredict := branchPredict
  regDst := i.control.regDst
  ALUSrc := i.control.ALUSrc
  memToReg := i.control.memToReg
  regWrite := i.control.regWrite
  memRead := i.control.memRead
  memWrite := i.control.memWrite
  beq := i.branchControl.beq
  bne := i.branchControl.bne
  jump := i.jump
  jal := i.branchControl.jal
  jumpAddr := jumpAddr
  ALUCtr := i.ALUCtr
  readReg1 := readReg1
  readReg2 := readReg2
  immediate := i.immediate

/-- No instruction. All bits of its word are set, so that it seems to be for register 31. -/
structure BufferIDEX.Bubble (b : BufferIDEX) : Prop where
  instruction : b.instruction = NOP
  regDst : b.regDst = false
  regWrite : b.regWrite = false
  memRead : b.memRead = false
  memWrite : b.memWrite = false
  beq : b.beq = false
  bne : b.bne = false
  jump : b.jump = false
  jal : b.jal = false

structure BufferEXMEM.Bubble (b : BufferEXMEM) : Prop where
  writeReg : b.writeReg = 0 ∨ b.writeReg = 31
  regWrite : b.regWrite = false
  memRead : b.memRead = false
  memWrite : b.memWrite = false
  branch : b.branch = false
  predictCorrect : b.predictCorrect = true
  jal : b.jal = false

/-- The instruction of `s` is in the buffer, or none where it is not valid. -/
def BufferMEMWB.Holds (board : Board) (b : BufferMEMWB) : Bool → Arch → Prop
  | true, s => b = .of board s
  | false, _ => b.regWrite = false

def BufferEXMEM.Holds (board : Board) (b : BufferEXMEM) : Bool → Arch → Prop
  | true, s => ∃ data, b = .of board s data ∧
    ((s.instruction board).control.memWrite = true → data = s.regFile (s.instruction board).rt)
  | false, _ => b.Bubble

structure BufferIDEX.Has (board : Board) (b : BufferIDEX) (s : Arch) : Prop where
  fields : b = decode (s.instruction board) s.PC b.branchPredict b.jumpAddr b.readReg1 b.readReg2
  predict : ((s.instruction board).branchControl.beq ||
    (s.instruction board).branchControl.bne) = true → b.branchPredict = false
  jumpAddr : (s.instruction board).jump = true → b.jumpAddr = s.jumpAddr board

def BufferIDEX.Holds (board : Board) (b : BufferIDEX) : Bool → Arch → Prop
  | true, s => b.Has board s
  | false, _ => b.Bubble

/-- An instruction is fetched from `address`, and the next one from `after`. -/
structure BufferIFID.Fetched (board : Board) (b : BufferIFID) (address after : Word) : Prop where
  PC : b.PC = address
  instruction : b.instruction = board.fetch address
  follow : after = follow b

/-- The order of the program: `s` is where the first instruction of the pipeline is, and
`vW` to `vF` say which buffers hold one. -/
structure Inv (board : Board) (t : Top) (s : Arch) (vW vE vD vF : Bool) : Prop where
  regFile : t.regFile = s.regFile
  memory : t.memory = (s.next board vW).memory
  memwb : t.memwb.Holds board vW s
  exmem : t.exmem.Holds board vE (s.next board vW)
  idex : t.idex.Holds board vD ((s.next board vW).next board vE)
  /-- Operands are as in `s`, or are forwarded. -/
  data1 : t.idex.reads1 = true → t.memForward t.idex.instruction.rs = false →
    t.idex.readReg1 = s.regFile t.idex.instruction.rs
  data2 : t.idex.reads2 = true → t.memForward t.idex.instruction.rt = false →
    t.idex.readReg2 = s.regFile t.idex.instruction.rt
  ifid : vF = true → t.ifid.Fetched board
    (if vD then t.idex.PC + 4#32 else (((s.next board vW).next board vE).next board vD).PC) t.PC
  empty : vF = false → t.ifid = .reset ∧
    t.PC = (((s.next board vW).next board vE).next board vD).PC
  /-- Behind a jump the buffers are empty. -/
  jumpD : t.idex.jump = true → vF = false
  jumpE : vE = true → ((s.next board vW).instruction board).jump = true ∨
    (s.next board vW).taken board = true → vD = false ∧ vF = false
  jumpW : vW = true → (s.instruction board).jump = true → vE = false ∧ vD = false

section Buffers

variable {vW vE vD vF : Bool}

theorem writeReg_eq_dest {i : Word} (h : i.jump = false) : i.dest = i.writeReg := by
  have hjal : i.branchControl.jal = false := (Bool.or_eq_false_iff.mp h).2
  rw [Word.dest, hjal]
  rfl

theorem writeData_eq_result (h : (s.instruction board).jump = false)
    (hmem : (s.instruction board).control.memToReg = false) :
    s.writeData board = s.result board := by
  have hjal : (s.instruction board).branchControl.jal = false := (Bool.or_eq_false_iff.mp h).2
  rw [Arch.writeData, hjal, hmem]
  rfl

/-- An immediate operand is never replaced. -/
theorem forward_zero {data : Word} : t.forward 0 data = data := by
  rw [Top.forward, Top.innerForward, Top.memForward, if_neg (by grind), if_neg (by grind)]

namespace Inv

/-! ### Edges -/

theorem regWrites (h : Inv board t s vW vE vD vF) :
    write t.regFile t.regWrites = (s.next board vW).regFile := by
  have hwb := h.memwb
  cases vW with
  | true =>
    rw [h.regFile, Top.regWrites, Top.WB_writeData, Top.WB_writeReg, hwb]
    rfl
  | false =>
    rw [h.regFile, Top.regWrites, hwb]
    rfl

theorem memWrites (h : Inv board t s vW vE vD vF) :
    write t.memory t.memWrites = ((s.next board vW).next board vE).memory := by
  have hex := h.exmem
  cases vE with
  | true =>
    obtain ⟨data, hex, hdata⟩ := hex
    rw [h.memory, next_true, Arch.step, Arch.memWrites, Top.memWrites, hex]
    cases hwrite : ((s.next board vW).instruction board).control.memWrite with
    | true =>
      rw [hdata hwrite]
      simp [BufferEXMEM.of, hwrite]
    | false => simp [BufferEXMEM.of, hwrite]
  | false =>
    rw [h.memory, Top.memWrites, hex.memWrite]
    rfl

theorem mem (h : Inv board t s vW vE vD vF) :
    (t.posedge.mem board).Holds board vE (s.next board vW) := by
  have hex := h.exmem
  have hmemory : t.posedge.memory = write t.memory t.memWrites := rfl
  cases vE with
  | true =>
    obtain ⟨data, hex, -⟩ := hex
    have hload : ∀ opCode, (Cpu.control opCode).memRead = true →
        (Cpu.control opCode).memWrite = false := by decide
    have hread : (if t.exmem.memRead = true then
        board.load t.posedge.memory t.exmem.ALUResult else 0) =
        (s.next board vW).readMemData board := by
      rw [hmemory, h.memWrites, hex, next_true, Arch.step, Arch.memWrites, Arch.readMemData]
      cases hl : ((s.next board vW).instruction board).control.memRead with
      | true =>
        have hs : ((s.next board vW).instruction board).control.memWrite = false := hload _ hl
        simp [BufferEXMEM.of, hl, hs, write]
      | false => simp [BufferEXMEM.of, hl]
    have hmem : t.posedge.mem board = ⟨t.exmem.PC, t.exmem.ALUResult,
        if t.exmem.memRead = true then board.load t.posedge.memory t.exmem.ALUResult else 0,
        t.exmem.writeReg, t.exmem.memToReg, t.exmem.regWrite, t.exmem.jal⟩ := rfl
    rw [hmem, hread, hex]
    rfl
  | false => exact hex.regWrite

/-! ### Operands -/

/-- Where the memory forwards from is the register that its instruction writes. -/
theorem memForward_true (h : Inv board t s vW vE vD vF)
    (hjump : vW = true → (s.instruction board).jump = false) (hr : t.memForward r = true) :
    (s.next board vW).regFile r = t.forwardData := by
  have hwb := h.memwb
  rw [Top.memForward, Top.forwardWriteReg, Bool.and_eq_true, beq_iff_eq, bne_iff_ne] at hr
  obtain ⟨heq, hne⟩ := hr
  cases vW with
  | true =>
    have hwb : t.memwb = .of board s := hwb
    rw [hwb] at heq hne
    cases hwrite : (s.instruction board).control.regWrite with
    | true =>
      have hreg : r = (s.instruction board).writeReg := by
        rw [heq]
        exact if_pos hwrite
      have hdest : (s.instruction board).dest = r := by
        rw [writeReg_eq_dest (hjump rfl), hreg]
      rw [next_true, step_regFile_dest hwrite hdest (heq ▸ hne), Top.forwardData, hwb,
        Arch.writeData, (Bool.or_eq_false_iff.mp (hjump rfl)).2]
      rfl
    | false => exact absurd (if_neg (by simp [BufferMEMWB.of, hwrite])) hne
  | false =>
    have hwb : t.memwb.regWrite = false := hwb
    exact absurd (if_neg (by simp [hwb])) hne

theorem memForward_false (h : Inv board t s vW vE vD vF)
    (hjump : vW = true → (s.instruction board).jump = false) (hr : t.memForward r = false) :
    (s.next board vW).regFile r = s.regFile r := by
  cases vW with
  | true =>
    have hwb : t.memwb = .of board s := h.memwb
    apply step_regFile_of_ne
    intro hwrite hdest heq
    rw [writeReg_eq_dest (hjump rfl)] at hdest heq
    have hforward : t.forwardWriteReg = (s.instruction board).writeReg := by
      rw [Top.forwardWriteReg, hwb]
      exact if_pos hwrite
    rw [Top.memForward, hforward, heq, beq_self_eq_true, Bool.true_and, bne_eq_false_iff_eq] at hr
    exact hdest (heq.trans hr)
  | false => rfl

theorem innerForward_true (h : Inv board t s vW vE vD vF)
    (hjump : vE = true → ((s.next board vW).instruction board).jump = false)
    (hr : t.innerForward r = true) (hwrite : t.exmem.regWrite = true)
    (hmem : t.exmem.memToReg = false) :
    ((s.next board vW).next board vE).regFile r = t.exmem.ALUResult := by
  have hex := h.exmem
  rw [Top.innerForward, Bool.and_eq_true, beq_iff_eq, bne_iff_ne] at hr
  obtain ⟨heq, hne⟩ := hr
  cases vE with
  | true =>
    obtain ⟨data, hex, -⟩ := hex
    rw [hex] at heq hne hwrite hmem ⊢
    have hdest : ((s.next board vW).instruction board).dest = r := by
      rw [writeReg_eq_dest (hjump rfl), heq]
      rfl
    rw [next_true, step_regFile_dest hwrite hdest (heq ▸ hne),
      writeData_eq_result (hjump rfl) hmem]
    rfl
  | false => exact absurd hwrite (Bool.eq_false_iff.mp hex.regWrite)

theorem innerForward_false (h : Inv board t s vW vE vD vF)
    (hjump : vE = true → ((s.next board vW).instruction board).jump = false)
    (hr : t.innerForward r = false) :
    ((s.next board vW).next board vE).regFile r = (s.next board vW).regFile r := by
  cases vE with
  | true =>
    obtain ⟨data, hex, -⟩ := h.exmem
    apply step_regFile_of_ne
    intro hwrite hdest heq
    rw [writeReg_eq_dest (hjump rfl)] at hdest heq
    have hreg : t.exmem.writeReg = ((s.next board vW).instruction board).writeReg := by
      rw [hex]
      rfl
    rw [Top.innerForward, hreg, heq, beq_self_eq_true, Bool.true_and, bne_eq_false_iff_eq] at hr
    exact hdest (heq.trans hr)
  | false => rfl

theorem not_jumpE (h : Inv board t s vW vE true vF) (hv : vE = true) :
    ((s.next board vW).instruction board).jump = false := by
  by_contra hjump
  exact absurd (h.jumpE hv (.inl (Bool.of_not_eq_false hjump))).1 (by decide)

theorem not_jumpW (h : Inv board t s vW vE true vF) (hv : vW = true) :
    (s.instruction board).jump = false := by
  by_contra hjump
  exact absurd (h.jumpW hv (Bool.of_not_eq_false hjump)).2 (by decide)

/-- A right operand reaches the execution. -/
theorem forward (h : Inv board t s vW vE true vF)
    (hinner : t.innerForward r = true → t.exmem.regWrite = true ∧ t.exmem.memToReg = false)
    {data : Word} (hdata : t.memForward r = false → data = s.regFile r) :
    t.forward r data = ((s.next board vW).next board vE).regFile r := by
  have hjumpE := h.not_jumpE
  have hjumpW := h.not_jumpW
  rw [Top.forward]
  split
  · rename_i hr
    exact (h.innerForward_true hjumpE hr (hinner hr).1 (hinner hr).2).symm
  · rename_i hr
    rw [h.innerForward_false hjumpE (Bool.not_eq_true _ ▸ hr)]
    split
    · rename_i hr
      exact (h.memForward_true hjumpW hr).symm
    · rename_i hr
      have hr := Bool.not_eq_true _ ▸ hr
      rw [h.memForward_false hjumpW hr, hdata hr]

theorem fields (h : Inv board t s vW vE true vF) : t.idex =
    decode (((s.next board vW).next board vE).instruction board)
      ((s.next board vW).next board vE).PC t.idex.branchPredict t.idex.jumpAddr t.idex.readReg1
      t.idex.readReg2 :=
  BufferIDEX.Has.fields h.idex

/-- An instruction that looks at an operand acts. -/
theorem acts_of_ne_nop {i : Word} (h : i.ALUCtr ≠ ALU_NOP) :
    (i.control.regWrite || i.control.memWrite || i.branchControl.beq || i.branchControl.bne) =
      true := by
  have hop : ∀ opCode, (Cpu.control opCode).ALUOp = ALU_OP_NOP ∨
      ((Cpu.control opCode).regWrite || (Cpu.control opCode).memWrite || opCode == OP_BEQ ||
        opCode == OP_BNE) = true := by decide
  rcases hop i.opCode with hnop | hacts
  · rw [Word.ALUCtr, Word.control, hnop] at h
    exact absurd (ALUControl_NOP _) h
  · exact hacts

theorem acts (h : Inv board t s vW vE true vF) (hne : t.idex.ALUCtr ≠ ALU_NOP) :
    t.idex.acts = true := by
  rw [h.fields] at hne
  rw [BufferIDEX.acts, h.fields]
  exact acts_of_ne_nop hne

theorem reads1 (h : Inv board t s vW vE true vF) (huses : uses1 t.idex.ALUCtr = true) :
    t.idex.reads1 = true := by
  have hne : t.idex.ALUCtr ≠ ALU_NOP := fun hnop => absurd (hnop ▸ huses) (by decide)
  rw [BufferIDEX.reads1, huses, h.acts hne]
  rfl

theorem reads2 (h : Inv board t s vW vE true vF) (huses : uses2 t.idex.ALUCtr = true)
    (hsrc : t.idex.ALUSrc = false) : t.idex.reads2 = true := by
  have hne : t.idex.ALUCtr ≠ ALU_NOP := fun hnop => absurd (hnop ▸ huses) (by decide)
  rw [BufferIDEX.reads2, huses, hsrc, h.acts hne]
  rfl

theorem forward1 (h : Inv board t s vW vE true vF) (hclear : DataClear t)
    (hstall : t.MEM_stall = false) (hreads : t.idex.reads1 = true) :
    t.forward t.idex.instruction.rs t.idex.readReg1 =
      ((s.next board vW).next board vE).regFile t.idex.instruction.rs := by
  apply h.forward
  · exact hclear.inner _ hstall (.inl ⟨hreads, rfl⟩)
  · exact h.data1 hreads

theorem forward2 (h : Inv board t s vW vE true vF) (hclear : DataClear t)
    (hstall : t.MEM_stall = false) (hreads : t.idex.reads2 = true) :
    t.forward t.idex.instruction.rt t.idex.readReg2 =
      ((s.next board vW).next board vE).regFile t.idex.instruction.rt := by
  apply h.forward
  · exact hclear.inner _ hstall (.inr ⟨hreads, rfl⟩)
  · exact h.data2 hreads

theorem result (h : Inv board t s vW vE true vF) (hclear : DataClear t)
    (hstall : t.MEM_stall = false) :
    t.result = ((s.next board vW).next board vE).result board := by
  have hf := h.fields
  have hi : t.idex.instruction = ((s.next board vW).next board vE).instruction board := by
    rw [hf]
    rfl
  have hctr : t.idex.ALUCtr = t.idex.instruction.ALUCtr := by rw [hf]; rfl
  have hsrc : t.idex.ALUSrc = t.idex.instruction.control.ALUSrc := by rw [hf]; rfl
  have himm : t.idex.immediate = t.idex.instruction.immediate := by rw [hf]; rfl
  rw [Top.result, Arch.result, ← hi, hctr]
  apply ALU_congr
  · intro huses
    exact h.forward1 hclear hstall (h.reads1 (hctr ▸ huses))
  · intro huses
    rw [← hsrc]
    cases hs : t.idex.ALUSrc with
    | true => exact forward_zero.trans himm
    | false => exact h.forward2 hclear hstall (h.reads2 (hctr ▸ huses) hs)

end Inv

end Buffers

end Course.Cpu.Pipeline
