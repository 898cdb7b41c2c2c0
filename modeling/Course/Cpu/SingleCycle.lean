import Course.Cpu.Sequential
import Course.Lib.Trace

/-! The single-cycle processor. Logic without a clock follows its inputs; the processes of
a clock edge read what they read before it. -/

open Course.Lib

namespace Course.Cpu.SingleCycle

open Word

/-- `none` is `1'bx`; the `x` of `ALUSrc` is `false`, as no result depends on it. -/
structure Control where
  regDst : Option Bool
  ALUSrc : Bool
  memToReg : Bool
  regWrite : Bool
  memRead : Bool
  memWrite : Bool
  ALUOp : BitVec 4

def control (opCode : BitVec 6) : Control :=
  match opCode with
  | OP_RTYPE => ⟨some true, false, false, true, false, false, ALU_OP_RTYPE⟩
  | OP_ADDI => ⟨some false, true, false, true, false, false, ALU_OP_ADD⟩
  | OP_ADDIU => ⟨some false, true, false, true, false, false, ALU_OP_ADD⟩
  | OP_ANDI => ⟨some false, true, false, true, false, false, ALU_OP_AND⟩
  | OP_ORI => ⟨some false, true, false, true, false, false, ALU_OP_OR⟩
  | OP_XORI => ⟨some false, true, false, true, false, false, ALU_OP_XOR⟩
  | OP_LUI => ⟨some false, true, false, true, false, false, ALU_OP_LUI⟩
  | OP_LW => ⟨some false, true, true, true, true, false, ALU_OP_ADD⟩
  | OP_SW => ⟨none, true, false, false, false, true, ALU_OP_ADD⟩
  | OP_BEQ => ⟨none, false, false, false, false, false, ALU_OP_BRANCH⟩
  | OP_BNE => ⟨none, false, false, false, false, false, ALU_OP_BRANCH⟩
  | OP_SLTI => ⟨some false, true, false, true, false, false, ALU_OP_SLT⟩
  | OP_SLTIU => ⟨some false, true, false, true, false, false, ALU_OP_SLTU⟩
  | OP_J => ⟨none, false, false, false, false, false, ALU_OP_NOP⟩
  | OP_JAL => ⟨none, false, false, true, false, false, ALU_OP_NOP⟩
  | _ => ⟨none, false, false, false, false, false, ALU_OP_NOP⟩

/-- The input `writeReg` of the registers: the bits that are 1, and those that are `x`. -/
def writeReg (i : Word) : Reg × Reg :=
  if i.branchControl.jal then (31, 0)
  else match (control i.opCode).regDst with
    | some true => (i.rd, 0)
    | some false => (i.rt, 0)
    | none => (i.rd &&& i.rt, i.rd ^^^ i.rt)

/-- The outputs `readData1` and `readData2`. -/
structure Ports where
  readData1 : Word
  readData2 : Word

structure Top where
  PC : Word
  regFile : Reg → Word
  memory : Memory
  ports : Ports

def Ports.read (regFile : Reg → Word) (i : Word) : Ports := ⟨regFile i.rs, regFile i.rt⟩

/-- `always @(readReg1, readReg2, writeReg)`: the outputs do not follow `regFile`. -/
def Ports.always (ports : Ports) (regFile : Reg → Word) (old new : Word) : Ports :=
  if new.rs = old.rs ∧ new.rt = old.rt ∧ writeReg new = writeReg old then ports
  else .read regFile new

namespace Top

variable (board : Board) (s : Top)

def instruction : Word := board.fetch s.PC

def ALUResult : Word :=
  let i := s.instruction board
  let c := control i.opCode
  ALU s.ports.readData1 (if c.ALUSrc then i.immediate else s.ports.readData2) i.shamt
    (ALUControl c.ALUOp i.funct)

def ALUZero : Bool := s.ALUResult board == 0

/-- `memWrite` is never set with `memRead`. -/
def memReadData : Word :=
  let c := control (s.instruction board).opCode
  if c.memRead then
    if c.memWrite then s.ports.readData2 else board.load s.memory (s.ALUResult board)
  else 0

def writeData : Word :=
  let i := s.instruction board
  if i.branchControl.jal then s.PC + 4#32
  else if (control i.opCode).memToReg then s.memReadData board
  else s.ALUResult board

def regWrites : List (Reg × Word) :=
  let i := s.instruction board
  if (control i.opCode).regWrite ∧ (writeReg i).1 ≠ 0 then [((writeReg i).1, s.writeData board)]
  else []

def memWrites : List (Fin 64 × Word) :=
  if (control (s.instruction board).opCode).memWrite then
    stores (s.ALUResult board) s.ports.readData2
  else []

def programCounter : Word :=
  let i := s.instruction board
  let c := i.branchControl
  let jumpAddr := (i.jumpImm.zeroExtend 32 <<< 2) + ((s.PC + 4#32) &&& 0xf0000000)
  let branchAddr := (i.immediate <<< 2) + s.PC + 4#32
  if c.beq && s.ALUZero board then branchAddr
  else if c.bne && !s.ALUZero board then branchAddr
  else if c.jr then s.ports.readData1
  else if c.j then jumpAddr
  else if c.jal then jumpAddr
  else s.PC + 4#32

/-- The registers are written at the negative edge, the memory and the program counter at
the positive edge after it. -/
def cycle : Top :=
  let regFile := write s.regFile (s.regWrites board)
  let PC := s.programCounter board
  { PC
    regFile
    memory := write s.memory (s.memWrites board)
    ports := s.ports.always regFile (s.instruction board) (board.fetch PC) }

end Top

/-- After the reset, with the first instruction at the ports. -/
def start (board : Board) (regFile : Reg → Word) (memory : Memory) : Top :=
  ⟨0, regFile, memory, .read regFile (board.fetch 0)⟩

/-! ### The instructions one after the other -/

/-- What the instruction reads at the ports is in the registers. -/
structure Fresh (board : Board) (s : Top) : Prop where
  readData1 : (s.instruction board).reads1 = true →
    s.ports.readData1 = s.regFile (s.instruction board).rs
  readData2 : (s.instruction board).reads2 = true →
    s.ports.readData2 = s.regFile (s.instruction board).rt

def Top.arch (s : Top) : Arch := ⟨s.PC, s.regFile, s.memory⟩

/-- The two `Control` differ in what is `x` here only. -/
structure Equals (c : Control) (c' : Cpu.Control) : Prop where
  memToReg : c.memToReg = c'.memToReg
  regWrite : c.regWrite = c'.regWrite
  memRead : c.memRead = c'.memRead
  memWrite : c.memWrite = c'.memWrite
  ALUOp : c.ALUOp = c'.ALUOp
  ALUSrc : c.ALUOp ≠ ALU_OP_NOP → c.ALUSrc = c'.ALUSrc

theorem control_equals (i : Word) : Equals (control i.opCode) i.control := by
  have h : ∀ opCode, (control opCode).memToReg = (Cpu.control opCode).memToReg ∧
      (control opCode).regWrite = (Cpu.control opCode).regWrite ∧
      (control opCode).memRead = (Cpu.control opCode).memRead ∧
      (control opCode).memWrite = (Cpu.control opCode).memWrite ∧
      (control opCode).ALUOp = (Cpu.control opCode).ALUOp ∧
      ((control opCode).ALUOp ≠ ALU_OP_NOP →
        (control opCode).ALUSrc = (Cpu.control opCode).ALUSrc) := by decide
  obtain ⟨h₁, h₂, h₃, h₄, h₅, h₆⟩ := h i.opCode
  exact ⟨h₁, h₂, h₃, h₄, h₅, h₆⟩

theorem writeReg_eq {i : Word} (h : i.control.regWrite = true) : (writeReg i).1 = i.dest := by
  have hdst : ∀ opCode, (Cpu.control opCode).regWrite = true →
      opCode = OP_JAL ∨ (control opCode).regDst = some (Cpu.control opCode).regDst := by decide
  rw [writeReg, Word.dest]
  split
  · rfl
  · rename_i hjal
    rcases hdst i.opCode h with hop | hdst
    · exact absurd (beq_iff_eq.mpr hop) hjal
    · rw [hdst, Word.writeReg]
      cases hd : i.control.regDst with
      | true => rw [show (Cpu.control i.opCode).regDst = true from hd, if_pos rfl]
      | false => rw [show (Cpu.control i.opCode).regDst = false from hd, if_neg (by decide)]

variable {board : Board} {s : Top}

@[simp] theorem arch_PC : s.arch.PC = s.PC := rfl

@[simp] theorem arch_regFile : s.arch.regFile = s.regFile := rfl

@[simp] theorem arch_memory : s.arch.memory = s.memory := rfl

theorem arch_instruction : s.arch.instruction board = s.instruction board := rfl

theorem ALUResult_eq (h : Fresh board s) : s.ALUResult board = s.arch.result board := by
  have hc := control_equals (s.instruction board)
  rw [Top.ALUResult, Arch.result, arch_instruction, hc.ALUOp]
  apply ALU_congr
  · exact fun huses => h.readData1 (Bool.or_eq_true_iff.mpr (.inl huses))
  · intro huses
    have hne : (control (s.instruction board).opCode).ALUOp ≠ ALU_OP_NOP := by
      intro hnop
      rw [← hc.ALUOp, hnop, ALUControl_NOP] at huses
      exact absurd huses (by decide)
    rw [hc.ALUSrc hne]
    cases hsrc : (s.instruction board).control.ALUSrc with
    | true => rfl
    | false =>
      apply h.readData2
      rw [Word.reads2, hsrc]
      exact Bool.or_eq_true_iff.mpr (.inl huses)

theorem readMemData_eq (h : Fresh board s) :
    s.memReadData board = s.arch.readMemData board := by
  have hc := control_equals (s.instruction board)
  have hnot : ∀ opCode, (Cpu.control opCode).memRead = true →
      (Cpu.control opCode).memWrite = false := by decide
  rw [Top.memReadData, Arch.readMemData, arch_instruction, hc.memRead, hc.memWrite,
    ← ALUResult_eq h]
  cases hread : (s.instruction board).control.memRead with
  | true =>
    rw [show (s.instruction board).control.memWrite = false from hnot _ hread]
    rfl
  | false => rfl

theorem writeData_eq (h : Fresh board s) : s.writeData board = s.arch.writeData board := by
  have hc := control_equals (s.instruction board)
  rw [Top.writeData, Arch.writeData, arch_instruction, hc.memToReg, readMemData_eq h,
    ALUResult_eq h]
  rfl

theorem regWrites_eq (h : Fresh board s) : s.regWrites board = s.arch.regWrites board := by
  have hc := control_equals (s.instruction board)
  rw [Top.regWrites, Arch.regWrites, arch_instruction, hc.regWrite, writeData_eq h]
  cases hwrite : (s.instruction board).control.regWrite with
  | true => rw [writeReg_eq hwrite]
  | false => simp

theorem memWrites_eq (h : Fresh board s) : s.memWrites board = s.arch.memWrites board := by
  have hc := control_equals (s.instruction board)
  rw [Top.memWrites, Arch.memWrites, arch_instruction, hc.memWrite, ALUResult_eq h]
  cases hwrite : (s.instruction board).control.memWrite with
  | true =>
    rw [h.readData2 (by simp [Word.reads2, hwrite])]
    rfl
  | false => rfl

theorem select_eq {α : Type} {beq bne zero jr j jal : Bool} {branch ra ra' jump next : α}
    (hra : jr = true → ra = ra') :
    (if (beq && zero) = true then branch else if (bne && !zero) = true then branch
      else if jr = true then ra else if j = true then jump else if jal = true then jump
      else next) =
    if (beq && zero || bne && !zero) = true then branch
    else if (jr || j || jal) = true then if jr = true then ra' else jump else next := by
  grind

theorem programCounter_eq (h : Fresh board s) :
    s.programCounter board = s.arch.nextPC board := by
  have hjr : (s.instruction board).branchControl.jr = true →
      s.ports.readData1 = s.regFile (s.instruction board).rs :=
    fun hjr => h.readData1 (Bool.or_eq_true_iff.mpr (.inr hjr))
  have hbranch : ((s.instruction board).immediate <<< 2) + s.PC + 4#32 =
      s.PC + 4#32 + ((s.instruction board).immediate <<< 2) := by ac_rfl
  simp only [Top.programCounter, Top.ALUZero, Arch.nextPC, Arch.taken, Arch.branchAddr,
    Arch.jumpAddr, Word.jump, arch_instruction, ALUResult_eq h, arch_PC, arch_regFile]
  rw [hbranch]
  exact select_eq hjr

theorem cycle_arch (h : Fresh board s) : (s.cycle board).arch = s.arch.step board := by
  rw [Arch.step, ← programCounter_eq h, ← regWrites_eq h, ← memWrites_eq h]
  rfl

/-! ### Runs -/

/-- No instruction of the run reads an old value at the ports. -/
def AlwaysFresh (board : Board) (s : Top) : Prop :=
  ∀ n, Fresh board ((Top.cycle board)^[n] s)

/-- One step of the instructions for each cycle. -/
theorem follows {ε : Type} {out : Top → List ε} {out' : Arch → List ε} {a : Arch}
    (hout : ∀ s, Fresh board s → out s = out' s.arch) :
    Follows (Top.cycle board) out (Arch.step board) out' a fun s m _ =>
      s.arch = (Arch.step board)^[m] a ∧ AlwaysFresh board s where
  step s m r h := by
    obtain ⟨harch, hfresh⟩ := h
    have hnow : Fresh board s := hfresh 0
    refine .inr ⟨r, ⟨?_, fun n => hfresh (n + 1)⟩, ?_⟩
    · rw [cycle_arch hnow, harch, Function.iterate_succ_apply']
    · rw [hout s hnow, harch]

variable {regFile : Reg → Word} {memory : Memory}

theorem regWrites_agree (h : AlwaysFresh board (start board regFile memory)) :
    Agree (trace (Top.cycle board) (Top.regWrites board) (start board regFile memory))
      (trace (Arch.step board) (Arch.regWrites board) ⟨0, regFile, memory⟩) :=
  (follows fun _ => regWrites_eq).agree (r := 0) ⟨rfl, h⟩

theorem memWrites_agree (h : AlwaysFresh board (start board regFile memory)) :
    Agree (trace (Top.cycle board) (Top.memWrites board) (start board regFile memory))
      (trace (Arch.step board) (Arch.memWrites board) ⟨0, regFile, memory⟩) :=
  (follows fun _ => memWrites_eq).agree (r := 0) ⟨rfl, h⟩

end Course.Cpu.SingleCycle
