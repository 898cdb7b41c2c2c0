import Course.Cpu.Isa

/-! The meaning of the instructions: one after the other, without the machinery of
either processor. -/

namespace Course.Cpu

open Word

/-- What a program sees of a processor. -/
structure Arch where
  PC : Word
  regFile : Reg → Word
  memory : Memory

/-! ### Decoded instructions -/

def Word.control (i : Word) : Control := Cpu.control i.opCode

def Word.branchControl (i : Word) : BranchControl := Cpu.branchControl i.opCode i.funct

def Word.ALUCtr (i : Word) : BitVec 4 := ALUControl i.control.ALUOp i.funct

def Word.immediate (i : Word) : Word := immediateExtension i.source i.opCode

/-- The register of the ports that an instruction writes. -/
def Word.writeReg (i : Word) : Reg := if i.control.regDst then i.rd else i.rt

def Word.jump (i : Word) : Bool :=
  i.branchControl.jr || i.branchControl.j || i.branchControl.jal

/-- The register an instruction really writes. -/
def Word.dest (i : Word) : Reg := if i.branchControl.jal then 31 else i.writeReg

/-- The instruction uses the register `rs`. -/
def Word.reads1 (i : Word) : Bool := uses1 i.ALUCtr || i.branchControl.jr

/-- The instruction uses the register `rt`. -/
def Word.reads2 (i : Word) : Bool := !i.control.ALUSrc && uses2 i.ALUCtr || i.control.memWrite

namespace Arch

variable (board : Board) (s : Arch)

def instruction : Word := board.fetch s.PC

def result : Word :=
  let i := s.instruction board
  ALU (s.regFile i.rs) (if i.control.ALUSrc then i.immediate else s.regFile i.rt) i.shamt i.ALUCtr

def readMemData : Word :=
  if (s.instruction board).control.memRead then board.load s.memory (s.result board) else 0

def writeData : Word :=
  let i := s.instruction board
  if i.branchControl.jal then s.PC + 4#32
  else if i.control.memToReg then s.readMemData board
  else s.result board

/-- Register 0 is never written. -/
def regWrites : List (Reg × Word) :=
  let i := s.instruction board
  if i.control.regWrite ∧ i.dest ≠ 0 then [(i.dest, s.writeData board)] else []

def memWrites : List (Fin 64 × Word) :=
  let i := s.instruction board
  if i.control.memWrite then stores (s.result board) (s.regFile i.rt) else []

def taken : Bool :=
  let c := (s.instruction board).branchControl
  c.beq && s.result board == 0 || c.bne && !(s.result board == 0)

def branchAddr : Word := s.PC + 4#32 + ((s.instruction board).immediate <<< 2)

def jumpAddr : Word :=
  let i := s.instruction board
  if i.branchControl.jr then s.regFile i.rs
  else (i.jumpImm.zeroExtend 32 <<< 2) + ((s.PC + 4#32) &&& 0xf0000000)

def nextPC : Word :=
  if s.taken board then s.branchAddr board
  else if (s.instruction board).jump then s.jumpAddr board
  else s.PC + 4#32

def step : Arch where
  PC := s.nextPC board
  regFile := write s.regFile (s.regWrites board)
  memory := write s.memory (s.memWrites board)

end Arch

end Course.Cpu
