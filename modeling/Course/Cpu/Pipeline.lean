import Course.Cpu.Sequential

/-! The pipelined processor. Logic without a clock follows its inputs. The processes of a
clock edge read what they read before it; those with an asynchronous input run again when
the edge raises it. -/

namespace Course.Cpu.Pipeline

open Word

/-! ### Buffers -/

structure BufferIFID where
  instruction : Word
  PC : Word
  branchPredict : Bool

structure BufferIDEX where
  PC : Word
  instruction : Word
  branchPredict : Bool
  regDst : Bool
  ALUSrc : Bool
  memToReg : Bool
  regWrite : Bool
  memRead : Bool
  memWrite : Bool
  beq : Bool
  bne : Bool
  jump : Bool
  jal : Bool
  jumpAddr : Word
  ALUCtr : BitVec 4
  readReg1 : Word
  readReg2 : Word
  immediate : Word

structure BufferEXMEM where
  PC : Word
  ALUResult : Word
  readReg2 : Word
  writeReg : Reg
  memToReg : Bool
  regWrite : Bool
  memRead : Bool
  memWrite : Bool
  branch : Bool
  branchAddr : Word
  predictCorrect : Bool
  jal : Bool

structure BufferMEMWB where
  PC : Word
  ALUResult : Word
  readMemData : Word
  writeReg : Reg
  memToReg : Bool
  regWrite : Bool
  jal : Bool

def BufferIFID.reset : BufferIFID := ⟨BitVec.allOnes 32, BitVec.allOnes 32, false⟩

def BufferIDEX.reset : BufferIDEX where
  PC := BitVec.allOnes 32
  instruction := BitVec.allOnes 32
  branchPredict := false
  regDst := false
  ALUSrc := false
  memToReg := false
  regWrite := false
  memRead := false
  memWrite := false
  beq := false
  bne := false
  jump := false
  jal := false
  jumpAddr := 0
  ALUCtr := 0
  readReg1 := 0
  readReg2 := 0
  immediate := 0

def BufferEXMEM.reset : BufferEXMEM where
  PC := BitVec.allOnes 32
  ALUResult := 0
  readReg2 := 0
  writeReg := 0
  memToReg := false
  regWrite := false
  memRead := false
  memWrite := false
  branch := false
  branchAddr := 0
  predictCorrect := true
  jal := false

def BufferMEMWB.reset : BufferMEMWB := ⟨BitVec.allOnes 32, 0, 0, 0, false, false, false⟩

structure Top where
  PC : Word
  branchPredictionTable : BitVec 4 → Bool
  ifid : BufferIFID
  idex : BufferIDEX
  exmem : BufferEXMEM
  memwb : BufferMEMWB
  regFile : Reg → Word
  memory : Memory

/-- `PC[6:3]` -/
def tableIndex (PC : Word) : BitVec 4 := PC.extractLsb' 3 4

namespace Top

variable (board : Board) (t : Top)

/-! ### Write back and memory -/

def WB_writeReg : Reg := if t.memwb.jal then 31 else t.memwb.writeReg

def WB_writeData : Word :=
  if t.memwb.jal then t.memwb.PC + 4#32
  else if t.memwb.memToReg then t.memwb.readMemData
  else t.memwb.ALUResult

def regWrites : List (Reg × Word) :=
  if t.memwb.regWrite ∧ t.WB_writeReg ≠ 0 then [(t.WB_writeReg, t.WB_writeData)] else []

def memWrites : List (Fin 64 × Word) :=
  if t.exmem.memWrite then stores t.exmem.ALUResult t.exmem.readReg2 else []

def forwardData : Word := if t.memwb.memToReg then t.memwb.readMemData else t.memwb.ALUResult

def forwardWriteReg : Reg := if t.memwb.regWrite then t.memwb.writeReg else 0

def mem : BufferMEMWB where
  PC := t.exmem.PC
  ALUResult := t.exmem.ALUResult
  readMemData := if t.exmem.memRead then board.load t.memory t.exmem.ALUResult else 0
  writeReg := t.exmem.writeReg
  memToReg := t.exmem.memToReg
  regWrite := t.exmem.regWrite
  jal := t.exmem.jal

/-! ### Execution -/

def innerForward (r : Reg) : Bool := r == t.exmem.writeReg && t.exmem.writeReg != 0

def memForward (r : Reg) : Bool := r == t.forwardWriteReg && t.forwardWriteReg != 0

/-- An operand of the register `r` that was read as `data`. -/
def forward (r : Reg) (data : Word) : Word :=
  if t.innerForward r then t.exmem.ALUResult
  else if t.memForward r then t.forwardData
  else data

def result : Word :=
  let i := t.idex.instruction
  ALU (t.forward i.rs t.idex.readReg1)
    (if t.idex.ALUSrc then t.forward 0 t.idex.immediate else t.forward i.rt t.idex.readReg2)
    i.shamt t.idex.ALUCtr

def zero : Bool := t.result == 0

def isBranch : Bool := t.idex.beq || t.idex.bne

def branchTaken : Bool := t.idex.beq && t.zero || t.idex.bne && !t.zero

def predictCorrect : Bool :=
  !t.isBranch || t.idex.branchPredict && t.branchTaken || !t.idex.branchPredict && !t.branchTaken

def ex : BufferEXMEM where
  PC := t.idex.PC
  ALUResult := t.result
  readReg2 := t.forward t.idex.instruction.rt t.idex.readReg2
  writeReg := if t.idex.regDst then t.idex.instruction.rd else t.idex.instruction.rt
  memToReg := t.idex.memToReg
  regWrite := t.idex.regWrite
  memRead := t.idex.memRead
  memWrite := t.idex.memWrite
  branch := t.branchTaken
  branchAddr := t.idex.PC + 4#32 + (t.idex.immediate <<< 2)
  predictCorrect := t.predictCorrect
  jal := t.idex.jal

def MEM_stall : Bool :=
  t.exmem.memRead &&
    (t.exmem.writeReg == t.idex.instruction.rt ||
      t.exmem.writeReg == t.idex.instruction.rd && !t.idex.ALUSrc) &&
    t.idex.instruction.opCode != OP_LW && !t.idex.jump

/-! ### Decoding and fetching -/

def readData (r : Reg) : Word :=
  if t.memwb.regWrite && t.WB_writeReg == r then t.WB_writeData else t.regFile r

def id : BufferIDEX :=
  let i := t.ifid.instruction
  { PC := t.ifid.PC
    instruction := i
    branchPredict := t.ifid.branchPredict
    regDst := i.control.regDst
    ALUSrc := i.control.ALUSrc
    memToReg := i.control.memToReg
    regWrite := i.control.regWrite
    memRead := i.control.memRead
    memWrite := i.control.memWrite
    beq := i.branchControl.beq
    bne := i.branchControl.bne
    jump := i.jump
    jal := i.branchControl.jal
    jumpAddr := if i.branchControl.jr then t.readData i.rs
      else (i.jumpImm.zeroExtend 32 <<< 2) + ((t.ifid.PC + 4#32) &&& 0xf0000000)
    ALUCtr := i.ALUCtr
    readReg1 := t.readData i.rs
    readReg2 := t.readData i.rt
    immediate := i.immediate }

/-- What `branchPredictionTable` says of the address. -/
def predict : Bool := t.branchPredictionTable (tableIndex t.PC)

def fetched : BufferIFID := ⟨board.fetch t.PC, t.PC, t.predict⟩

end Top

/-- The target that the fetch computes, by 17 bits. -/
def branchTarget (PC instruction : Word) : Word :=
  let branchImm := (PC + 4#32 + (instruction.source.zeroExtend 32 <<< 2)).truncate 17
  (BitVec.fill 16 branchImm[15] ++ branchImm).truncate 32

/-- The address fetched from next, but for jumps, branches and stalls. -/
def follow (fetched : BufferIFID) : Word :=
  let isBranch := fetched.instruction.opCode == OP_BEQ || fetched.instruction.opCode == OP_BNE
  if isBranch && fetched.branchPredict then branchTarget fetched.PC fetched.instruction
  else fetched.PC + 4#32

namespace Top

variable (board : Board) (t : Top)

/-! ### Clock edges -/

/-- Registers and data memory are written, and a wrong prediction is noted. -/
def posedge : Top :=
  { t with
    branchPredictionTable :=
      if t.exmem.predictCorrect then t.branchPredictionTable
      else Function.update t.branchPredictionTable (tableIndex t.exmem.PC)
        (!t.branchPredictionTable (tableIndex t.exmem.PC))
    regFile := write t.regFile t.regWrites
    memory := write t.memory t.memWrites }

/-- The `reset` of the first buffer. -/
def flushIF : Bool := t.idex.jump || !t.exmem.predictCorrect

/-- The `reset` of the second buffer. -/
def flushID : Bool := !t.exmem.predictCorrect

def negedge : Top :=
  { t with
    PC :=
      if t.exmem.branch then t.exmem.branchAddr
      else if t.idex.jump then t.idex.jumpAddr
      else if t.MEM_stall then t.PC
      else follow (t.fetched board)
    ifid :=
      if t.flushIF then .reset
      else if t.MEM_stall then t.ifid
      else t.fetched board
    idex :=
      if t.flushID then .reset
      else if t.MEM_stall then t.idex
      else t.id
    exmem := if t.MEM_stall then .reset else t.ex
    memwb := t.mem board }

/-- After an edge: the processes with an asynchronous input that was low before. -/
def settle (old t : Top) : Top :=
  { t with
    PC :=
      if t.exmem.branch && !old.exmem.branch || t.idex.jump && !old.idex.jump then
        if t.exmem.branch then t.exmem.branchAddr else t.idex.jumpAddr
      else t.PC
    ifid := if t.flushIF && !old.flushIF then .reset else t.ifid
    idex := if t.flushID && !old.flushID then .reset else t.idex }

/-- From one negative edge to the next. -/
def cycle : Top := t.posedge.settle (t.posedge.negedge board)

end Top

/-- After the reset. -/
def start (table : BitVec 4 → Bool) (regFile : Reg → Word) (memory : Memory) : Top :=
  ⟨0, table, .reset, .reset, .reset, .reset, regFile, memory⟩

/-! ### Hazards

What the pipeline does not see to: operands that are forwarded from the wrong place, and addresses
that are fetched from too early. -/

/-- The instruction changes something. -/
def BufferIDEX.acts (b : BufferIDEX) : Bool := b.regWrite || b.memWrite || b.beq || b.bne

def BufferIDEX.reads1 (b : BufferIDEX) : Bool := b.acts && uses1 b.ALUCtr

def BufferIDEX.reads2 (b : BufferIDEX) : Bool :=
  b.acts && !b.ALUSrc && uses2 b.ALUCtr || b.memWrite

/-- The instruction in execution uses the register `r`. -/
def BufferIDEX.Reads (b : BufferIDEX) (r : Reg) : Prop :=
  b.reads1 = true ∧ r = b.instruction.rs ∨ b.reads2 = true ∧ r = b.instruction.rt

/-- The instruction uses the register `r`. -/
def Reads (i : Word) (r : Reg) : Prop :=
  i.reads1 = true ∧ r = i.rs ∨ i.reads2 = true ∧ r = i.rt

/-- The decoded instruction is not flushed at the next edge. -/
def Top.Decodes (t : Top) : Prop := t.MEM_stall = false ∧ t.predictCorrect = true

/-- The operands of the next edge are the right ones. -/
structure DataClear (t : Top) : Prop where
  /-- What is forwarded from the execution before is the value of a register that it
  writes, and no address of a load. -/
  inner : ∀ r, t.MEM_stall = false → t.idex.Reads r → t.innerForward r = true →
    t.exmem.regWrite = true ∧ t.exmem.memToReg = false
  /-- No operand leaves the pipeline during a stall. -/
  stall : ∀ r, t.MEM_stall = true → t.idex.Reads r → t.memForward r = true →
    r = t.exmem.writeReg
  /-- No other value is read for register 0. -/
  zero : t.Decodes → Reads t.ifid.instruction 0 → t.memwb.regWrite = true →
    t.WB_writeReg = 0 → t.WB_writeData = t.regFile 0

/-- The next edge fetches from where the program goes. -/
structure ControlClear (t : Top) : Prop where
  /-- No branch is predicted as taken. -/
  predict : t.Decodes →
    (t.ifid.instruction.branchControl.beq || t.ifid.instruction.branchControl.bne) = true →
    t.ifid.branchPredict = false
  /-- No target of `jr` is still in the pipeline. -/
  execution : t.Decodes → t.ifid.instruction.branchControl.jr = true →
    t.ifid.instruction.rs ≠ 0 → t.idex.regWrite = true →
    t.ex.writeReg ≠ t.ifid.instruction.rs
  memory : t.Decodes → t.ifid.instruction.branchControl.jr = true →
    t.ifid.instruction.rs ≠ 0 → t.exmem.regWrite = true →
    t.exmem.writeReg ≠ t.ifid.instruction.rs

end Course.Cpu.Pipeline
