import Mathlib.Data.Nat.Init
import Mathlib.Logic.Function.Basic

/-! The instructions of the two processors, and the units that are the same in both. -/

namespace Course.Cpu

abbrev Word := BitVec 32

abbrev Reg := BitVec 5

/-! ### Codes -/

@[match_pattern] def OP_RTYPE : BitVec 6 := 0b000000#6
@[match_pattern] def OP_ADDI : BitVec 6 := 0b001000#6
@[match_pattern] def OP_ADDIU : BitVec 6 := 0b001001#6
@[match_pattern] def OP_ANDI : BitVec 6 := 0b001100#6
@[match_pattern] def OP_ORI : BitVec 6 := 0b001101#6
@[match_pattern] def OP_XORI : BitVec 6 := 0b001110#6
@[match_pattern] def OP_LUI : BitVec 6 := 0b001111#6
@[match_pattern] def OP_LW : BitVec 6 := 0b100011#6
@[match_pattern] def OP_SW : BitVec 6 := 0b101011#6
@[match_pattern] def OP_BEQ : BitVec 6 := 0b000100#6
@[match_pattern] def OP_BNE : BitVec 6 := 0b000101#6
@[match_pattern] def OP_SLTI : BitVec 6 := 0b001010#6
@[match_pattern] def OP_SLTIU : BitVec 6 := 0b001011#6
@[match_pattern] def OP_J : BitVec 6 := 0b000010#6
@[match_pattern] def OP_JAL : BitVec 6 := 0b000011#6

@[match_pattern] def ALU_OP_RTYPE : BitVec 4 := 0b0000#4
@[match_pattern] def ALU_OP_ADD : BitVec 4 := 0b0001#4
@[match_pattern] def ALU_OP_AND : BitVec 4 := 0b0010#4
@[match_pattern] def ALU_OP_OR : BitVec 4 := 0b0011#4
@[match_pattern] def ALU_OP_XOR : BitVec 4 := 0b0100#4
@[match_pattern] def ALU_OP_LUI : BitVec 4 := 0b0101#4
@[match_pattern] def ALU_OP_BRANCH : BitVec 4 := 0b0110#4
@[match_pattern] def ALU_OP_SLT : BitVec 4 := 0b0111#4
@[match_pattern] def ALU_OP_SLTU : BitVec 4 := 0b1000#4
@[match_pattern] def ALU_OP_NOP : BitVec 4 := 0b1111#4

@[match_pattern] def ALU_AND : BitVec 4 := 0b0000#4
@[match_pattern] def ALU_OR : BitVec 4 := 0b0001#4
@[match_pattern] def ALU_XOR : BitVec 4 := 0b0010#4
@[match_pattern] def ALU_NOR : BitVec 4 := 0b0011#4
@[match_pattern] def ALU_ADD : BitVec 4 := 0b0100#4
@[match_pattern] def ALU_SUB : BitVec 4 := 0b0101#4
@[match_pattern] def ALU_SLT : BitVec 4 := 0b0110#4
@[match_pattern] def ALU_SLTU : BitVec 4 := 0b0111#4
@[match_pattern] def ALU_SLL : BitVec 4 := 0b1000#4
@[match_pattern] def ALU_SRL : BitVec 4 := 0b1001#4
@[match_pattern] def ALU_SRA : BitVec 4 := 0b1010#4
@[match_pattern] def ALU_SLLV : BitVec 4 := 0b1011#4
@[match_pattern] def ALU_SRLV : BitVec 4 := 0b1100#4
@[match_pattern] def ALU_SRAV : BitVec 4 := 0b1101#4
@[match_pattern] def ALU_LUI : BitVec 4 := 0b1110#4
@[match_pattern] def ALU_NOP : BitVec 4 := 0b1111#4

def FUNCT_JR : BitVec 6 := 0b001000#6

/-! ### Fields of an instruction -/

namespace Word

def opCode (i : Word) : BitVec 6 := i.extractLsb' 26 6

def rs (i : Word) : Reg := i.extractLsb' 21 5

def rt (i : Word) : Reg := i.extractLsb' 16 5

def rd (i : Word) : Reg := i.extractLsb' 11 5

def shamt (i : Word) : BitVec 5 := i.extractLsb' 6 5

def funct (i : Word) : BitVec 6 := i.extractLsb' 0 6

def source (i : Word) : BitVec 16 := i.extractLsb' 0 16

def jumpImm (i : Word) : BitVec 26 := i.extractLsb' 0 26

end Word

open Word

/-! ### Units -/

def ALU (input1 input2 : Word) (shamt : BitVec 5) (ALUCtr : BitVec 4) : Word :=
  match ALUCtr with
  | ALU_AND => input1 &&& input2
  | ALU_OR => input1 ||| input2
  | ALU_XOR => input1 ^^^ input2
  | ALU_NOR => ~~~(input1 ||| input2)
  | ALU_ADD => input1 + input2
  | ALU_SUB => input1 - input2
  | ALU_SLT => if input1.slt input2 then 1 else 0
  | ALU_SLTU => if input1 < input2 then 1 else 0
  | ALU_SLL => input2 <<< shamt
  | ALU_SRL => input2 >>> shamt
  | ALU_SRA => input2.sshiftRight' shamt
  | ALU_SLLV => input2 <<< input1
  | ALU_SRLV => input2 >>> input1
  | ALU_SRAV => input2.sshiftRight' input1
  | ALU_LUI => input2 <<< 16
  | _ => 0

/-- The last bits of `add` and `sub` are not looked at. -/
def ALUControl (ALUOp : BitVec 4) (funct : BitVec 6) : BitVec 4 :=
  match ALUOp with
  | ALU_OP_RTYPE =>
    match funct with
    | 0b100000#6 | 0b100001#6 => ALU_ADD
    | 0b100010#6 | 0b100011#6 => ALU_SUB
    | 0b100100#6 => ALU_AND
    | 0b100101#6 => ALU_OR
    | 0b100110#6 => ALU_XOR
    | 0b100111#6 => ALU_NOR
    | 0b101010#6 => ALU_SLT
    | 0b101011#6 => ALU_SLTU
    | 0b000000#6 => ALU_SLL
    | 0b000010#6 => ALU_SRL
    | 0b000011#6 => ALU_SRA
    | 0b000100#6 => ALU_SLLV
    | 0b000110#6 => ALU_SRLV
    | 0b000111#6 => ALU_SRAV
    | _ => ALU_NOP
  | ALU_OP_ADD => ALU_ADD
  | ALU_OP_AND => ALU_AND
  | ALU_OP_OR => ALU_OR
  | ALU_OP_XOR => ALU_XOR
  | ALU_OP_LUI => ALU_LUI
  | ALU_OP_BRANCH => ALU_SUB
  | ALU_OP_SLT => ALU_SLT
  | ALU_OP_SLTU => ALU_SLTU
  | _ => ALU_NOP

theorem ALUControl_NOP (funct : BitVec 6) : ALUControl ALU_OP_NOP funct = ALU_NOP := rfl

structure BranchControl where
  beq : Bool
  bne : Bool
  jr : Bool
  j : Bool
  jal : Bool

def branchControl (opCode funct : BitVec 6) : BranchControl where
  beq := opCode == OP_BEQ
  bne := opCode == OP_BNE
  jr := opCode == OP_RTYPE && funct == FUNCT_JR
  j := opCode == OP_J
  jal := opCode == OP_JAL

def immediateExtension (source : BitVec 16) (opCode : BitVec 6) : Word :=
  match opCode with
  | OP_ADDIU | OP_ANDI | OP_ORI | OP_XORI | OP_SLTIU => source.zeroExtend 32
  | _ => source.signExtend 32

structure Control where
  regDst : Bool
  ALUSrc : Bool
  memToReg : Bool
  regWrite : Bool
  memRead : Bool
  memWrite : Bool
  ALUOp : BitVec 4

/-- The `Control` of the pipeline. -/
def control (opCode : BitVec 6) : Control :=
  match opCode with
  | OP_RTYPE => ⟨true, false, false, true, false, false, ALU_OP_RTYPE⟩
  | OP_ADDI => ⟨false, true, false, true, false, false, ALU_OP_ADD⟩
  | OP_ADDIU => ⟨false, true, false, true, false, false, ALU_OP_ADD⟩
  | OP_ANDI => ⟨false, true, false, true, false, false, ALU_OP_AND⟩
  | OP_ORI => ⟨false, true, false, true, false, false, ALU_OP_OR⟩
  | OP_XORI => ⟨false, true, false, true, false, false, ALU_OP_XOR⟩
  | OP_LUI => ⟨false, true, false, true, false, false, ALU_OP_LUI⟩
  | OP_LW => ⟨false, true, true, true, true, false, ALU_OP_ADD⟩
  | OP_SW => ⟨false, true, false, false, false, true, ALU_OP_ADD⟩
  | OP_BEQ => ⟨false, false, false, false, false, false, ALU_OP_BRANCH⟩
  | OP_BNE => ⟨false, false, false, false, false, false, ALU_OP_BRANCH⟩
  | OP_SLTI => ⟨false, true, false, true, false, false, ALU_OP_SLT⟩
  | OP_SLTIU => ⟨false, true, false, true, false, false, ALU_OP_SLTU⟩
  | OP_J => ⟨false, false, false, false, false, false, ALU_OP_NOP⟩
  | OP_JAL => ⟨false, false, false, true, false, false, ALU_OP_NOP⟩
  | _ => ⟨false, true, false, false, false, false, ALU_OP_NOP⟩

/-! ### Memories -/

/-- Both memories have 64 words, of which `address >> 2` is read. -/
abbrev Memory := Fin 64 → Word

def index (address : Word) : Option (Fin 64) :=
  if h : (address >>> 2).toNat < 64 then some ⟨_, h⟩ else none

/-- The program, and what loads beyond the data memory read. -/
structure Board where
  instructions : Memory
  beyond : Word → Word

/-- All bits are set. An instruction beyond the memory is unknown, and takes the same
default branches. -/
def NOP : Word := BitVec.allOnes 32

def Board.fetch (board : Board) (address : Word) : Word :=
  match index address with
  | some i => board.instructions i
  | none => NOP

def Board.load (board : Board) (memory : Memory) (address : Word) : Word :=
  match index address with
  | some i => memory i
  | none => board.beyond address

/-- A write beyond the memory is ignored. -/
def stores (address data : Word) : List (Fin 64 × Word) :=
  match index address with
  | some i => [(i, data)]
  | none => []

/-- One write after the other. -/
def write {ι : Type} [DecidableEq ι] (m : ι → Word) (ws : List (ι × Word)) : ι → Word :=
  ws.foldl (fun m w => Function.update m w.1 w.2) m

/-! ### Operands -/

/-- The operations that look at the first input. -/
def uses1 (ALUCtr : BitVec 4) : Bool :=
  match ALUCtr with
  | ALU_SLL | ALU_SRL | ALU_SRA | ALU_LUI | ALU_NOP => false
  | _ => true

def uses2 (ALUCtr : BitVec 4) : Bool := ALUCtr != ALU_NOP

theorem ALU_congr {a a' b b' : Word} {ALUCtr : BitVec 4} (shamt : BitVec 5)
    (h₁ : uses1 ALUCtr = true → a = a') (h₂ : uses2 ALUCtr = true → b = b') :
    ALU a b shamt ALUCtr = ALU a' b' shamt ALUCtr := by
  unfold ALU
  split
  case h_9 | h_10 | h_11 | h_15 => rw [h₂ rfl]
  case h_16 => rfl
  all_goals rw [h₁ rfl, h₂ rfl]

end Course.Cpu
