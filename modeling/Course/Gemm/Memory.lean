import Mathlib.Algebra.Group.Nat.Defs
import Mathlib.Data.Nat.Log
import Mathlib.Logic.Function.Basic

/-! The parameters of the accelerator, and its on-chip memory of bytes, which answers a
read in the next cycle. -/

namespace Course.Gemm

/-- `(size + coreSize - 1) & ~(coreSize - 1)` on 32 bits, which the generator and the
circuit both compute. -/
def pad (size coreSize : ℕ) : ℕ :=
  (size + coreSize - 1) % 2 ^ 32 &&& (2 ^ 32 - 1 - (coreSize - 1))

/-- `x - y` of Chisel on `w` bits -/
def usub (w x y : ℕ) : ℕ := (x + 2 ^ w - y) % 2 ^ w

structure MatrixMultiplicationConfigs where
  calcCoreSize : ℕ := 8
  isSignedA : Bool := true
  isSignedB : Bool := true
  maxMatARows : ℕ := 1
  maxMatACols : ℕ := 784
  maxMatBRows : ℕ := 784
  maxMatBCols : ℕ := 128
  deriving DecidableEq

namespace MatrixMultiplicationConfigs

def selectA (_ : MatrixMultiplicationConfigs) : ℕ := 0

def selectB (_ : MatrixMultiplicationConfigs) : ℕ := 1

def selectC (_ : MatrixMultiplicationConfigs) : ℕ := 2

def baseAddressA (_ : MatrixMultiplicationConfigs) : ℕ := 0

variable (cfg : MatrixMultiplicationConfigs)

def matAElemNum : ℕ := pad cfg.maxMatARows cfg.calcCoreSize * pad cfg.maxMatACols cfg.calcCoreSize

def matBElemNum : ℕ := pad cfg.maxMatBRows cfg.calcCoreSize * pad cfg.maxMatBCols cfg.calcCoreSize

def matResElemNum : ℕ :=
  pad cfg.maxMatARows cfg.calcCoreSize * pad cfg.maxMatBCols cfg.calcCoreSize

def memSize : ℕ := cfg.matAElemNum + cfg.matBElemNum + cfg.matResElemNum * 4

/-- `log2Ceil(memSize)` -/
def addrWidth : ℕ := Nat.clog 2 cfg.memSize

def baseAddressB : ℕ := cfg.matAElemNum

def baseAddressC : ℕ := cfg.matAElemNum + cfg.matBElemNum

end MatrixMultiplicationConfigs

/-- The parameters from which a circuit is generated: the core size passes the
assertion, a vector has at least two elements, and the sizes are 32-bit integers. -/
structure Configs extends MatrixMultiplicationConfigs where
  two_le : 2 ≤ toMatrixMultiplicationConfigs.calcCoreSize
  isPowerOfTwo : toMatrixMultiplicationConfigs.calcCoreSize.isPowerOfTwo
  memSize_lt : toMatrixMultiplicationConfigs.memSize < 2 ^ 31

theorem Configs.memSize_le (cfg : Configs) : cfg.memSize ≤ 2 ^ cfg.addrWidth :=
  Nat.le_pow_clog Nat.one_lt_two _

/-- The values of `dataSize`. -/
inductive MemOp
  | byteOp
  | halfOp
  | wordOp
  deriving DecidableEq

namespace MemOp

def bytes : MemOp → ℕ
  | byteOp => 1
  | halfOp => 2
  | wordOp => 4

end MemOp

structure MemoryInput where
  dataIn : BitVec 32
  address : ℕ
  dataSize : MemOp
  writeEnable : Bool

/-- What the read ports put out where the memory leaves it undefined: `undef op k` is
the port of byte `k` in the branch `op`. -/
abbrev Undef := MemOp → ℕ → BitVec 8

/-- `ports op k` is the byte that the last cycle read for byte `k` in the branch `op`. -/
structure Memory where
  mem : ℕ → BitVec 8
  ports : MemOp → ℕ → BitVec 8

namespace Memory

variable (cfg : Configs) (s : Memory) (io : MemoryInput) (undef : Undef)

/-- `io.address + k.U` -/
def portAddress (k : ℕ) : ℕ := (io.address + k) % 2 ^ cfg.addrWidth

/-- `mem.write`, which has no effect past the end -/
def write (mem : ℕ → BitVec 8) (address : ℕ) (data : BitVec 8) : ℕ → BitVec 8 :=
  if address < cfg.memSize then Function.update mem address data else mem

def writeBytes : ℕ → ℕ → BitVec 8
  | 0 => s.mem
  | k + 1 => write cfg (writeBytes k) (portAddress cfg io k) (io.dataIn.extractLsb' (8 * k) 8)

/-- A port is read when its branch is taken. Reading what is being written is undefined. -/
def readPort (op : MemOp) (k : ℕ) : BitVec 8 :=
  if op = io.dataSize ∧ io.writeEnable = false ∧ portAddress cfg io k < cfg.memSize then
    s.mem (portAddress cfg io k)
  else undef op k

def next : Memory where
  mem := if io.writeEnable then s.writeBytes cfg io io.dataSize.bytes else s.mem
  ports := s.readPort cfg io undef

/-- `Cat` of the ports of the branch that this cycle selects -/
def dataOut (dataSize : MemOp) : BitVec 32 :=
  match dataSize with
  | .byteOp => (s.ports .byteOp 0).setWidth 32
  | .halfOp => (s.ports .halfOp 1 ++ s.ports .halfOp 0).setWidth 32
  | .wordOp => s.ports .wordOp 3 ++ s.ports .wordOp 2 ++ s.ports .wordOp 1 ++ s.ports .wordOp 0

variable {cfg s io undef}

variable (cfg s undef) in
theorem next_mem_of_read (h : io.writeEnable = false) : (s.next cfg io undef).mem = s.mem := by
  simp [next, h]

variable (s undef) in
/-- A byte that is requested in a cycle is there in the next one. -/
theorem dataOut_byte (hs : io.dataSize = .byteOp) (hw : io.writeEnable = false)
    (ha : io.address < cfg.memSize) :
    ((s.next cfg io undef).dataOut .byteOp).setWidth 8 = s.mem io.address := by
  have hp : portAddress cfg io 0 = io.address :=
    Nat.mod_eq_of_lt (Nat.lt_of_lt_of_le ha cfg.memSize_le)
  simp [next, dataOut, readPort, hs, hw, hp, ha]

end Memory

/-- The little-endian word at an address. -/
def wordAt (mem : ℕ → BitVec 8) (a : ℕ) : BitVec 32 :=
  mem (a + 3) ++ mem (a + 2) ++ mem (a + 1) ++ mem a

namespace Memory

variable {cfg : Configs} {s : Memory} {io : MemoryInput} {undef : Undef}

theorem portAddress_of_lt {k : ℕ} (h : io.address + k < cfg.memSize) :
    portAddress cfg io k = io.address + k :=
  Nat.mod_eq_of_lt (Nat.lt_of_lt_of_le h cfg.memSize_le)

variable (s undef) in
theorem dataOut_word (hs : io.dataSize = .wordOp) (hw : io.writeEnable = false)
    (ha : io.address + 3 < cfg.memSize) :
    (s.next cfg io undef).dataOut .wordOp = wordAt s.mem io.address := by
  have port : ∀ k ≤ 3, (s.next cfg io undef).ports .wordOp k = s.mem (io.address + k) := by
    intro k hk
    have hlt : io.address + k < cfg.memSize := by omega
    simp [next, readPort, hs, hw, portAddress_of_lt hlt, hlt]
  simp [dataOut, wordAt, port]

theorem writeBytes_of_lt (k : ℕ) (h : io.address + k ≤ cfg.memSize) (x : ℕ) :
    s.writeBytes cfg io k x =
      if io.address ≤ x ∧ x < io.address + k then
        io.dataIn.extractLsb' (8 * (x - io.address)) 8
      else s.mem x := by
  induction k with
  | zero => simp [writeBytes, show ¬(io.address ≤ x ∧ x < io.address) by omega]
  | succ k ih =>
    have hlt : io.address + k < cfg.memSize := by omega
    rw [writeBytes, portAddress_of_lt hlt, write, if_pos hlt]
    by_cases hx : x = io.address + k
    · subst hx
      simp
    · rw [Function.update_of_ne hx, ih (by omega)]
      have : (io.address ≤ x ∧ x < io.address + k) ↔
          (io.address ≤ x ∧ x < io.address + (k + 1)) := by omega
      simp [this]

theorem next_mem_byte (hs : io.dataSize = .byteOp) (hw : io.writeEnable = true)
    (ha : io.address < cfg.memSize) :
    (s.next cfg io undef).mem =
      Function.update s.mem io.address (io.dataIn.extractLsb' 0 8) := by
  funext x
  simp only [next, hw, hs, MemOp.bytes, if_true]
  rw [writeBytes_of_lt 1 ha]
  by_cases hx : x = io.address
  · subst hx
    simp
  · rw [if_neg (by omega), Function.update_of_ne hx]

end Memory

/-- The memory with a word written at `a`. -/
def writeWord (mem : ℕ → BitVec 8) (a : ℕ) (w : BitVec 32) (x : ℕ) : BitVec 8 :=
  if a ≤ x ∧ x < a + 4 then w.extractLsb' (8 * (x - a)) 8 else mem x

theorem Memory.next_mem_word {cfg : Configs} {s : Memory} {io : MemoryInput} {undef : Undef}
    (hs : io.dataSize = .wordOp) (hw : io.writeEnable = true)
    (ha : io.address + 3 < cfg.memSize) :
    (s.next cfg io undef).mem = writeWord s.mem io.address io.dataIn := by
  funext x
  simp only [next, hw, hs, MemOp.bytes, if_true]
  exact writeBytes_of_lt 4 ha x

theorem writeWord_frame {mem : ℕ → BitVec 8} {a : ℕ} {w : BitVec 32} {x : ℕ}
    (h : x < a ∨ a + 4 ≤ x) : writeWord mem a w x = mem x :=
  if_neg (by omega)

theorem wordAt_writeWord (mem : ℕ → BitVec 8) (a : ℕ) (w : BitVec 32) :
    wordAt (writeWord mem a w) a = w := by
  have byte : ∀ k < 4, writeWord mem a w (a + k) = w.extractLsb' (8 * k) 8 := by
    intro k hk
    simp [writeWord, hk]
  have h0 := byte 0 (by decide)
  rw [Nat.add_zero] at h0
  rw [wordAt, byte 1 (by decide), byte 2 (by decide), byte 3 (by decide), h0,
    BitVec.extractLsb'_append_extractLsb'_eq_extractLsb' (show 8 * 3 = 8 * 2 + 8 from rfl),
    BitVec.extractLsb'_append_extractLsb'_eq_extractLsb' (show 8 * 2 = 8 * 1 + 8 from rfl),
    BitVec.extractLsb'_append_extractLsb'_eq_extractLsb' (show 8 * 1 = 8 * 0 + 8 from rfl)]
  exact BitVec.extractLsb'_eq_self

theorem wordAt_writeWord_of_ne {mem : ℕ → BitVec 8} {a b : ℕ} {w : BitVec 32}
    (h : b + 4 ≤ a ∨ a + 4 ≤ b) : wordAt (writeWord mem a w) b = wordAt mem b := by
  have byte : ∀ k < 4, writeWord mem a w (b + k) = mem (b + k) :=
    fun k hk => writeWord_frame (by omega)
  have h0 := byte 0 (by decide)
  rw [Nat.add_zero] at h0
  rw [wordAt, byte 1 (by decide), byte 2 (by decide), byte 3 (by decide), h0, wordAt]

end Course.Gemm
