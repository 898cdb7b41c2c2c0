import Course.Gemm.Memory
import Mathlib.Algebra.BigOperators.Group.Finset.Basic

/-! One block product: a core loads a row and a column of the memory, byte by byte,
adds their dot product to an accumulator, and stores the accumulators as words. -/

namespace Course.Gemm

open Finset

/-- `convertedA`, `convertedB` -/
def converted (isSigned : Bool) (b : BitVec 8) : ℤ := if isSigned then b.toInt else b.toNat

/-- The `result` of `VectorDotProductModule`: `reduce(_ +& _)` keeps every carry, the
output has 32 bits. -/
def vecDotProduct (cfg : Configs) (vecA vecB : ℕ → BitVec 8) : BitVec 32 :=
  let products i :=
    BitVec.ofInt 32 (converted cfg.isSignedA (vecA i) * converted cfg.isSignedB (vecB i))
  BitVec.ofInt 32 (∑ i ∈ range cfg.calcCoreSize, (products i).toInt)

inductive CoreState
  | ready
  | load
  | busy
  | finish
  | store
  deriving DecidableEq

inductive LoadState
  | loadRow
  | loadCol
  deriving DecidableEq

/-- The registers of `MatrixMultiplicationCoreModule`, as they are after reset, those of
its `MatrixAccumulatorModule`, and its memory. -/
structure Core where
  bufferRow : ℕ → BitVec 8 := fun _ => 0
  bufferCol : ℕ → BitVec 8 := fun _ => 0
  state : CoreState := .ready
  currentRow : ℕ := 0
  currentCol : ℕ := 0
  loadState : LoadState := .loadRow
  index : ℕ := 0
  waitMem : Bool := true
  accumulator : ℕ → BitVec 32 := fun _ => 0#32
  memory : Memory

structure Bases where
  baseAddressA : ℕ
  baseAddressB : ℕ
  baseAddressC : ℕ
  rowAddrDiffA : ℕ
  rowAddrDiffB : ℕ
  rowAddrDiffC : ℕ

structure CoreInput extends Bases where
  dataIn : BitVec 8
  address : ℕ
  writeEnable : Bool
  start : Bool
  store : Bool

namespace Core

variable (cfg : Configs) (s : Core) (io : CoreInput) (undef : Undef)

def finish : Bool := decide (s.state = .finish)

/-- The accumulator at `io.row` and `io.col`, which are the current ones. -/
def cell : ℕ := s.currentRow * cfg.calcCoreSize + s.currentCol

def loadAddress (b : Bases) : ℕ :=
  match s.loadState with
  | .loadRow => (b.baseAddressA + s.currentRow * b.rowAddrDiffA + s.index) % 2 ^ cfg.addrWidth
  | .loadCol => (b.baseAddressB + s.index * b.rowAddrDiffB + s.currentCol) % 2 ^ cfg.addrWidth

def storeAddress (b : Bases) : ℕ :=
  (b.baseAddressC + s.currentRow * b.rowAddrDiffC + s.currentCol * 4) % 2 ^ cfg.addrWidth

def memoryInput : MemoryInput :=
  match s.state with
  | .load =>
    { dataIn := io.dataIn.setWidth 32
      address := s.loadAddress cfg io.toBases
      dataSize := .byteOp
      writeEnable := io.writeEnable }
  | .store =>
    { dataIn := s.accumulator (s.cell cfg)
      address := s.storeAddress cfg io.toBases
      dataSize := .wordOp
      writeEnable := true }
  | _ =>
    { dataIn := io.dataIn.setWidth 32
      address := io.address
      dataSize := if io.writeEnable then .byteOp else .wordOp
      writeEnable := io.writeEnable }

def dataOut : BitVec 32 := s.memory.dataOut (s.memoryInput cfg io).dataSize

/-- The second cycle of a byte in `is(load)`, when the memory has answered. -/
def loaded (data : BitVec 8) : Core :=
  let last := s.index = cfg.calcCoreSize - 1
  let t := { s with
    waitMem := true
    index := if last then 0 else (s.index + 1) % cfg.calcCoreSize }
  match s.loadState with
  | .loadRow => { t with
      bufferRow := Function.update s.bufferRow s.index data
      loadState := if last then .loadCol else .loadRow }
  | .loadCol => { t with
      bufferCol := Function.update s.bufferCol s.index data
      state := if last then .busy else s.state }

/-- `is(load)` -/
def loadNext : Core :=
  if s.waitMem then { s with waitMem := false } else s.loaded cfg ((s.dataOut cfg io).setWidth 8)

/-- The counters of `is(busy)` and `is(store)`, which have `log2Ceil(matSize)` bits. -/
def nextCell : Core :=
  if s.currentCol = cfg.calcCoreSize - 1 then
    if s.currentRow = cfg.calcCoreSize - 1 then { s with currentCol := 0, currentRow := 0 }
    else { s with currentCol := 0, currentRow := (s.currentRow + 1) % cfg.calcCoreSize }
  else { s with currentCol := (s.currentCol + 1) % cfg.calcCoreSize }

def lastCol : Bool := decide (s.currentCol = cfg.calcCoreSize - 1)

def lastCell : Bool := s.lastCol cfg && decide (s.currentRow = cfg.calcCoreSize - 1)

def busyNext : Core :=
  { s.nextCell cfg with
    accumulator := Function.update s.accumulator (s.cell cfg)
      (s.accumulator (s.cell cfg) + vecDotProduct cfg s.bufferRow s.bufferCol)
    loadState := if s.lastCol cfg then .loadRow else .loadCol
    state := if s.lastCell cfg then .finish else .load }

def storeNext : Core :=
  if s.lastCell cfg then
    { s.nextCell cfg with state := .finish, accumulator := fun _ => 0#32 }
  else s.nextCell cfg

/-- `switch(state)` -/
def fsm : Core :=
  match s.state with
  | .ready => { s with state := if io.store then .store else if io.start then .load else .ready }
  | .load => s.loadNext cfg io
  | .busy => s.busyNext cfg
  | .finish => { s with state := if io.store then .store else .ready }
  | .store => s.storeNext cfg

def next : Core :=
  { s.fsm cfg io with memory := s.memory.next cfg (s.memoryInput cfg io) undef }

end Core

end Course.Gemm
