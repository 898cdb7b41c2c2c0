import Course.Gemm.MatrixMultiplicationCore

/-! `MatrixMultiplicationModule`: it decodes the addresses of its user, pads the operands
with zeros, and sends the core over the blocks. -/

namespace Course.Gemm

/-- Inputs of `indexWidth` (32) bits. -/
structure Dims where
  matARows : ℕ
  matACols : ℕ
  matBRows : ℕ
  matBCols : ℕ
  deriving DecidableEq

structure Input extends Dims where
  start : Bool
  dataIn : BitVec 8
  address : ℕ
  select : ℕ
  writeEnable : Bool

namespace Dims

variable (cfg : Configs) (d : Dims)

def paddedMatARows : ℕ := pad d.matARows cfg.calcCoreSize

def paddedMatACols : ℕ := pad d.matACols cfg.calcCoreSize

def paddedMatBRows : ℕ := pad d.matBRows cfg.calcCoreSize

def paddedMatBCols : ℕ := pad d.matBCols cfg.calcCoreSize

def blockARow : ℕ := d.paddedMatARows cfg / cfg.calcCoreSize

def blockACol : ℕ := d.paddedMatACols cfg / cfg.calcCoreSize

def blockBCol : ℕ := d.paddedMatBCols cfg / cfg.calcCoreSize

def blockCCol : ℕ := d.paddedMatBCols cfg / cfg.calcCoreSize

def rowAddrDiffA : ℕ := d.paddedMatACols cfg * (8 / 8)

def rowAddrDiffB : ℕ := d.paddedMatBCols cfg * (8 / 8)

def rowAddrDiffC : ℕ := d.paddedMatBCols cfg * (32 / 8)

end Dims

/-- A quotient by a column count of 0 is undefined in the circuit. -/
def decodedAddress (cfg : Configs) (io : Input) : ℕ :=
  let w := cfg.addrWidth
  (if io.select = cfg.selectA then
    io.address + usub w io.address cfg.baseAddressA / io.matACols *
      usub 32 (io.paddedMatACols cfg) io.matACols
  else if io.select = cfg.selectB then
    io.address + usub w io.address cfg.baseAddressB / io.matBCols *
      usub 32 (io.paddedMatBCols cfg) io.matBCols
  else
    cfg.baseAddressC + usub w io.address cfg.baseAddressC * 4 +
      usub w io.address cfg.baseAddressC / io.matBCols *
        usub 32 (io.paddedMatBCols cfg) io.matBCols * 4) % 2 ^ w

inductive State
  | ready
  | pad
  | busy
  deriving DecidableEq

inductive PadState
  | padACol
  | padARow
  | padBCol
  | padBRow
  deriving DecidableEq

/-- The registers, as they are after reset, and the core. -/
structure MatrixMultiplication where
  state : State := .ready
  currentBlockRow : ℕ := 0
  currentBlockCol : ℕ := 0
  index : ℕ := 0
  baseAddressABuffer : ℕ := 0
  baseAddressBBuffer : ℕ := 0
  baseAddressCBuffer : ℕ := 0
  padState : PadState := .padACol
  padIndex : ℕ := 0
  waitCalculation : Bool := false
  waitStore : Bool := false
  core : Core

namespace MatrixMultiplication

variable (cfg : Configs) (s : MatrixMultiplication) (io : Input) (undef : Undef)

def busy : Bool := decide (s.state ≠ .ready)

/-- The cascade of `when`s in `is(ready)` that selects the first padding there is to
do, and its tails at the ends of `padACol`, `padARow` and `padBCol`. -/
def toPadBRow (d : Dims) : MatrixMultiplication :=
  if d.matBRows ≠ d.paddedMatBRows cfg then { s with
    state := .pad
    padState := .padBRow
    padIndex := (cfg.baseAddressB + d.matBRows * d.paddedMatBCols cfg) % 2 ^ 32 }
  else { s with state := .busy }

def toPadBCol (d : Dims) : MatrixMultiplication :=
  if d.matBCols ≠ d.paddedMatBCols cfg then { s with
    state := .pad
    padState := .padBCol
    padIndex := (cfg.baseAddressB + d.matBCols) % 2 ^ 32 }
  else s.toPadBRow cfg d

def toPadARow (d : Dims) : MatrixMultiplication :=
  if d.matARows ≠ d.paddedMatARows cfg then { s with
    state := .pad
    padState := .padARow
    padIndex := (cfg.baseAddressA + d.matARows * d.paddedMatACols cfg) % 2 ^ 32 }
  else s.toPadBCol cfg d

def toPadACol (d : Dims) : MatrixMultiplication :=
  if d.matACols ≠ d.paddedMatACols cfg then { s with
    state := .pad
    padState := .padACol
    padIndex := (cfg.baseAddressA + d.matACols) % 2 ^ 32 }
  else s.toPadARow cfg d

/-- `is(padACol)`, `is(padBCol)`: to the end of the row, then over the `cols` elements of
the next one. `done` is what follows the last of the `rows` rows. -/
def padColNext (base rows cols paddedCols : ℕ) (done : MatrixMultiplication) :
    MatrixMultiplication :=
  let offset := (usub 32 s.padIndex base + 1) % 2 ^ 32
  if offset % paddedCols = 0 then
    if offset = rows * paddedCols then done
    else { s with padIndex := (s.padIndex + cols + 1) % 2 ^ 32 }
  else { s with padIndex := (s.padIndex + 1) % 2 ^ 32 }

/-- `is(padARow)`, `is(padBRow)` -/
def padRowNext (base paddedRows paddedCols : ℕ) (done : MatrixMultiplication) :
    MatrixMultiplication :=
  let offset := (usub 32 s.padIndex base + 1) % 2 ^ 32
  if offset = paddedRows * paddedCols then done
  else { s with padIndex := (s.padIndex + 1) % 2 ^ 32 }

/-- `is(pad)` -/
def padNext (d : Dims) : MatrixMultiplication :=
  match s.padState with
  | .padACol => s.padColNext cfg.baseAddressA d.matARows d.matACols (d.paddedMatACols cfg)
      (s.toPadARow cfg d)
  | .padARow => s.padRowNext cfg.baseAddressA (d.paddedMatARows cfg) (d.paddedMatACols cfg)
      (s.toPadBCol cfg d)
  | .padBCol => s.padColNext cfg.baseAddressB d.matBRows d.matBCols (d.paddedMatBCols cfg)
      (s.toPadBRow cfg d)
  | .padBRow => s.padRowNext cfg.baseAddressB (d.paddedMatBRows cfg) (d.paddedMatBCols cfg)
      { s with state := .busy }

/-- The calculation of a block of A by a block of B has finished. -/
def lastIndex (d : Dims) : Bool := decide (s.index = usub 32 (d.blockACol cfg) 1)

/-- `is(busy)` -/
def busyNext (d : Dims) : MatrixMultiplication :=
  let n := cfg.calcCoreSize
  if s.waitStore then
    if s.core.finish then
      if s.currentBlockCol = usub 32 (d.blockBCol cfg) 1 then
        if s.currentBlockRow = usub 32 (d.blockARow cfg) 1 then
          { s with waitStore := false, currentBlockCol := 0, currentBlockRow := 0, state := .ready }
        else { s with
          waitStore := false
          currentBlockCol := 0
          currentBlockRow := (s.currentBlockRow + 1) % 2 ^ 32 }
      else { s with
        waitStore := false
        currentBlockCol := (s.currentBlockCol + 1) % 2 ^ 32 }
    else s
  else if s.waitCalculation then
    if s.core.finish then
      if s.lastIndex cfg d then { s with waitCalculation := false, index := 0, waitStore := true }
      else { s with waitCalculation := false, index := (s.index + 1) % 2 ^ 32 }
    else s
  else { s with
    baseAddressABuffer := (cfg.baseAddressA + s.currentBlockRow * d.blockACol cfg * (n * n) +
      s.index * n) % 2 ^ cfg.addrWidth
    baseAddressBBuffer := (cfg.baseAddressB + s.index * d.blockBCol cfg * (n * n) +
      s.currentBlockCol * n) % 2 ^ cfg.addrWidth
    baseAddressCBuffer := (cfg.baseAddressC + (s.currentBlockRow * d.blockCCol cfg * (n * n) +
      s.currentBlockCol * n) * 4) % 2 ^ cfg.addrWidth
    waitCalculation := true }

/-- `coreModule.io.start` -/
def coreStart : Bool := decide (s.state = .busy) && !s.waitStore && !s.waitCalculation

/-- `coreModule.io.store` -/
def coreStore (d : Dims) : Bool :=
  decide (s.state = .busy) && !s.waitStore && s.waitCalculation && s.core.finish &&
    s.lastIndex cfg d

def coreInput : CoreInput where
  baseAddressA := s.baseAddressABuffer
  baseAddressB := s.baseAddressBBuffer
  baseAddressC := s.baseAddressCBuffer
  rowAddrDiffA := io.rowAddrDiffA cfg % 2 ^ cfg.addrWidth
  rowAddrDiffB := io.rowAddrDiffB cfg % 2 ^ cfg.addrWidth
  rowAddrDiffC := io.rowAddrDiffC cfg % 2 ^ cfg.addrWidth
  dataIn := if s.state = .pad then 0 else io.dataIn
  address := if s.state = .pad then s.padIndex % 2 ^ cfg.addrWidth else decodedAddress cfg io
  writeEnable := decide (s.state = .pad) || io.writeEnable
  start := s.coreStart
  store := s.coreStore cfg io.toDims

def dataOut : BitVec 32 := s.core.dataOut cfg (s.coreInput cfg io)

/-- `switch(state)` -/
def fsm : MatrixMultiplication :=
  match s.state with
  | .ready => if io.start then s.toPadACol cfg io.toDims else s
  | .pad => s.padNext cfg io.toDims
  | .busy => s.busyNext cfg io.toDims

def next : MatrixMultiplication :=
  { s.fsm cfg io with core := s.core.next cfg (s.coreInput cfg io) undef }

end MatrixMultiplication

end Course.Gemm
