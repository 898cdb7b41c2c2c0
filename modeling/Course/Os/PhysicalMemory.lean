import Mathlib.Data.Nat.Notation
import Mathlib.Logic.Function.Basic

/-! The physical memory of Project 8, and the stream the pages come from. -/

namespace Course.Os

structure PhysicalMemoryFrame where
  frameNumber : ℕ
  address : ℕ
  valid : Bool
  dirty : Bool

structure PhysicalMemory where
  memory : ℕ → Int8
  memorySize : ℕ
  frames : ℕ → PhysicalMemoryFrame
  frameSize : ℕ

namespace PhysicalMemory

def create (memory : ℕ → Int8) (memorySize frameSize : ℕ) : PhysicalMemory where
  memory := memory
  memorySize := memorySize
  frames := fun i => { frameNumber := i, address := i * frameSize, valid := false, dirty := false }
  frameSize := frameSize

def getFrameAddress (m : PhysicalMemory) (frameNumber : ℕ) : ℕ := (m.frames frameNumber).address

/-- One byte, as `virtual_memory_read` asks for it. -/
def read (m : PhysicalMemory) (frameNumber offset : ℕ) : Int8 :=
  m.memory (m.getFrameAddress frameNumber + offset)

def setFrame (m : PhysicalMemory) (i : ℕ) (valid dirty : Bool) : PhysicalMemory :=
  { m with
    frames := Function.update m.frames i { m.frames i with valid := valid, dirty := dirty } }

def write (m : PhysicalMemory) (frameNumber offset : ℕ) (value : Int8) : PhysicalMemory :=
  { m with
    memory := Function.update m.memory (m.getFrameAddress frameNumber + offset) value }.setFrame
      frameNumber (m.frames frameNumber).valid true

end PhysicalMemory

/-- A stream over a file that is at least as long as every access to it. -/
structure File where
  content : ℕ → Int8
  position : ℕ
  writable : Bool

namespace File

/-- `fopen` with mode `"rb"`. -/
def fopenRb (content : ℕ → Int8) : File where
  content := content
  position := 0
  writable := false

def fseek (f : File) (position : ℕ) : File := { f with position := position }

/-- `size` bytes of the file to `address` of `memory`. -/
def fread (f : File) (memory : ℕ → Int8) (address size : ℕ) : (ℕ → Int8) × File :=
  (fun a => if address ≤ a ∧ a < address + size then f.content (f.position + (a - address))
    else memory a,
    { f with position := f.position + size })

/-- `size` bytes from `address` of `memory` to the file; a stream opened for
reading refuses them. -/
def fwrite (f : File) (memory : ℕ → Int8) (address size : ℕ) : File :=
  if f.writable then
    { f with
      content := fun a =>
        if f.position ≤ a ∧ a < f.position + size then memory (address + (a - f.position))
        else f.content a
      position := f.position + size }
  else f

end File

end Course.Os
