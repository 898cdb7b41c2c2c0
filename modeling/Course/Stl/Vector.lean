import Mathlib.Data.Nat.Notation
import Mathlib.Logic.Function.Basic

/-! `vector.hpp`: the slots of a vector, the loops that move elements between
them, and the operations. An access outside the storage, or to a slot without an
element, is stuck. A loop calls itself with `apply`, which leaves no mark of the
call's place in the term. -/

namespace Course.Stl

/-- The slots of one allocation; `none` is raw memory. -/
abbrev Block (V : Type) := List (Option V)

/-- `_first` is the start of the slots, `_endOfStorage` their end, and `_last`
is counted from `_first`. Each allocation of the vector has a new number. -/
structure Vector (V : Type) where
  block : ℕ
  slots : Block V
  last : ℕ

/-- What a `const DataType &` is bound to: an object elsewhere, or a slot of one
of the vector's allocations. -/
inductive Ref (V : Type)
  | outside (x : V)
  | slot (block p : ℕ)

namespace Vector

/-- The classes of `exceptions.hpp` that the vector throws. -/
inductive Error
  | indexOutOfBound
  | containerIsEmpty
  deriving DecidableEq

variable {V : Type}

/-! ### Memory -/

def malloc (n : ℕ) : Block V := List.replicate n none

/-- `new (p) DataType(x)`. -/
def construct (b : Block V) (p : ℕ) (x : V) : Option (Block V) :=
  if p < b.length then some (b.set p (some x)) else none

/-- `*p = x`, an assignment to an element. -/
def assign (b : Block V) (p : ℕ) (x : V) : Option (Block V) :=
  match b[p]? with
  | some (some _) => some (b.set p (some x))
  | _ => none

/-- `p->~DataType()`. -/
def destroy (b : Block V) (p : ℕ) : Option (Block V) :=
  match b[p]? with
  | some (some _) => some (b.set p none)
  | _ => none

/-- `*p`. -/
def read (v : Vector V) (p : ℕ) : Option V := if p < v.last then v.slots[p]?.join else none

/-- A reference into an allocation that was freed dangles. -/
def deref (v : Vector V) : Ref V → Option V
  | .outside x => some x
  | .slot b p => if b = v.block then v.read p else none

/-- The loop of the destructor, of `operator=` and of `clear`. -/
def destroyAll (last : ℕ) (b : Block V) (p : ℕ) : Option (Block V) :=
  if p ≠ last then do
    let b ← destroy b p
    by apply destroyAll; exacts [last, b, p + 1]
  else some b
partial_fixpoint

/-- The loop of `expand`, from the old slots to those of `tmp`. -/
def moveAll (v : Vector V) (tmp : Block V) (q : ℕ) : Option (Block V) :=
  if q < v.last then do
    let x ← v.read q
    let tmp ← construct tmp q x
    let slots ← destroy v.slots q
    by apply moveAll; exacts [{ v with slots := slots }, tmp, q + 1]
  else some tmp
partial_fixpoint

def expand (v : Vector V) : Option (Vector V) := do
  let tmp ← moveAll v (malloc (2 * v.slots.length)) 0
  some { block := v.block + 1, slots := tmp, last := v.last }

/-- `if (_last == _endOfStorage) expand();` -/
def grow (v : Vector V) : Option (Vector V) :=
  if v.last = v.slots.length then v.expand else some v

/-- The loop of the copy constructor and of `operator=`. -/
def copyAll (other : Vector V) (b : Block V) (q : ℕ) : Option (Block V) :=
  if q < other.last then do
    let x ← other.read q
    let b ← construct b q x
    by apply copyAll; exacts [other, b, q + 1]
  else some b
partial_fixpoint

/-! ### Constructors and assignment -/

def create : Vector V := { block := 0, slots := malloc 1, last := 0 }

def createCopy (other : Vector V) : Option (Vector V) := do
  let slots ← copyAll other (malloc other.slots.length) 0
  some { block := 0, slots := slots, last := other.last }

/-- `operator=` from another vector. -/
def assignFrom (v other : Vector V) : Option (Vector V) := do
  let _ ← destroyAll v.last v.slots 0
  let slots ← copyAll other (malloc other.slots.length) 0
  some { block := v.block + 1, slots := slots, last := other.last }

def clear (v : Vector V) : Option (Vector V) := do
  let _ ← destroyAll v.last v.slots 0
  some { block := v.block + 1, slots := malloc 1, last := 0 }

/-! ### Access -/

/-- `at` and `operator[]`. -/
def at' (v : Vector V) (pos : ℕ) : Option (Except Error V) :=
  if v.last ≤ pos then some (.error .indexOutOfBound) else (v.read pos).map .ok

def front (v : Vector V) : Option (Except Error V) :=
  if v.last = 0 then some (.error .containerIsEmpty) else (v.read 0).map .ok

def back (v : Vector V) : Option (Except Error V) :=
  if v.last = 0 then some (.error .containerIsEmpty) else (v.read (v.last - 1)).map .ok

/-- `_last > _first`, as the source has it. -/
def empty (v : Vector V) : Bool := decide (0 < v.last)

def size (v : Vector V) : ℕ := v.last

/-! ### Insertion -/

/-- `for (p = end(); p != pos; --p) *p = *(p - 1);` -/
def shiftUp (v : Vector V) (pos : ℕ) : ℕ → Option (Vector V)
  | 0 => if 0 = pos then some v else none
  | p + 1 =>
    if p + 1 = pos then some v
    else do
      let x ← v.read p
      let slots ← assign v.slots (p + 1) x
      shiftUp { v with slots := slots } pos p

/-- `insert` at the iterator that points to the slot `pos`. -/
def insert (v : Vector V) (pos : ℕ) (value : Ref V) : Option (Vector V × ℕ) := do
  let v ← v.grow
  let x ← v.deref value
  let slots ← construct v.slots v.last x
  let v ← shiftUp { v with slots := slots } pos v.last
  let x ← v.deref value
  let slots ← assign v.slots pos x
  some ({ v with slots := slots, last := v.last + 1 }, pos)

/-- `for (p = _last; p != _first + ind; ++p) *p = *(p - 1);` -/
def shiftFrom (v : Vector V) (ind p : ℕ) : Option (Vector V) :=
  if p = ind then some v
  else
    match p with
    | 0 => none
    | q + 1 => do
      let x ← v.read q
      let slots ← assign v.slots (q + 1) x
      by apply shiftFrom; exacts [{ v with slots := slots }, ind, q + 2]
partial_fixpoint

/-- `insert` at an index. -/
def insertAt (v : Vector V) (ind : ℕ) (value : Ref V) : Option (Except Error (Vector V × ℕ)) :=
  if v.last ≤ ind then some (.error .indexOutOfBound)
  else do
    let x ← v.deref value
    let slots ← construct v.slots v.last x
    let v ← shiftFrom { v with slots := slots } ind v.last
    let x ← v.deref value
    let slots ← assign v.slots ind x
    some (.ok ({ v with slots := slots, last := v.last + 1 }, ind))

def pushBack (v : Vector V) (value : Ref V) : Option (Vector V) := do
  let v ← v.grow
  let x ← v.deref value
  let slots ← construct v.slots v.last x
  some { v with slots := slots, last := v.last + 1 }

/-! ### Erasure -/

/-- `for (p = pos; p != end(); ++p) *p = *(p + 1);` -/
def shiftDown (v : Vector V) (p : ℕ) : Option (Vector V) :=
  if p ≠ v.last then do
    let x ← v.read (p + 1)
    let slots ← assign v.slots p x
    by apply shiftDown; exacts [{ v with slots := slots }, p + 1]
  else some v
partial_fixpoint

/-- `--_last; _last->~DataType();` -/
def dropLast (v : Vector V) : Option (Vector V) := do
  let slots ← destroy v.slots (v.last - 1)
  some { v with slots := slots, last := v.last - 1 }

/-- `erase` at the iterator that points to the slot `pos`. -/
def erase (v : Vector V) (pos : ℕ) : Option (Vector V × ℕ) := do
  let v ← v.shiftDown pos
  let v ← v.dropLast
  some (v, pos)

/-- `for (p = _first + ind; p < _last; ++p) *p = *(p + 1);` -/
def shiftDownFrom (v : Vector V) (p : ℕ) : Option (Vector V) :=
  if p < v.last then do
    let x ← v.read (p + 1)
    let slots ← assign v.slots p x
    by apply shiftDownFrom; exacts [{ v with slots := slots }, p + 1]
  else some v
partial_fixpoint

/-- `erase` at an index. -/
def eraseAt (v : Vector V) (ind : ℕ) : Option (Except Error (Vector V × ℕ)) :=
  if v.last ≤ ind then some (.error .indexOutOfBound)
  else do
    let v ← v.shiftDownFrom ind
    let v ← v.dropLast
    some (.ok (v, ind))

def popBack (v : Vector V) : Option (Except Error (Vector V)) :=
  if v.last = 0 then some (.error .containerIsEmpty) else v.dropLast.map .ok

end Vector

end Course.Stl
