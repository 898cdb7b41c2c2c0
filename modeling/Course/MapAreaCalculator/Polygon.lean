import Course.Lib.Text
import Mathlib.Algebra.BigOperators.Group.List.Basic
import Mathlib.Algebra.Order.Ring.Rat
import Mathlib.Data.List.DropRight
import Mathlib.Order.Lattice

/-! The polygon of the map area calculator. Its vertices and their edges are exact: integers,
and rational numbers in place of `double`. -/

open Course.Lib

namespace Course.MapAreaCalculator

structure Point where
  x : ℤ
  y : ℤ
  deriving DecidableEq

structure Conflict where
  a1 : Point
  a2 : Point
  b1 : Point
  b2 : Point
  deriving DecidableEq

structure Polygon where
  mSelectScale : Bool
  mVertices : List Point
  mConflicts : List Conflict
  mScale : List Point
  deriving DecidableEq

/-- The vertex at an index of the list, and the origin where there is none. -/
def vertex (vs : List Point) (i : ℕ) : Point := vs.getD i ⟨0, 0⟩

/-- The edges from `a1` to `a2` and from `b1` to `b2` meet. A quotient by zero fails every
comparison. -/
def Intersect (a1 a2 b1 b2 : Point) : Prop :=
  let x1 : ℚ := a2.x - a1.x
  let y1 : ℚ := a2.y - a1.y
  let x2 : ℚ := b2.x - b1.x
  let y2 : ℚ := b2.y - b1.y
  let cross := x1 * y2 - x2 * y1
  let interX := (x2 * (a1.y - b1.y) - y2 * (a1.x - b1.x)) / cross
  let interY := (x1 * (a1.y - b1.y) - y1 * (a1.x - b1.x)) / cross
  cross ≠ 0 ∧ 0 ≤ interX ∧ interX ≤ 1 ∧ 0 ≤ interY ∧ interY ≤ 1

instance (a1 a2 b1 b2 : Point) : Decidable (Intersect a1 a2 b1 b2) :=
  inferInstanceAs (Decidable (_ ∧ _ ∧ _ ∧ _ ∧ _))

/-- The entries that a loop pushes: those of the edges that begin at `is` and meet the edge
from `b1` to `b2`. -/
def conflicts (p : ℕ → Point) (is : List ℕ) (b1 b2 : ℕ) : List Conflict :=
  (is.filter fun i => Intersect (p i) (p (i + 1)) (p b1) (p b2)).map fun i =>
    ⟨p i, p (i + 1), p b1, p b2⟩

/-- What `push` and `pop` compare the end of the list with. -/
def Conflict.EndsIn (b1 b2 : Point) (c : Conflict) : Prop := c.b1 = b1 ∧ c.b2 = b2

instance (b1 b2 : Point) : DecidablePred (Conflict.EndsIn b1 b2) :=
  fun _ => inferInstanceAs (Decidable (_ ∧ _))

/-- The `while` loops of `push` and `pop`. -/
def popConflicts (b1 b2 : Point) (cs : List Conflict) : List Conflict :=
  cs.rdropWhile fun c => decide (c.EndsIn b1 b2)

namespace Polygon

def init : Polygon := ⟨false, [], [], []⟩

def push (s : Polygon) (x y : ℤ) : Polygon :=
  if s.mSelectScale then
    let mScale := s.mScale ++ [⟨x, y⟩]
    { s with mScale := mScale, mSelectScale := mScale.length ≠ 2 }
  else
    let s := { s with mVertices := s.mVertices ++ [⟨x, y⟩] }
    if s.mVertices.length ≤ 3 then s
    else
      let last := s.mVertices.length - 1
      let p := vertex s.mVertices
      { s with mConflicts := popConflicts (p (last - 1)) (p 0) s.mConflicts ++
          conflicts p (List.range (last - 2)) (last - 1) last ++
          conflicts p (List.range' 1 (last - 2)) last 0 }

def pop (s : Polygon) : Polygon :=
  if s.mSelectScale then { s with mScale := s.mScale.dropLast }
  else if s.mVertices = [] then s
  else
    let s :=
      if 3 < s.mVertices.length then
        let last := s.mVertices.length - 1
        let p := vertex s.mVertices
        let cs := popConflicts (p last) (p 0) s.mConflicts
        { s with mConflicts := popConflicts (p (last - 1)) (p last) cs ++
            conflicts p (List.range' 1 (last - 3)) (last - 1) 0 }
      else s
    { s with mVertices := s.mVertices.dropLast }

def clear (s : Polygon) : Polygon :=
  { s with mVertices := [], mConflicts := [], mScale := [] }

def selectScale (s : Polygon) : Polygon := { s with mScale := [], mSelectScale := true }

/-! ### Files -/

/-- `\s` of a regular expression. -/
def isspace (c : Char) : Bool := c = ' ' || '\t' ≤ c && c ≤ '\r'

/-- The groups of `^\s*(\d+)\s+(\d+)\s*$`. -/
def matchLine (line : List Char) : Option (List Char × List Char) :=
  let line := line.dropWhile isspace
  let x := line.takeWhile Char.isDigit
  let line := line.dropWhile Char.isDigit
  let blanks := line.takeWhile isspace
  let line := line.dropWhile isspace
  let y := line.takeWhile Char.isDigit
  let line := line.dropWhile Char.isDigit
  if x ≠ [] ∧ blanks ≠ [] ∧ y ≠ [] ∧ line.all isspace then some (x, y) else none

/-- `std::stoi` of digits; it throws beyond the range of `int`. -/
def stoi (digits : List Char) : Option ℤ :=
  if Nat.ofDigitChars 10 digits 0 < 2 ^ 31 then some (Nat.ofDigitChars 10 digits 0) else none

/-- The vertex of a line, unless it has another format or is out of range. -/
def readLine (width height : ℤ) (line : List Char) : Option Point := do
  let (x, y) ← matchLine line
  let x ← stoi x
  let y ← stoi y
  if x < 0 ∨ width < x ∨ y < 0 ∨ height < y then none else some ⟨x, y⟩

/-- What every error of `importVertices` does. -/
def fail (s : Polygon) : Polygon := { s with mVertices := [], mConflicts := [] }

/-- The loop of `importVertices`. -/
def readLines (width height : ℤ) : Polygon → List (List Char) → Polygon
  | s, [] => s
  | s, line :: lines =>
    match readLine width height line with
    | none => s.fail
    | some v => readLines width height (s.push v.x v.y) lines

/-- The lines that `std::getline` reads. -/
def getlines (text : List Char) : List (List Char) :=
  (Text.readlines text).map fun line => line.rdropWhile (· = '\n')

/-- `file` is what the path leads to, if it can be opened. -/
def importVertices (s : Polygon) (verticesPath : List Char) (file : Option (List Char))
    (width height : ℤ) : Polygon :=
  if verticesPath = [] then s
  else
    let s := { s with mVertices := [], mConflicts := [] }
    match file with
    | none => s
    | some text => readLines width height s (getlines text)

/-- What is written to the file. -/
def exportVertices (s : Polygon) : List Char :=
  Text.unlines (s.mVertices.map fun v => Text.str v.x ++ ' ' :: Text.str v.y)

/-! ### Area -/

def cross (a b : Point) : ℤ := a.x * b.y - a.y * b.x

/-- The sum of the loop of `calcArea`. -/
def shoelace (vs : List Point) : ℤ :=
  ((List.range vs.length).map fun i => cross (vertex vs i) (vertex vs ((i + 1) % vs.length))).sum

def calcArea (s : Polygon) : ℚ :=
  if s.mVertices.length < 3 ∨ s.mConflicts ≠ [] then -1 else |(shoelace s.mVertices : ℚ)| / 2

/-! ### Runs -/

inductive Action
  | push (x y : ℤ)
  | pop
  | clear
  | selectScale
  | importVertices (verticesPath : List Char) (file : Option (List Char)) (width height : ℤ)

def step (s : Polygon) : Action → Polygon
  | .push x y => s.push x y
  | .pop => s.pop
  | .clear => s.clear
  | .selectScale => s.selectScale
  | .importVertices verticesPath file width height =>
    s.importVertices verticesPath file width height

def run (actions : List Action) : Polygon := actions.foldl step init

end Polygon

end Course.MapAreaCalculator
