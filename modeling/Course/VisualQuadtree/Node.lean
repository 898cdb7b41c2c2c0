import Course.VisualQuadtree.Circle
import Mathlib.Data.Int.Order.Basic

/-! The nodes of the quadtree and their operations, as `QuadTree.cpp` has them.
A circle is known by its pointer; `circles` says what it points to.  `insert` and
`update` take the number of calls that may be nested and give `none` when they
would need more. -/

namespace Course.VisualQuadtree

/-- A node's rectangle with what the constructor checks in a debug build. -/
structure Bounds where
  mX1 : ℤ
  mX2 : ℤ
  mY1 : ℤ
  mY2 : ℤ
  x_le : mX1 ≤ mX2
  y_le : mY1 ≤ mY2

inductive Quadrant
  | topRight
  | topLeft
  | bottomLeft
  | bottomRight
  deriving DecidableEq

def Quadrant.all : List Quadrant := [.topRight, .topLeft, .bottomLeft, .bottomRight]

theorem Quadrant.mem_all (q : Quadrant) : q ∈ all := by
  cases q <;> simp [all]

/-- The middle of two coordinates, rounded as the division of two `int`s is. -/
def middle (x1 x2 : ℤ) : ℤ := (x1 + x2).tdiv 2

theorem middle_cases (x1 x2 : ℤ) :
    x1 + x2 = 2 * middle x1 x2 ∨ x1 + x2 = 2 * middle x1 x2 + 1 ∨
      x1 + x2 = 2 * middle x1 x2 - 1 := by
  rw [middle, Int.tdiv_eq_ediv]
  split <;> grind

theorem le_middle {x1 x2 : ℤ} (h : x1 ≤ x2) : x1 ≤ middle x1 x2 := by
  have hmid := middle_cases x1 x2
  omega

theorem middle_le {x1 x2 : ℤ} (h : x1 ≤ x2) : middle x1 x2 ≤ x2 := by
  have hmid := middle_cases x1 x2
  omega

namespace Bounds

def quadrant (b : Bounds) : Quadrant → Bounds
  | .topRight =>
    ⟨middle b.mX1 b.mX2, b.mX2, b.mY1, middle b.mY1 b.mY2, middle_le b.x_le, le_middle b.y_le⟩
  | .topLeft =>
    ⟨b.mX1, middle b.mX1 b.mX2, b.mY1, middle b.mY1 b.mY2, le_middle b.x_le, le_middle b.y_le⟩
  | .bottomLeft =>
    ⟨b.mX1, middle b.mX1 b.mX2, middle b.mY1 b.mY2, b.mY2, le_middle b.x_le, middle_le b.y_le⟩
  | .bottomRight =>
    ⟨middle b.mX1 b.mX2, b.mX2, middle b.mY1 b.mY2, b.mY2, middle_le b.x_le, middle_le b.y_le⟩

def width (b : Bounds) : ℕ := (b.mX2 - b.mX1).toNat

theorem width_quadrant_lt {b : Bounds} (q : Quadrant) (h : 2 ≤ b.width) :
    (b.quadrant q).width < b.width := by
  have hmid := middle_cases b.mX1 b.mX2
  have hx := b.x_le
  rw [width] at h
  cases q <;> simp only [quadrant, width] <;> omega

end Bounds

/-- A node whose children are null, or one with all four of them. -/
inductive Node (ι : Type)
  | leaf (bounds : Bounds) (mNumCircles : ℤ) (mCircles : List ι)
  | inner (bounds : Bounds) (mNumCircles : ℤ) (mCircles : List ι)
      (mChildren : Quadrant → Node ι)

variable {ι K : Type}

namespace Node

def bounds : Node ι → Bounds
  | .leaf b _ _ => b
  | .inner b _ _ _ => b

def mNumCircles : Node ι → ℤ
  | .leaf _ num _ => num
  | .inner _ num _ _ => num

/-- The circles of a node after `merge`. -/
def merge : Node ι → List ι
  | .leaf _ _ cs => cs
  | .inner _ _ cs ch => cs ++ Quadrant.all.flatMap fun q => (ch q).merge

end Node

variable [Field K] [LinearOrder K]

def Bounds.contain (b : Bounds) (c : Circle K) : Prop := c.inside b.mX1 b.mX2 b.mY1 b.mY2

instance (b : Bounds) (c : Circle K) : Decidable (b.contain c) :=
  inferInstanceAs (Decidable (c.inside _ _ _ _))

namespace Node

/-- `std::any_of` over the children `qs`, of those that insert the circle. -/
def offer (insert : Node ι → ι → Option (Bool × Node ι)) (ch : Quadrant → Node ι) (c : ι) :
    List Quadrant → Option (Bool × (Quadrant → Node ι))
  | [] => some (false, ch)
  | q :: qs => do
    let (inserted, child) ← insert (ch q) c
    if inserted then some (true, Function.update ch q child)
    else offer insert (Function.update ch q child) c qs

/-- `std::erase_if` of the circles that a child inserts. -/
def sift (insert : Node ι → ι → Option (Bool × Node ι)) (ch : Quadrant → Node ι) :
    List ι → Option (List ι × (Quadrant → Node ι))
  | [] => some ([], ch)
  | c :: cs => do
    let (inserted, ch) ← offer insert ch c Quadrant.all
    let (kept, ch) ← sift insert ch cs
    some (if inserted then kept else c :: kept, ch)

/-- The circles and children of a leaf after `split`. -/
def split (insert : Node ι → ι → Option (Bool × Node ι)) (b : Bounds) (cs : List ι) :
    Option (List ι × (Quadrant → Node ι)) :=
  sift insert (fun q => .leaf (b.quadrant q) 0 []) cs

/-- The end of `insert`: the circle goes to a child, or stays with the node. -/
def place (insert : Node ι → ι → Option (Bool × Node ι)) (b : Bounds) (num : ℤ) (cs : List ι)
    (ch : Quadrant → Node ι) (c : ι) : Option (Bool × Node ι) := do
  let (inserted, ch) ← offer insert ch c Quadrant.all
  some (true, .inner b num (if inserted then cs else cs ++ [c]) ch)

def insert (circles : ι → Circle K) (sCircleLimit : ℤ) :
    ℕ → Node ι → ι → Option (Bool × Node ι)
  | 0, _, _ => none
  | n + 1, t, c =>
    if t.bounds.contain (circles c) then
      match t with
      | .leaf b num cs =>
        if num + 1 < sCircleLimit then some (true, .leaf b (num + 1) (cs ++ [c]))
        else do
          let (cs, ch) ← split (insert circles sCircleLimit n) b cs
          place (insert circles sCircleLimit n) b (num + 1) cs ch c
      | .inner b num cs ch => place (insert circles sCircleLimit n) b (num + 1) cs ch c
    else some (false, t)

end Node

end Course.VisualQuadtree
