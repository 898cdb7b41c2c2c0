import Course.Lib.Heap
import Course.Lib.RedBlack

/-! The STLite map: a red-black tree under the `left` pointer of a head node. -/

open Course.Lib Heap RedBlack

namespace Course.Stl

inductive Exception
  | index_out_of_bound
  | invalid_iterator
  deriving DecidableEq

/-- The map object, with the address of the head node it holds. -/
structure Map where
  head : ℕ
  numOfElements : ℕ

namespace Map

/-- A node, its value stored in place; the head has none. -/
structure Node (K V : Type) where
  val : Option (K × V)
  color : Color
  parent : Ptr
  left : Ptr
  right : Ptr

variable {K V : Type}

def Node.child (n : Node K V) : Side → Ptr
  | .left => n.left
  | .right => n.right

def Node.setChild (n : Node K V) (p : Ptr) : Side → Node K V
  | .left => { n with left := p }
  | .right => { n with right := p }

def Node.setParent (n : Node K V) (p : Ptr) : Node K V := { n with parent := p }

def Node.setColor (n : Node K V) (c : Color) : Node K V := { n with color := c }

def paint (p : Ptr) (c : Color) : Prog (Node K V) Unit := assign p fun n => n.setColor c

/-- The assignments to `p->parent` that are made unless `p` is null. -/
def reparent (p up : Ptr) : Prog (Node K V) Unit :=
  when (p ≠ none) (assign p fun n => n.setParent up)

/-- `p` in the place of `old` below its parent. -/
def relink (old p : Ptr) : Prog (Node K V) Unit := do
  let up := (← deref old).parent
  let s := if old = (← deref up).left then Side.left else .right
  assign up fun n => n.setChild p s

/-! ### Rotations -/

/-- `LLrotate` for the left side, `RRrotate` for the right; neither uses its third
argument. -/
def rotate (s : Side) (root child : Ptr) : Prog (Node K V) Unit := do
  relink root child
  let up := (← deref root).parent
  assign child fun n => n.setParent up
  assign root fun n => n.setParent child
  let inner := (← deref child).child s.other
  assign root fun n => n.setChild inner s
  assign child fun n => n.setChild root s.other
  reparent ((← deref root).child s) root

def LLrotate (root L₁ : Ptr) : Prog (Node K V) Unit := rotate .left root L₁

def RRrotate (root R₁ : Ptr) : Prog (Node K V) Unit := rotate .right root R₁

/-- `LRrotate` for the left side, `RLrotate` for the right. -/
def doubleRotate (s : Side) (root child inner : Ptr) : Prog (Node K V) Unit := do
  assign child fun n => n.setParent inner
  assign inner fun n => n.setParent root
  assign root fun n => n.setChild inner s
  let moved := (← deref inner).child s
  assign child fun n => n.setChild moved s.other
  assign inner fun n => n.setChild child s
  reparent ((← deref child).child s.other) child
  rotate s root inner

def LRrotate (root L R : Ptr) : Prog (Node K V) Unit := doubleRotate .left root L R

def RLrotate (root R L : Ptr) : Prog (Node K V) Unit := doubleRotate .right root R L

/-! ### Repairs -/

def isRed (p : Ptr) : Prog (Node K V) Bool :=
  if p = none then pure false else return (← deref p).color = .red

def sibling (target parent : Ptr) : Prog (Node K V) Ptr := do
  let n ← deref parent
  return if target = n.left then n.right else n.left

/-- `LLrotate` or `RRrotate`, where both red nodes are on side `s` of their parents. -/
def adjustLine (s : Side) (root parent target : Ptr) : Prog (Node K V) Unit := do
  when (parent = (← deref root).child s ∧ target = (← deref parent).child s) do
    rotate s root parent
    paint parent .black
    paint root .red

/-- `LRrotate` or `RLrotate`, where the lower red node is on the other side. -/
def adjustBend (s : Side) (root parent target : Ptr) : Prog (Node K V) Unit := do
  when (parent = (← deref root).child s ∧ target = (← deref parent).child s.other) do
    doubleRotate s root parent target
    paint target .black
    paint root .red

def adjustInsert (head : ℕ) (target : Ptr) : Prog (Node K V) Unit := do
  let parent := (← deref target).parent
  if (← deref parent).color = .black then return
  let root := (← deref parent).parent
  let other ← sibling parent root
  if !(← isRed other) then
    adjustLine .left root parent target
    adjustLine .right root parent target
    adjustBend .left root parent target
    adjustBend .right root parent target
  else
    paint root .red
    paint parent .black
    paint other .black
    let up := (← deref root).parent
    if up = some head then paint root .black
    else if (← deref up).color = .red then by apply adjustInsert; exacts [head, root]
partial_fixpoint

/-- A red sibling is rotated above the parent; the target gets a black one. -/
def lower (target parent other : Ptr) : Prog (Node K V) Ptr := do
  if (← deref other).color = .red then
    paint other .black
    paint parent .red
    let s := if other = (← deref parent).left then Side.left else .right
    rotate s parent other
    sibling target parent
  else return other

def turn (s toward : Side) (parent other n : Ptr) : Prog (Node K V) Unit :=
  if toward = s then doubleRotate s.other parent other n
  else do
    paint n .black
    rotate s parent other

/-- The sibling's child on side `s` is red. -/
def borrow (s : Side) (target parent other : Ptr) : Prog (Node K V) Unit := do
  let parentColor := (← deref parent).color
  paint parent .black
  let toward := if (← deref parent).left = target then Side.left else .right
  turn s toward parent other ((← deref other).child s)
  paint (← deref parent).parent parentColor

def adjustErase (head : ℕ) (target : Ptr) : Prog (Node K V) Unit := do
  if target = (← deref (some head)).left then return
  let parent := (← deref target).parent
  let other ← lower target parent (← sibling target parent)
  if ← isRed (← deref other).left then borrow .left target parent other
  else if ← isRed (← deref other).right then borrow .right target parent other
  else if (← deref parent).color = .red then
    paint parent .black
    paint other .red
  else
    paint other .red
    by apply adjustErase; exacts [head, parent]
partial_fixpoint

/-! ### Exchange of two nodes -/

/-- `std::swap(p->child, q->child)` on one side. -/
def exchange (s : Side) (p q : Ptr) : Prog (Node K V) Unit := do
  let a := (← deref p).child s
  let b := (← deref q).child s
  assign p fun n => n.setChild b s
  assign q fun n => n.setChild a s

def reparentChildren (left right : Bool) (p up : Ptr) : Prog (Node K V) Unit := do
  when left (reparent (← deref p).left up)
  when right (reparent (← deref p).right up)

/-- `replace` is a child of `target`. -/
def swapAdjacent (s : Side) (target replace : Ptr) : Prog (Node K V) Unit := do
  let p := (← deref replace).child s
  assign target fun n => n.setChild p s
  assign replace fun n => n.setChild target s
  let up := (← deref target).parent
  assign replace fun n => n.setParent up
  assign target fun n => n.setParent replace

def swapApart (s : Side) (replace_left replace_right : Bool) (target replace : Ptr) :
    Prog (Node K V) Unit := do
  reparentChildren replace_left replace_right target replace
  assign (← deref replace).parent fun n => n.setChild target s
  let p := (← deref target).parent
  let q := (← deref replace).parent
  assign target fun n => n.setParent q
  assign replace fun n => n.setParent p
  exchange s target replace

def swap (target replace : Ptr) : Prog (Node K V) Unit := do
  let up ← deref (← deref replace).parent
  let replace_left : Bool := replace = up.left
  let replace_right : Bool := replace = up.right
  let s := if replace_left then Side.left else .right
  let c := (← deref target).color
  paint target (← deref replace).color
  paint replace c
  relink target replace
  reparentChildren true true replace target
  reparentChildren replace_right replace_left target replace
  exchange s.other target replace
  if (← deref replace).parent = target then swapAdjacent s target replace
  else swapApart s replace_left replace_right target replace

/-! ### Walks -/

/-- `while (p->child != nullptr) p = p->child;` on one side. -/
def furthest (s : Side) (p : Ptr) : Prog (Node K V) Ptr := do
  let next := (← deref p).child s
  if next = none then return p else by apply furthest; exacts [s, next]
partial_fixpoint

/-- `while (p == p->parent->child) p = p->parent;` on one side. -/
def climb (s : Side) (p : Ptr) : Prog (Node K V) Ptr := do
  let up := (← deref p).parent
  if p = (← deref up).child s then by apply climb; exacts [s, up] else return p
partial_fixpoint

/-- What `++` on the right side and `--` on the left side do to `target`. -/
def neighbour (s : Side) (target : Ptr) : Prog (Node K V) Ptr := do
  let n ← deref target
  if n.child s ≠ none then furthest s.other (n.child s)
  else if target = (← deref n.parent).child s.other then return n.parent
  else return (← deref (← climb s target)).parent

/-- `*p->val`. -/
def entry (p : Ptr) : Prog (Node K V) (K × V) := fun h => do
  let (n, h) ← deref p h
  let e ← n.val
  return (e, h)

/-! ### Whole trees -/

/-- A child is linked to `root` before its own children are copied. -/
def copy (root other : Ptr) : Prog (Node K V) Unit := do
  let o ← deref other
  let copyChild (s : Side) : Prog (Node K V) Unit :=
    if o.child s = none then pure () else do
      let child ← deref (o.child s)
      let p ← new { child with parent := root, left := none, right := none }
      assign root fun n => n.setChild (some p) s
      by apply copy; exacts [some p, o.child s]
  copyChild .left
  copyChild .right
partial_fixpoint

def remove (root : Ptr) : Prog (Node K V) Unit := do
  if root = none then return
  let n ← deref root
  by apply remove; exact n.left
  let n ← deref root
  by apply remove; exact n.right
  delete root
partial_fixpoint

end Map

/-- Iterators are equal when their targets are. -/
structure Iterator where
  target : Ptr
  container : ℕ

namespace Map

variable (cmp : K → K → Bool)

/-- `color` is what the memory of the head held before. -/
def create (color : Color) : Prog (Node K V) Map :=
  return ⟨← new ⟨none, color, none, none, none⟩, 0⟩

/-- The copy constructor. -/
def createCopy (color : Color) (other : Map) : Prog (Node K V) Map := do
  let m ← create color
  copy (some m.head) (some other.head)
  return { m with numOfElements := other.numOfElements }

/-- `operator=` -/
def assignFrom (m other : Map) : Prog (Node K V) Map := do
  if m.head = other.head then return m
  remove (← deref (some m.head)).left
  assign (some m.head) fun n => n.setChild none .left
  copy (some m.head) (some other.head)
  return { m with numOfElements := other.numOfElements }

/-- The destructor, after which the head is no longer there. -/
def destroy (m : Map) : Prog (Node K V) Unit := do
  remove (← deref (some m.head)).left
  delete (some m.head)

def cbegin (m : Map) : Prog (Node K V) Iterator :=
  return ⟨← furthest .left (some m.head), m.head⟩

def cend (m : Map) : Iterator := ⟨some m.head, m.head⟩

def empty (m : Map) : Bool := m.numOfElements = 0

def size (m : Map) : ℕ := m.numOfElements

def clear (m : Map) : Prog (Node K V) Map := do
  remove (← deref (some m.head)).left
  assign (some m.head) fun n => n.setChild none .left
  return { m with numOfElements := 0 }

/-- The loop of `at`, `operator[]` and `find`; null when the key is not there. -/
def seek (key : K) (target : Ptr) : Prog (Node K V) Ptr := do
  if target = none then return none
  else if cmp key (← entry target).1 then
    let n ← deref target
    by apply seek; exacts [key, n.left]
  else if cmp (← entry target).1 key then
    let n ← deref target
    by apply seek; exacts [key, n.right]
  else return target
partial_fixpoint

def find (m : Map) (key : K) : Prog (Node K V) Iterator := do
  let target ← seek cmp key (← deref (some m.head)).left
  return if target = none then m.cend else ⟨target, m.head⟩

def at' (m : Map) (key : K) : Prog (Node K V) (Except Exception V) := do
  let target ← seek cmp key (← deref (some m.head)).left
  if target = none then return .error .index_out_of_bound
  else return .ok (← entry target).2

def count (m : Map) (key : K) : Prog (Node K V) ℕ :=
  return if (← find cmp m key).target ≠ m.cend.target then 1 else 0

/-- The loop of `insert`: the node of the key, or null and the node it goes under. -/
def descend (key : K) (prev target : Ptr) : Prog (Node K V) (Ptr × Ptr) := do
  if target = none then return (target, prev)
  else if cmp key (← entry target).1 then
    let n ← deref target
    by apply descend; exacts [key, target, n.left]
  else if cmp (← entry target).1 key then
    let n ← deref target
    by apply descend; exacts [key, target, n.right]
  else return (target, prev)
partial_fixpoint

def insert (m : Map) (value : K × V) : Prog (Node K V) (Map × Iterator × Bool) := do
  if m.numOfElements = 0 then
    let p ← new ⟨some value, .black, some m.head, none, none⟩
    assign (some m.head) fun n => n.setChild (some p) .left
    return ({ m with numOfElements := m.numOfElements + 1 }, ⟨some p, m.head⟩, true)
  let (target, prev) ← descend cmp value.1 (some m.head) (← deref (some m.head)).left
  if target ≠ none then return (m, ⟨target, m.head⟩, false)
  let s := if cmp value.1 (← entry prev).1 then Side.left else .right
  let p ← new ⟨some value, .red, prev, none, none⟩
  assign prev fun n => n.setChild (some p) s
  adjustInsert m.head (some p)
  return ({ m with numOfElements := m.numOfElements + 1 }, ⟨some p, m.head⟩, true)

/-- `operator[]`, whose reference is to the value in the node returned. -/
def subscript [Inhabited V] (m : Map) (key : K) : Prog (Node K V) (Map × Ptr) := do
  let target ← seek cmp key (← deref (some m.head)).left
  if target ≠ none then return (m, target)
  let (m, pos, _) ← insert cmp m (key, default)
  return (m, pos.target)

/-- The target is exchanged downwards until it is a leaf. -/
def sink (target : Ptr) : Prog (Node K V) Unit := do
  let n ← deref target
  if n.left = none ∧ n.right = none then return
  let replace ← if n.left = none then pure n.right
    else if n.right = none then pure n.left
    else furthest .right n.left
  swap target replace
  by apply sink; exact target
partial_fixpoint

def unhang (head : ℕ) (target : Ptr) : Prog (Node K V) Unit := do
  if target = (← deref (some head)).left then assign (some head) fun n => n.setChild none .left
  else
    let up := (← deref target).parent
    let s := if (← deref up).left = target then Side.left else .right
    assign up fun n => n.setChild none s

def erase (m : Map) (pos : Iterator) : Prog (Node K V) (Except Exception Map) := do
  if pos.container ≠ m.head ∨ pos.target = m.cend.target then return .error .index_out_of_bound
  let target := pos.target
  sink target
  when ((← deref target).color = .black) (adjustErase m.head target)
  unhang m.head target
  delete target
  return .ok { m with numOfElements := m.numOfElements - 1 }

end Map

namespace Iterator

variable {K V : Type}

/-- `++` -/
def increment (it : Iterator) : Prog (Map.Node K V) (Except Exception Iterator) := do
  if it.target = none ∨ it.target = some it.container then return .error .invalid_iterator
  return .ok { it with target := ← Map.neighbour .right it.target }

/-- `--` -/
def decrement (it : Iterator) : Prog (Map.Node K V) (Except Exception Iterator) := do
  if it.target = none then return .error .invalid_iterator
  if it.target = (← Map.furthest .left (some it.container)) then return .error .invalid_iterator
  return .ok { it with target := ← Map.neighbour .left it.target }

/-- `*` -/
def value (it : Iterator) : Prog (Map.Node K V) (Except Exception (K × V)) := do
  if it.target = none ∨ it.target = some it.container then return .error .invalid_iterator
  return .ok (← Map.entry it.target)

end Iterator

end Course.Stl
