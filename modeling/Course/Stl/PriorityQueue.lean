import Course.Lib.Heap

/-! The STLite priority queue: a list of trees, linked through the first child and
the next sibling of each node. -/

open Course.Lib Heap

namespace Course.Stl

/-- `root` is `none` as long as no constructor or assignment has stored in it. -/
structure PriorityQueue where
  root : Option Ptr
  length : ℕ
  prior : Ptr

namespace PriorityQueue

inductive Exception
  | container_is_empty
  deriving DecidableEq

/-- A node, its key stored in place. -/
structure Node (T : Type) where
  key : T
  degree : ℕ
  child : Ptr
  next : Ptr

variable {T : Type}

def Node.create (key : T) : Node T := ⟨key, 0, none, none⟩

/-- The copy constructor of the nodes. -/
def Node.createCopy (other : Node T) : Node T := { other with child := none, next := none }

def setNext (p next : Ptr) : Prog (Node T) Unit := assign p fun n => { n with next := next }

def setChild (p child : Ptr) : Prog (Node T) Unit := assign p fun n => { n with child := child }

/-! ### Two lists of trees -/

/-- What happens to the next node `p` of the result. -/
def extend (root_m current p : Ptr) : Prog (Node T) Ptr :=
  if root_m = none then return p
  else do
    setNext current p
    return root_m

/-- The first loop of `link`: the results are `root_m`, `current`, `x` and `y`. -/
def linkLoop (root_m current x y : Ptr) : Prog (Node T) (Ptr × Ptr × Ptr × Ptr) := do
  if x = none ∨ y = none then return (root_m, current, x, y)
  else if (← deref x).degree ≤ (← deref y).degree then
    let root_m ← extend root_m current x
    let n ← deref x
    by apply linkLoop; exacts [root_m, x, n.next, y]
  else
    let root_m ← extend root_m current y
    let n ← deref y
    by apply linkLoop; exacts [root_m, y, x, n.next]
partial_fixpoint

/-- `while (x != nullptr) current->next = x, current = x, x = x->next;` -/
def drain (current x : Ptr) : Prog (Node T) Ptr := do
  if x = none then return current
  else
    setNext current x
    let n ← deref x
    by apply drain; exacts [x, n.next]
partial_fixpoint

/-- The second and third loop of `link`. -/
def drainBoth (root_m current x y : Ptr) : Prog (Node T) Ptr := do
  let current ← drain current x
  let _ ← drain current y
  return root_m

def link (root_x root_y : Ptr) : Prog (Node T) Ptr :=
  if root_x = none then return root_y
  else if root_y = none then return root_x
  else do
    let (root_m, current, x, y) ← linkLoop none none root_x root_y
    drainBoth root_m current x y

/-! ### Trees of one degree -/

/-- `current` becomes the first child of `p`. -/
def hang (p current : Ptr) : Prog (Node T) Unit := do
  setNext current (← deref p).child
  setChild p current
  assign p fun n => { n with degree := n.degree + 1 }

variable (cmp : T → T → Bool)

/-- The first loop of the private `merge`, in which `current` is `root`. -/
def mergeFront (root : Ptr) : Prog (Node T) Ptr := do
  let n ← deref root
  if n.next = none then return root
  let m ← deref n.next
  if n.degree ≠ m.degree then return root
  if cmp n.key m.key then
    hang n.next root
    by apply mergeFront; exact n.next
  else
    setNext root m.next
    hang root n.next
    by apply mergeFront; exact root
partial_fixpoint

/-- `m->next != nullptr && m->degree == m->next->degree` -/
def followed (m : Node T) : Prog (Node T) Bool :=
  if m.next = none then return false else return m.degree = (← deref m.next).degree

/-- The second loop of the private `merge`. -/
def mergeRest (prev current : Ptr) : Prog (Node T) Unit := do
  if current = none then return
  let n ← deref current
  if n.next = none then return
  let m ← deref n.next
  if n.degree ≠ m.degree then
    let p ← deref prev
    by apply mergeRest; exacts [p.next, n.next]
  else if ← followed m then
    let p ← deref prev
    by apply mergeRest; exacts [p.next, n.next]
  else if cmp n.key m.key then
    setNext prev n.next
    hang (← deref prev).next current
    let prev := (← deref prev).next
    let p ← deref prev
    by apply mergeRest; exacts [prev, p.next]
  else
    let prev := (← deref prev).next
    setNext prev m.next
    hang prev n.next
    let p ← deref prev
    by apply mergeRest; exacts [prev, p.next]
partial_fixpoint

/-- The private `merge`, which changes `root`. -/
def mergeTrees (root : Ptr) : Prog (Node T) Ptr := do
  if root = none then return root
  if (← deref root).next = none then return root
  let root ← mergeFront cmp root
  let current := (← deref root).next
  if current = none then return root
  mergeRest cmp root current
  return root

/-! ### Whole lists -/

def remove (root_m : Ptr) : Prog (Node T) Unit := do
  if root_m = none then return
  let n ← deref root_m
  by apply remove; exact n.child
  let n ← deref root_m
  by apply remove; exact n.next
  delete root_m
partial_fixpoint

def copy (root_m other : Ptr) : Prog (Node T) Unit := do
  let o ← deref other
  let copyLink (set : Ptr → Ptr → Prog (Node T) Unit) (p : Ptr) : Prog (Node T) Unit :=
    if p = none then pure () else do
      let a ← new (← deref p).createCopy
      set root_m (some a)
      by apply copy; exacts [some a, p]
  copyLink setChild o.child
  copyLink setNext o.next
partial_fixpoint

/-! ### The members -/

def create : PriorityQueue := ⟨some none, 0, none⟩

/-- The value of `root`; there is none to be read before one is stored. -/
def readRoot (q : PriorityQueue) : Prog (Node T) Ptr := fun h => do
  let p ← q.root
  return (p, h)

/-- What the copy constructor and `operator=` do to `root`. -/
def copyRoot (root : Option Ptr) (other : PriorityQueue) : Prog (Node T) (Option Ptr) := do
  if other.length = 0 then return root
  let p ← other.readRoot
  let a ← new (← deref p).createCopy
  copy (some a) p
  return some (some a)

def createCopy (other : PriorityQueue) : Prog (Node T) PriorityQueue :=
  return ⟨← copyRoot none other, other.length, none⟩

def destroy (q : PriorityQueue) : Prog (Node T) Unit := do
  remove (← q.readRoot)

/-- `operator=`, from another queue. -/
def assignFrom (q other : PriorityQueue) : Prog (Node T) PriorityQueue := do
  remove (← q.readRoot)
  return ⟨← copyRoot q.root other, other.length, none⟩

/-- The loop of `top`; the results are `t` and `prior`. -/
def topLoop (t : T) (prior p : Ptr) : Prog (Node T) (T × Ptr) := do
  if p = none then return (t, prior)
  let n ← deref p
  if cmp t n.key then by apply topLoop; exacts [n.key, p, n.next]
  else by apply topLoop; exacts [t, prior, n.next]
partial_fixpoint

def top (q : PriorityQueue) : Prog (Node T) (Except Exception T × PriorityQueue) := do
  if q.length = 0 then return (.error .container_is_empty, q)
  else if q.prior ≠ none then return (.ok (← deref q.prior).key, q)
  else
    let root ← q.readRoot
    let (t, prior) ← topLoop cmp (← deref root).key q.prior root
    return (.ok t, { q with prior := prior })

def push (q : PriorityQueue) (e : T) : Prog (Node T) PriorityQueue := do
  let root ← link (← q.readRoot) (some (← new (.create e)))
  let root ← mergeTrees cmp root
  return ⟨some root, q.length + 1, none⟩

/-- The first loop of `pop`. -/
def findPrev (prev p : Ptr) : Prog (Node T) Ptr := do
  let next := (← deref p).next
  if next = none then return prev
  let best ← deref (← deref prev).next
  let n ← deref next
  by apply findPrev; exacts [if cmp best.key n.key then p else prev, next]
partial_fixpoint

/-- `next != nullptr && cmp(*root->key, *next->key)` -/
def isExceeded (root next : Ptr) : Prog (Node T) Bool :=
  if next = none then return false
  else return cmp (← deref root).key (← deref next).key

/-- The removal of `current` from the list of trees; the results are `current` and
`root`. -/
def detach (root prev : Ptr) : Prog (Node T) (Ptr × Ptr) := do
  let next := (← deref prev).next
  if ← isExceeded cmp root next then
    setNext prev (← deref next).next
    return (next, root)
  else return (root, (← deref root).next)

/-- The second loop of `pop`. -/
def adopt (root p : Ptr) : Prog (Node T) Ptr := do
  if p = none then return root
  let q := (← deref p).next
  setNext p none
  let root ← link root p
  let root ← mergeTrees cmp root
  by apply adopt; exacts [root, q]
partial_fixpoint

def pop (q : PriorityQueue) : Prog (Node T) (Except Exception Unit × PriorityQueue) := do
  if q.length = 0 then return (.error .container_is_empty, q)
  else
    let root ← q.readRoot
    let prev ← findPrev cmp root root
    let (current, root) ← detach cmp root prev
    let root ← adopt cmp root (← deref current).child
    delete current
    return (.ok (), ⟨some root, q.length - 1, none⟩)

def size (q : PriorityQueue) : ℕ := q.length

def empty (q : PriorityQueue) : Bool := q.length = 0

/-- The public `merge`; the results are the two queues. -/
def merge (q other : PriorityQueue) : Prog (Node T) (PriorityQueue × PriorityQueue) := do
  let root ← link (← q.readRoot) (← other.readRoot)
  let root ← mergeTrees cmp root
  return (⟨some root, q.length + other.length, none⟩,
    { other with root := some none, length := 0 })

end PriorityQueue

end Course.Stl
