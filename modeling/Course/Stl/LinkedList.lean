import Course.Lib.Heap

/-! The STLite list: a ring of nodes through a sentinel, each with a pointer to its
element. -/

open Course.Lib Heap

namespace Course.Stl

/-- The list object, with the address of the sentinel `_node`. -/
structure LinkedList where
  node : ℕ
  size : ℕ

namespace LinkedList

inductive Exception
  | container_is_empty
  | invalid_iterator
  deriving DecidableEq

structure Node where
  data : Ptr
  prev : Ptr
  next : Ptr

/-- What a pointer may lead to. -/
inductive Cell (T : Type)
  | node (n : Node)
  | object (x : T)

variable {T : Type}

def readNode (p : Ptr) : Prog (Cell T) Node := fun h => do
  let (c, h) ← deref p h
  match c with
  | .node n => some (n, h)
  | .object _ => none

def readObject (p : Ptr) : Prog (Cell T) T := fun h => do
  let (c, h) ← deref p h
  match c with
  | .node _ => none
  | .object x => some (x, h)

def writeNode (p : Ptr) (f : Node → Node) : Prog (Cell T) Unit := do
  let n ← readNode p
  assign p fun _ => .node (f n)

def setData (p data : Ptr) : Prog (Cell T) Unit := writeNode p fun n => { n with data := data }

def setPrev (p prev : Ptr) : Prog (Cell T) Unit := writeNode p fun n => { n with prev := prev }

def setNext (p next : Ptr) : Prog (Cell T) Unit := writeNode p fun n => { n with next := next }

/-- `new node(new T(x), prev, next)` -/
def newNode (x : T) (prev next : Ptr) : Prog (Cell T) Ptr := do
  let data ← new (.object x)
  return some (← new (.node ⟨some data, prev, next⟩))

/-- `delete p`, with the destructor of the nodes. -/
def deleteNode (p : Ptr) : Prog (Cell T) Unit := do
  let n ← readNode p
  when (n.data ≠ none) (delete n.data)
  delete p

/-! ### Nodes in and out of the ring -/

/-- The private `insert` but for `++_size`. -/
def insertNode (pos cur : Ptr) : Prog (Cell T) Unit := do
  setNext (← readNode pos).prev cur
  setNext cur pos
  setPrev cur (← readNode pos).prev
  setPrev pos cur

/-- The private `erase` but for `--_size`. -/
def eraseNode (pos : Ptr) : Prog (Cell T) Unit := do
  setNext (← readNode pos).prev (← readNode pos).next
  setPrev (← readNode pos).next (← readNode pos).prev

/-- `pos->_prev = pos->_prev->_next = new node(new T(value), pos->_prev, pos)` -/
def insertValue (pos : Ptr) (value : T) : Prog (Cell T) Ptr := do
  let prev := (← readNode pos).prev
  let cur ← newNode value prev pos
  setNext prev cur
  setPrev pos cur
  return cur

/-- `for (p = _node->_next; p != _node; p = q) { q = p->_next; delete p; }` -/
def removeFrom (s p : Ptr) : Prog (Cell T) Unit := do
  if p = s then return
  let q := (← readNode p).next
  deleteNode p
  by apply removeFrom; exacts [s, q]
partial_fixpoint

/-- The loop of the copy constructor and of `operator=`, which ends with the last `p`. -/
def copyFrom (s t p q : Ptr) : Prog (Cell T) Ptr := do
  if q = t then return p
  let x ← readObject (← readNode q).data
  setNext p (← newNode x p s)
  let n ← readNode p
  let m ← readNode q
  by apply copyFrom; exacts [s, t, n.next, m.next]
partial_fixpoint

/-! ### Sorting -/

/-- The first inner loop: the element under `i` is elsewhere. -/
def sortDown (lt : T → T → Bool) (i j pivot : Ptr) : Prog (Cell T) (Ptr × Ptr) := do
  if i = j then return (i, j)
  if lt (← readObject (← readNode j).data) (← readObject pivot) then
    setData i (← readNode j).data
    return ((← readNode i).next, j)
  else
    let n ← readNode j
    by apply sortDown; exacts [lt, i, n.prev, pivot]
partial_fixpoint

/-- The second inner loop: the element under `j` is elsewhere. -/
def sortUp (lt : T → T → Bool) (i j pivot : Ptr) : Prog (Cell T) (Ptr × Ptr) := do
  if i = j then return (i, j)
  if lt (← readObject (← readNode i).data) (← readObject pivot) then
    let n ← readNode i
    by apply sortUp; exacts [lt, n.next, j, pivot]
  else
    setData j (← readNode i).data
    return (i, (← readNode j).prev)
partial_fixpoint

/-- The outer loop, which ends with `i` and `j` the same. -/
def sortLoop (lt : T → T → Bool) (i j pivot : Ptr) : Prog (Cell T) Ptr := do
  if i = j then return i
  let (i, j) ← sortDown lt i j pivot
  let (i, j) ← sortUp lt i j pivot
  by apply sortLoop; exacts [lt, i, j, pivot]
partial_fixpoint

/-- The private `sort`. -/
def sortRange (lt : T → T → Bool) (start stop : Ptr) : Prog (Cell T) Unit := do
  if (← readNode start).next = stop then return
  if start = stop then return
  let j := (← readNode stop).prev
  let pivot := (← readNode start).data
  let i ← sortLoop lt start j pivot
  setData i pivot
  by apply sortRange; exacts [lt, start, i]
  let n ← readNode i
  by apply sortRange; exacts [lt, n.next, stop]
partial_fixpoint

/-! ### Loops over one or two lists -/

/-- The first loop of `merge`; the results are `p`, `q` and the size. -/
def mergeLoop (lt : T → T → Bool) (s t p q : Ptr) (size : ℕ) :
    Prog (Cell T) (Ptr × Ptr × ℕ) := do
  if p = s ∨ q = t then return (p, q, size)
  if lt (← readObject (← readNode p).data) (← readObject (← readNode q).data) then
    let n ← readNode p
    by apply mergeLoop; exacts [lt, s, t, n.next, q, size]
  else
    let q := (← readNode q).next
    insertNode p (← readNode q).prev
    by apply mergeLoop; exacts [lt, s, t, p, q, size + 1]
partial_fixpoint

/-- The second loop of `merge`; the result is the size. -/
def mergeRest (s t q : Ptr) (size : ℕ) : Prog (Cell T) ℕ := do
  if q = t then return size
  let q := (← readNode q).next
  insertNode s (← readNode q).prev
  by apply mergeRest; exacts [s, t, q, size + 1]
partial_fixpoint

/-- The loop of `reverse`. -/
def reverseLoop (p q : Ptr) : Prog (Cell T) Unit := do
  if p = q then return
  if (← readNode p).prev = q then return
  let tmp := (← readNode p).data
  setData p (← readNode q).data
  setData q tmp
  let n ← readNode p
  let m ← readNode q
  by apply reverseLoop; exacts [n.next, m.prev]
partial_fixpoint

/-- The inner loop of `unique`; the result is the size. -/
def uniqueFrom (eq : T → T → Bool) (s p : Ptr) (size : ℕ) : Prog (Cell T) ℕ := do
  let q := (← readNode p).next
  if q = s then return size
  if eq (← readObject (← readNode p).data) (← readObject (← readNode q).data) then
    eraseNode q
    deleteNode q
    by apply uniqueFrom; exacts [eq, s, p, size - 1]
  else return size
partial_fixpoint

/-- The outer loop of `unique`; the result is the size. -/
def uniqueLoop (eq : T → T → Bool) (s p : Ptr) (size : ℕ) : Prog (Cell T) ℕ := do
  if p = s then return size
  if (← readNode p).next = s then return size
  let size ← uniqueFrom eq s p size
  let n ← readNode p
  by apply uniqueLoop; exacts [eq, s, n.next, size]
partial_fixpoint

/-! ### The members -/

def create : Prog (Cell T) LinkedList := do
  let s ← new (.node ⟨none, none, none⟩)
  setNext (some s) (some s)
  setPrev (some s) (some s)
  return ⟨s, 0⟩

/-- The copy constructor. -/
def createCopy (other : LinkedList) : Prog (Cell T) LinkedList := do
  let s ← new (.node ⟨none, none, none⟩)
  setNext (some s) (some s)
  let q := (← readNode (some other.node)).next
  let p ← copyFrom (some s) (some other.node) (some s) q
  setPrev (some s) p
  return ⟨s, other.size⟩

/-- `operator=` -/
def assignFrom (l other : LinkedList) : Prog (Cell T) LinkedList := do
  removeFrom (some l.node) (← readNode (some l.node)).next
  setNext (some l.node) (some l.node)
  let q := (← readNode (some other.node)).next
  let p ← copyFrom (some l.node) (some other.node) (some l.node) q
  setPrev (some l.node) p
  return { l with size := other.size }

def destroy (l : LinkedList) : Prog (Cell T) Unit := do
  removeFrom (some l.node) (← readNode (some l.node)).next
  deleteNode (some l.node)

def clear (l : LinkedList) : Prog (Cell T) LinkedList := do
  removeFrom (some l.node) (← readNode (some l.node)).next
  setNext (some l.node) (some l.node)
  setPrev (some l.node) (some l.node)
  return { l with size := 0 }

/-- `begin()`, moved on by `++` as often as the second argument says. -/
def iterator (l : LinkedList) : ℕ → Prog (Cell T) (Except Exception Ptr)
  | 0 => return .ok (← readNode (some l.node)).next
  | k + 1 => do
    match ← iterator l k with
    | .error e => return .error e
    | .ok pos =>
      if pos = some l.node then return .error .invalid_iterator
      else return .ok (← readNode pos).next

/-- `insert`, with an iterator of the list itself. -/
def insert (l : LinkedList) (pos : Ptr) (value : T) : Prog (Cell T) (Ptr × LinkedList) := do
  let cur ← insertValue pos value
  return (cur, { l with size := l.size + 1 })

def erase (l : LinkedList) (pos : Ptr) : Prog (Cell T) (Except Exception Ptr × LinkedList) := do
  if l.size = 0 then return (.error .container_is_empty, l)
  else if pos = some l.node then return (.error .invalid_iterator, l)
  else
    eraseNode pos
    let tmp := (← readNode pos).next
    deleteNode pos
    return (.ok tmp, { l with size := l.size - 1 })

def push_back (l : LinkedList) (value : T) : Prog (Cell T) LinkedList := do
  let _ ← insertValue (some l.node) value
  return { l with size := l.size + 1 }

def pop_back (l : LinkedList) : Prog (Cell T) (Except Exception Unit × LinkedList) := do
  if l.size = 0 then return (.error .container_is_empty, l)
  else
    let tmp := (← readNode (some l.node)).prev
    setPrev (some l.node) (← readNode tmp).prev
    setNext (← readNode (some l.node)).prev (some l.node)
    deleteNode tmp
    return (.ok (), { l with size := l.size - 1 })

def push_front (l : LinkedList) (value : T) : Prog (Cell T) LinkedList := do
  let next := (← readNode (some l.node)).next
  let cur ← newNode value (some l.node) next
  setPrev next cur
  setNext (some l.node) cur
  return { l with size := l.size + 1 }

def pop_front (l : LinkedList) : Prog (Cell T) (Except Exception Unit × LinkedList) := do
  if l.size = 0 then return (.error .container_is_empty, l)
  else
    let tmp := (← readNode (some l.node)).next
    setNext (some l.node) (← readNode tmp).next
    setPrev (← readNode (some l.node)).next (some l.node)
    deleteNode tmp
    return (.ok (), { l with size := l.size - 1 })

def sort (lt : T → T → Bool) (l : LinkedList) : Prog (Cell T) Unit := do
  sortRange lt (← readNode (some l.node)).next (some l.node)

/-- The results are the two lists. -/
def merge (lt : T → T → Bool) (l other : LinkedList) :
    Prog (Cell T) (LinkedList × LinkedList) := do
  let s := some l.node
  let t := some other.node
  let (p, q, size) ← mergeLoop lt s t (← readNode s).next (← readNode t).next l.size
  let size ← if p = s then mergeRest s t q size else pure size
  setNext t t
  setPrev t t
  return ({ l with size := size }, { other with size := 0 })

def reverse (l : LinkedList) : Prog (Cell T) Unit := do
  let p := (← readNode (some l.node)).next
  let q := (← readNode (some l.node)).prev
  reverseLoop p q

def unique (eq : T → T → Bool) (l : LinkedList) : Prog (Cell T) LinkedList := do
  let p := (← readNode (some l.node)).next
  return { l with size := ← uniqueLoop eq (some l.node) p l.size }

end LinkedList

end Course.Stl
