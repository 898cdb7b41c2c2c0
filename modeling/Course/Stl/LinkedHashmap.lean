import Course.Lib.HeapArray

/-! The STLite linked hash map: nodes in the chains of a table, and in a ring in the order
in which they came. -/

open Course.Lib Heap

namespace Course.Stl

/-- The map object, with the addresses of the table and of the head node it holds. -/
structure LinkedHashmap (L : Type) where
  table : ℕ
  head : ℕ
  capacity : ℕ
  numOfElements : ℕ
  loadFactor : L

namespace LinkedHashmap

inductive Exception
  | index_out_of_bound
  | invalid_iterator
  deriving DecidableEq

/-- A node, its value stored in place; the head and the nodes of the table have none. -/
structure Node (K V : Type) where
  val : Option (K × V)
  next : Ptr
  before : Ptr
  after : Ptr

variable {K V L : Type}

/-- `node()` -/
def Node.blank : Node K V := ⟨none, none, none, none⟩

def setNext (p next : Ptr) : Prog (Node K V) Unit := assign p fun n => { n with next := next }

def setBefore (p before : Ptr) : Prog (Node K V) Unit :=
  assign p fun n => { n with before := before }

def setAfter (p after : Ptr) : Prog (Node K V) Unit :=
  assign p fun n => { n with after := after }

/-- `*p->val` -/
def entry (p : Ptr) : Prog (Node K V) (K × V) := fun h => do
  let (n, h) ← deref p h
  let e ← n.val
  return (e, h)

/-! ### Loops -/

/-- The loop of `at`, `find` and `count`; null when the key is not there. -/
def seek (equal : K → K → Bool) (key : K) (p : Ptr) : Prog (Node K V) Ptr := do
  if p = none then return none
  else if equal (← entry p).1 key then return p
  else
    let n ← deref p
    by apply seek; exacts [equal, key, n.next]
partial_fixpoint

/-- The loop of `insert` and `operator[]`: the node of the key, or null, and the node in
front of it. -/
def seekNext (equal : K → K → Bool) (key : K) (p : Ptr) : Prog (Node K V) (Ptr × Ptr) := do
  let next := (← deref p).next
  if next = none then return (none, p)
  else if equal (← entry next).1 key then return (next, p)
  else by apply seekNext; exacts [equal, key, next]
partial_fixpoint

/-- `while (p->next != target) p = p->next;` -/
def predecessor (target p : Ptr) : Prog (Node K V) Ptr := do
  let next := (← deref p).next
  if next = target then return p else by apply predecessor; exacts [target, next]
partial_fixpoint

/-- `p = p->next = new node(value, next, head->before, head);` and
`p->before->after = p, head->before = p;` -/
def append (head : ℕ) (p : Ptr) (value : K × V) (next : Ptr) : Prog (Node K V) ℕ := do
  let before := (← deref (some head)).before
  let q ← new ⟨some value, next, before, some head⟩
  setNext p (some q)
  setAfter (← deref (some q)).before (some q)
  setBefore (some head) (some q)
  return q

/-- `target->before->after = target->after, target->after->before = target->before;` -/
def unlink (target : Ptr) : Prog (Node K V) Unit := do
  setAfter (← deref target).before (← deref target).after
  setBefore (← deref target).after (← deref target).before

/-- The loop of `removeNodes`. -/
def removeBefore (head : ℕ) (p : Ptr) : Prog (Node K V) Unit := do
  if p = some head then return
  delete (← deref p).before
  let n ← deref p
  by apply removeBefore; exacts [head, n.after]
partial_fixpoint

/-- `for (p = head->after->after; p != head; p = p->after) delete p->before;` -/
def removeNodes (head : ℕ) : Prog (Node K V) Unit := do
  removeBefore head (← deref (← deref (some head)).after).after

/-- The same with `delete head->before;` behind it. -/
def removeAll (head : ℕ) : Prog (Node K V) Unit := do
  removeNodes head
  delete (← deref (some head)).before

/-- `head->before = head->after = head;` -/
def reset (head : ℕ) : Prog (Node K V) Unit := do
  setAfter (some head) (some head)
  setBefore (some head) (some head)

/-! ### The members -/

section Members

variable (hash : K → ℕ) (equal : K → K → Bool)

/-- `hash(key) & (capacity - 1)` -/
def index (capacity : ℕ) (key : K) : ℕ := hash key &&& (capacity - 1)

/-- The address of the node in the table. -/
def slot (m : LinkedHashmap L) (key : K) : ℕ := m.table + index hash m.capacity key

/-- The loop of `resize`. -/
def rehash (head table capacity : ℕ) (p : Ptr) : Prog (Node K V) Unit := do
  if p = some head then return
  let q := table + index hash capacity (← entry p).1
  setNext p (← deref (some q)).next
  setNext (some q) p
  let n ← deref p
  by apply rehash; exacts [head, table, capacity, n.after]
partial_fixpoint

/-- `exceeds` is the comparison `numOfElements > capacity * loadFactor` in floating point. -/
def resize (exceeds : ℕ → ℕ → L → Bool) (m : LinkedHashmap L) :
    Prog (Node K V) (LinkedHashmap L) := do
  if exceeds m.numOfElements m.capacity m.loadFactor then
    let capacity := m.capacity <<< 1
    let newTable ← newArray .blank capacity
    rehash hash m.head newTable capacity (← deref (some m.head)).after
    deleteArray m.table m.capacity
    return { m with table := newTable, capacity := capacity }
  else return m

def create (capacity : ℕ) (loadFactor : L) : Prog (Node K V) (LinkedHashmap L) := do
  let table ← newArray .blank capacity
  let head ← new .blank
  reset head
  return ⟨table, head, capacity, 0, loadFactor⟩

/-- The loop of the copy constructor and of `operator=`. -/
def copyFrom (m : LinkedHashmap L) (otherHead : ℕ) (p : Ptr) : Prog (Node K V) Unit := do
  if p = some otherHead then return
  let value ← entry p
  let q := m.slot hash value.1
  let _ ← append m.head (some q) value (← deref (some q)).next
  let n ← deref p
  by apply copyFrom; exacts [m, otherHead, n.after]
partial_fixpoint

/-- The copy constructor. -/
def createCopy (other : LinkedHashmap L) : Prog (Node K V) (LinkedHashmap L) := do
  let m ← create other.capacity other.loadFactor
  let m := { m with numOfElements := other.numOfElements }
  copyFrom hash m other.head (← deref (some other.head)).after
  return m

/-- `operator=` -/
def assignFrom (m other : LinkedHashmap L) : Prog (Node K V) (LinkedHashmap L) := do
  if m.head = other.head then return m
  removeNodes m.head
  reset m.head
  let table ←
    if m.capacity ≠ other.capacity then do
      deleteArray m.table m.capacity
      newArray .blank other.capacity
    else do
      when (m.numOfElements ≠ 0) (fill m.table .blank m.capacity)
      pure m.table
  let m := { other with table := table, head := m.head }
  copyFrom hash m other.head (← deref (some other.head)).after
  return m

/-- The destructor. -/
def destroy (m : LinkedHashmap L) : Prog (Node K V) Unit := do
  when (m.numOfElements ≠ 0) (removeAll m.head)
  deleteArray m.table m.capacity
  delete (some m.head)

def at' (m : LinkedHashmap L) (key : K) : Prog (Node K V) (Except Exception V) := do
  let p ← seek equal key (← deref (some (m.slot hash key))).next
  if p = none then return .error .index_out_of_bound else return .ok (← entry p).2

/-- `insert` and `operator[]`: the node of the key, and whether it is new. -/
def put (exceeds : ℕ → ℕ → L → Bool) (m : LinkedHashmap L) (value : K × V) :
    Prog (Node K V) (LinkedHashmap L × Ptr × Bool) := do
  let (p, last) ← seekNext equal value.1 (some (m.slot hash value.1))
  if p ≠ none then return (m, p, false)
  let q ← append m.head last value none
  let m ← resize hash exceeds { m with numOfElements := m.numOfElements + 1 }
  return (m, some q, true)

/-- `operator[]`, whose reference is to the value in the node returned. -/
def subscript [Inhabited V] (exceeds : ℕ → ℕ → L → Bool) (m : LinkedHashmap L) (key : K) :
    Prog (Node K V) (LinkedHashmap L × Ptr) := do
  let (m, p, _) ← put hash equal exceeds m (key, default)
  return (m, p)

def empty (m : LinkedHashmap L) : Bool := m.numOfElements = 0

def size (m : LinkedHashmap L) : ℕ := m.numOfElements

def clear (m : LinkedHashmap L) : Prog (Node K V) (LinkedHashmap L) := do
  if m.numOfElements = 0 then return m
  removeAll m.head
  reset m.head
  fill m.table .blank m.capacity
  return { m with numOfElements := 0 }

end Members

/-! ### Iterators -/

/-- `hashmap` is the map, by its head. -/
structure Iterator where
  target : Ptr
  hashmap : ℕ

def begin' (m : LinkedHashmap L) : Prog (Node K V) Iterator :=
  return ⟨(← deref (some m.head)).after, m.head⟩

def end' (m : LinkedHashmap L) : Iterator := ⟨some m.head, m.head⟩

namespace Iterator

/-- `++` -/
def increment (it : Iterator) : Prog (Node K V) (Except Exception Iterator) := do
  if it.target = some it.hashmap then return .error .invalid_iterator
  return .ok { it with target := (← deref it.target).after }

/-- `--` -/
def decrement (it : Iterator) : Prog (Node K V) (Except Exception Iterator) := do
  if it.target = (← deref (some it.hashmap)).after then return .error .invalid_iterator
  return .ok { it with target := (← deref it.target).before }

/-- `*` -/
def value (it : Iterator) : Prog (Node K V) (Except Exception (K × V)) := do
  if it.target = some it.hashmap then return .error .invalid_iterator
  return .ok (← entry it.target)

end Iterator

section Members

variable (hash : K → ℕ) (equal : K → K → Bool)

def insert (exceeds : ℕ → ℕ → L → Bool) (m : LinkedHashmap L) (value : K × V) :
    Prog (Node K V) (LinkedHashmap L × Iterator × Bool) := do
  let (m, p, fresh) ← put hash equal exceeds m value
  return (m, ⟨p, m.head⟩, fresh)

def find (m : LinkedHashmap L) (key : K) : Prog (Node K V) Iterator := do
  let p ← seek equal key (← deref (some (m.slot hash key))).next
  return if p = none then m.end' else ⟨p, m.head⟩

def count (m : LinkedHashmap L) (key : K) : Prog (Node K V) ℕ := do
  let p ← seek equal key (← deref (some (m.slot hash key))).next
  return if p = none then 0 else 1

def erase (m : LinkedHashmap L) (pos : Iterator) :
    Prog (Node K V) (Except Exception (LinkedHashmap L)) := do
  if pos.target = some m.head ∨ pos.hashmap ≠ m.head then return .error .invalid_iterator
  unlink pos.target
  let p ← predecessor pos.target (some (m.slot hash (← entry pos.target).1))
  setNext p (← deref pos.target).next
  delete pos.target
  return .ok { m with numOfElements := m.numOfElements - 1 }

end Members

end LinkedHashmap

end Course.Stl
