import Course.Os.ThreadPool

/-! The producers and consumers of Project 5, statement by statement: a bounded buffer behind
a mutex and two semaphores. -/

open Course.Lib

namespace Course.Os.ProducerConsumer

def BUFFER_SIZE : ℕ := 5

inductive Role
  | producer
  | consumer
  deriving DecidableEq

/-- The statement a thread is before, with the values of its local variables. The sleep and the
draw of an item are one event. -/
inductive Phase
  | produceItem
  | waitEmpty (nextProduced : ℤ)
  | lockToProduce (nextProduced : ℤ)
  | store (nextProduced : ℤ)
  | advanceRear (nextProduced : ℤ)
  | countProduced (nextProduced : ℤ)
  | printProduced (nextProduced : ℤ) (itemCount : ℕ)
  | unlockProduced
  | postFull
  | waitFull
  | lockToConsume
  | load
  | advanceFront (nextConsumed : ℤ)
  | countConsumed (nextConsumed : ℤ)
  | printConsumed (nextConsumed : ℤ) (itemCount : ℕ)
  | unlockConsumed
  | postEmpty

/-- A line on the standard output. -/
inductive Line (ι : Type)
  | produced (producerID : ι) (item : ℤ) (itemCount : ℕ)
  | consumed (consumerID : ι) (item : ℤ) (itemCount : ℕ)

/-- The globals and the output; `produced` and `consumed` are the items that have gone through
the buffer so far. -/
structure Memory (ι : Type) where
  data : ℕ → ℤ
  front : ℕ
  rear : ℕ
  mutex : Option ι
  empty : ℕ
  full : ℕ
  out : List (Line ι)
  produced : List ℤ
  consumed : List ℤ

structure State (ι : Type) where
  memory : Memory ι
  phase : ι → Phase

inductive Event (ι : Type)
  /-- A producer draws the item `rand() % 100`. -/
  | produce (i : ι) (item : ℤ)
  | run (i : ι)

variable {ι : Type}

/-- Where `producer` and `consumer` start. -/
def Role.start : Role → Phase
  | .producer => .produceItem
  | .consumer => .waitFull

/-- The threads after `main` has created them. -/
def init (role : ι → Role) : State ι where
  memory := {
    data := fun _ => 0
    front := 0
    rear := 0
    mutex := none
    empty := BUFFER_SIZE
    full := 0
    out := []
    produced := []
    consumed := [] }
  phase i := (role i).start

/-- One statement of the thread `i`; `none` where it has to wait. -/
def Phase.run (i : ι) (m : Memory ι) : Phase → Option (Phase × Memory ι)
  | .produceItem => none
  | .waitEmpty x =>
    if 0 < m.empty then some (.lockToProduce x, { m with empty := m.empty - 1 }) else none
  | .lockToProduce x =>
    if m.mutex.isNone then some (.store x, { m with mutex := some i }) else none
  | .store x => some (.advanceRear x, { m with data := Function.update m.data m.rear x })
  | .advanceRear x =>
    some (.countProduced x,
      { m with rear := (m.rear + 1) % BUFFER_SIZE, produced := m.produced ++ [x] })
  | .countProduced x => some (.printProduced x m.full, m)
  | .printProduced x n => some (.unlockProduced, { m with out := m.out ++ [.produced i x (n + 1)] })
  | .unlockProduced => some (.postFull, { m with mutex := none })
  | .postFull => some (.produceItem, { m with full := m.full + 1 })
  | .waitFull =>
    if 0 < m.full then some (.lockToConsume, { m with full := m.full - 1 }) else none
  | .lockToConsume => if m.mutex.isNone then some (.load, { m with mutex := some i }) else none
  | .load => some (.advanceFront (m.data m.front), m)
  | .advanceFront x =>
    some (.countConsumed x,
      { m with front := (m.front + 1) % BUFFER_SIZE, consumed := m.consumed ++ [x] })
  | .countConsumed x => some (.printConsumed x m.full, m)
  | .printConsumed x n => some (.unlockConsumed, { m with out := m.out ++ [.consumed i x n] })
  | .unlockConsumed => some (.postEmpty, { m with mutex := none })
  | .postEmpty => some (.waitFull, { m with empty := m.empty + 1 })

def State.move [DecidableEq ι] (s : State ι) (i : ι) (p : Phase) (m : Memory ι) : State ι where
  memory := m
  phase := Function.update s.phase i p

def step [DecidableEq ι] (s : State ι) : Event ι → Option (State ι)
  | .produce i x =>
    match s.phase i with
    | .produceItem => some (s.move i (.waitEmpty x) s.memory)
    | _ => none
  | .run i => ((s.phase i).run i s.memory).map fun (p, m) => s.move i p m

def machine (ι : Type) [DecidableEq ι] : Machine (State ι) (Event ι) where
  step := step

/-! ### The invariant -/

def Phase.role : Phase → Role
  | .produceItem | .waitEmpty _ | .lockToProduce _ | .store _ | .advanceRear _
  | .countProduced _ | .printProduced _ _ | .unlockProduced | .postFull => .producer
  | _ => .consumer

/-- Between `pthread_mutex_lock` and `pthread_mutex_unlock`. -/
def Phase.locked : Phase → Bool
  | .store _ | .advanceRear _ | .countProduced _ | .printProduced _ _ | .unlockProduced
  | .load | .advanceFront _ | .countConsumed _ | .printConsumed _ _ | .unlockConsumed => true
  | _ => false

/-- Slots taken from `empty` and not yet filled, or emptied and not yet posted. -/
def Phase.slots : Phase → ℕ
  | .lockToProduce _ | .store _ | .advanceRear _ => 1
  | .countConsumed _ | .printConsumed _ _ | .unlockConsumed | .postEmpty => 1
  | _ => 0

/-- Items taken from `full` and not yet removed, or stored and not yet posted. -/
def Phase.items : Phase → ℕ
  | .lockToConsume | .load | .advanceFront _ => 1
  | .countProduced _ | .printProduced _ _ | .unlockProduced | .postFull => 1
  | _ => 0

/-- The item a producer has drawn and not yet reported. -/
def Phase.drawn : Phase → List ℤ
  | .waitEmpty x | .lockToProduce x | .store x | .advanceRear x | .countProduced x
  | .printProduced x _ => [x]
  | _ => []

/-- The item in the buffer that no line reports yet. -/
def Phase.unprintedProduced : Phase → List ℤ
  | .countProduced x | .printProduced x _ => [x]
  | _ => []

def Phase.unprintedConsumed : Phase → List ℤ
  | .countConsumed x | .printConsumed x _ => [x]
  | _ => []

/-- What a thread between two statements of its critical section relies on. -/
def Phase.Holds (m : Memory ι) : Phase → Prop
  | .advanceRear x => m.data m.rear = x
  | .advanceFront x => m.data m.front = x
  | .printProduced _ n => n < BUFFER_SIZE
  | .printConsumed _ n => n < BUFFER_SIZE
  | _ => True

def Line.producedItem : Line ι → Option ℤ
  | .produced _ x _ => some x
  | .consumed _ _ _ => none

def Line.consumedItem : Line ι → Option ℤ
  | .produced _ _ _ => none
  | .consumed _ x _ => some x

def Line.producedBy [DecidableEq ι] (i : ι) : Line ι → Option ℤ
  | .produced j x _ => if j = i then some x else none
  | .consumed _ _ _ => none

/-- The count in a line is one the buffer can have. -/
def Line.Counts : Line ι → Prop
  | .produced _ _ n => 1 ≤ n ∧ n ≤ BUFFER_SIZE
  | .consumed _ _ n => n < BUFFER_SIZE

/-- What the holder of the mutex has, of the items that `f` takes from a phase. -/
def State.held (s : State ι) (f : Phase → List ℤ) : List ℤ :=
  match s.memory.mutex with
  | none => []
  | some i => f (s.phase i)

/-- `queued` is what the buffer holds. -/
structure Inv [Fintype ι] (role : ι → Role) (s : State ι) (queued : List ℤ) : Prop where
  role_eq : ∀ i, (s.phase i).role = role i
  mutex : ∀ i, (s.phase i).locked = true ↔ s.memory.mutex = some i
  holds : ∀ i, (s.phase i).Holds s.memory
  buffer : CircularBuffer.Holds BUFFER_SIZE s.memory.data s.memory.front s.memory.rear queued
  order : s.memory.produced = s.memory.consumed ++ queued
  slots : s.memory.empty + ∑ i, (s.phase i).slots + queued.length = BUFFER_SIZE
  items : s.memory.full + ∑ i, (s.phase i).items = queued.length
  printedProduced : s.memory.out.filterMap Line.producedItem ++ s.held Phase.unprintedProduced =
    s.memory.produced
  printedConsumed : s.memory.out.filterMap Line.consumedItem ++ s.held Phase.unprintedConsumed =
    s.memory.consumed
  counts : ∀ line ∈ s.memory.out, line.Counts

variable {role : ι → Role} {i j : ι} {p p' : Phase} {m m' : Memory ι} {s t : State ι}
  {queued queued' : List ℤ}

@[simp]
theorem start_role (r : Role) : r.start.role = r := by cases r <;> rfl

@[simp]
theorem start_locked (r : Role) : r.start.locked = false := by cases r <;> rfl

@[simp]
theorem start_slots (r : Role) : r.start.slots = 0 := by cases r <;> rfl

@[simp]
theorem start_items (r : Role) : r.start.items = 0 := by cases r <;> rfl

theorem Phase.unprinted_of_not_locked (hp : p.locked = false) :
    p.unprintedProduced = [] ∧ p.unprintedConsumed = [] := by
  cases p <;> simp_all [locked, unprintedProduced, unprintedConsumed]

/-- Outside the critical section a thread relies on nothing. -/
theorem Phase.holds_of_not_locked (hp : p.locked = false) (m : Memory ι) : p.Holds m := by
  cases p <;> simp_all [locked, Holds]

theorem init_inv [Fintype ι] (role : ι → Role) : Inv role (init role) [] where
  role_eq i := start_role (role i)
  mutex i := by simp [init]
  holds i := Phase.holds_of_not_locked (start_locked (role i)) _
  buffer := CircularBuffer.Holds.nil (Nat.succ_pos _) _
  order := rfl
  slots := by simp [init]
  items := by simp [init]
  printedProduced := rfl
  printedConsumed := rfl
  counts := by simp [init]

/-- What one statement of a thread does to the mutex. -/
inductive Locks (i : ι) : Bool → Bool → Option ι → Option ι → Prop
  | keep (b : Bool) (o : Option ι) : Locks i b b o o
  | lock : Locks i false true none (some i)
  | unlock (o : Option ι) : Locks i true false o none

/-- What one statement of the thread `i` does, where the thread has the mutex if it needs it. -/
structure Moves (i : ι) (p p' : Phase) (m m' : Memory ι) (queued queued' : List ℤ) : Prop where
  role : p'.role = p.role
  mutex : Locks i p.locked p'.locked m.mutex m'.mutex
  frame : p.locked = false →
    m' = { m with mutex := m'.mutex, empty := m'.empty, full := m'.full } ∧ queued' = queued
  holds : p'.Holds m'
  buffer : CircularBuffer.Holds BUFFER_SIZE m'.data m'.front m'.rear queued'
  order : m'.produced = m'.consumed ++ queued'
  slots : m'.empty + p'.slots + queued'.length = m.empty + p.slots + queued.length
  items : m'.full + p'.items + queued.length = m.full + p.items + queued'.length
  produced : m.out.filterMap Line.producedItem ++ p.unprintedProduced = m.produced →
    m'.out.filterMap Line.producedItem ++ p'.unprintedProduced = m'.produced
  consumed : m.out.filterMap Line.consumedItem ++ p.unprintedConsumed = m.consumed →
    m'.out.filterMap Line.consumedItem ++ p'.unprintedConsumed = m'.consumed
  counts : (∀ line ∈ m.out, line.Counts) → ∀ line ∈ m'.out, line.Counts

/-- A statement that leaves the buffer and the output as they are. -/
theorem Moves.of_frame (hrole : p'.role = p.role)
    (hmutex : Locks i p.locked p'.locked m.mutex m'.mutex)
    (hm : m' = { m with mutex := m'.mutex, empty := m'.empty, full := m'.full })
    (hholds : p'.Holds m')
    (hbuffer : CircularBuffer.Holds BUFFER_SIZE m.data m.front m.rear queued)
    (horder : m.produced = m.consumed ++ queued)
    (hslots : m'.empty + p'.slots = m.empty + p.slots)
    (hitems : m'.full + p'.items = m.full + p.items)
    (hproduced : p'.unprintedProduced = p.unprintedProduced)
    (hconsumed : p'.unprintedConsumed = p.unprintedConsumed) :
    Moves i p p' m m' queued queued where
  role := hrole
  mutex := hmutex
  frame _ := ⟨hm, rfl⟩
  holds := hholds
  buffer := by rw [hm]; exact hbuffer
  order := by rw [hm]; exact horder
  slots := by omega
  items := by omega
  produced h := by rw [hm, hproduced]; exact h
  consumed h := by rw [hm, hconsumed]; exact h
  counts h := by rw [hm]; exact h

theorem Phase.run_moves (h : p.run i m = some (p', m'))
    (hmutex : p.locked = true → m.mutex = some i) (hholds : p.Holds m)
    (hbuffer : CircularBuffer.Holds BUFFER_SIZE m.data m.front m.rear queued)
    (horder : m.produced = m.consumed ++ queued)
    (hslots : m.empty + p.slots + queued.length ≤ BUFFER_SIZE)
    (hitems : m.full + p.items ≤ queued.length) :
    ∃ queued', Moves i p p' m m' queued queued' := by
  cases p with
  | produceItem => cases h
  | waitEmpty x | waitFull =>
    simp only [run] at h
    split at h
    next hpos =>
      cases h
      exact ⟨queued, .of_frame rfl (.keep ..) rfl trivial hbuffer horder
        (by simp only [Phase.slots] <;> omega) (by simp only [Phase.items] <;> omega) rfl rfl⟩
    next => cases h
  | lockToProduce x | lockToConsume =>
    simp only [run] at h
    split at h
    next hfree =>
      cases h
      rw [Option.isNone_iff_eq_none] at hfree
      refine ⟨queued, .of_frame rfl ?_ rfl trivial hbuffer horder rfl rfl rfl rfl⟩
      rw [hfree]
      exact .lock
    next => cases h
  | postFull | postEmpty =>
    cases h
    exact ⟨queued, .of_frame rfl (.keep ..) rfl trivial hbuffer horder rfl rfl rfl rfl⟩
  | unlockProduced | unlockConsumed =>
    cases h
    exact ⟨queued, .of_frame rfl (.unlock _) rfl trivial hbuffer horder rfl rfl rfl rfl⟩
  | store x =>
    cases h
    have hlt : queued.length < BUFFER_SIZE := by
      simp only [slots] at hslots
      omega
    refine ⟨queued, rfl, .keep .., by simp [locked], ?_, hbuffer.write hlt x, horder, rfl, rfl, id,
      id, id⟩
    exact Function.update_self ..
  | advanceRear x =>
    cases h
    have hlt : queued.length < BUFFER_SIZE := by
      simp only [slots] at hslots
      omega
    have hpush := hbuffer.push hlt x
    rw [show x = m.data m.rear from hholds.symm, Function.update_eq_self] at hpush
    rw [show m.data m.rear = x from hholds] at hpush
    refine ⟨queued ++ [x], rfl, .keep .., by simp [locked], trivial, hpush, ?_, ?_, ?_, ?_, id, id⟩
    · simp [horder]
    · simp only [slots, List.length_append, List.length_singleton]
      omega
    · simp only [items, List.length_append, List.length_singleton]
      omega
    · intro hp
      rw [← hp]
      simp [unprintedProduced]
  | countProduced x | countConsumed x =>
    cases h
    have hlt : m.full < BUFFER_SIZE := by
      simp only [slots, items] at hslots hitems
      omega
    exact ⟨queued, rfl, .keep .., by simp [locked], hlt, hbuffer, horder, rfl, rfl, id, id, id⟩
  | printProduced x n =>
    cases h
    refine ⟨queued, rfl, .keep .., by simp [locked], trivial, hbuffer, horder, rfl, rfl, ?_, ?_, ?_⟩
    · intro hp
      rw [← hp]
      simp [unprintedProduced, Line.producedItem]
    · intro hp
      rw [← hp]
      simp [unprintedConsumed, Line.consumedItem]
    · intro hcounts line hline
      rcases List.mem_append.mp hline with hline | hline
      · exact hcounts line hline
      · rw [List.mem_singleton.mp hline]
        exact ⟨Nat.succ_pos n, hholds⟩
  | printConsumed x n =>
    cases h
    refine ⟨queued, rfl, .keep .., by simp [locked], trivial, hbuffer, horder, rfl, rfl, ?_, ?_, ?_⟩
    · intro hp
      rw [← hp]
      simp [unprintedProduced, Line.producedItem]
    · intro hp
      rw [← hp]
      simp [unprintedConsumed, Line.consumedItem]
    · intro hcounts line hline
      rcases List.mem_append.mp hline with hline | hline
      · exact hcounts line hline
      · rw [List.mem_singleton.mp hline]
        exact hholds
  | load =>
    cases h
    exact ⟨queued, rfl, .keep .., by simp [locked], rfl, hbuffer, horder, rfl, rfl, id, id, id⟩
  | advanceFront x =>
    cases h
    cases queued with
    | nil =>
      simp only [items, List.length_nil] at hitems
      omega
    | cons y queued =>
      obtain ⟨hy, hpop⟩ := hbuffer.pop
      obtain rfl : y = x := by
        rw [← hy]
        exact hholds
      refine ⟨queued, rfl, .keep .., by simp [locked], trivial, hpop, ?_, ?_, ?_, id, ?_, id⟩
      · simp [horder]
      · simp only [slots, List.length_cons]
        omega
      · simp only [items, List.length_cons]
        omega
      · intro hp
        rw [← hp]
        simp [unprintedConsumed]

theorem Locks.other {b b' : Bool} {o o' : Option ι} (h : Locks i b b' o o')
    (hb : b = true → o = some i) (hji : j ≠ i) : o' = some j ↔ o = some j := by
  cases h with
  | keep => exact Iff.rfl
  | lock => simpa using hji.symm
  | unlock o => simpa [hb rfl] using hji.symm

theorem Locks.self {b b' : Bool} {o o' : Option ι} (h : Locks i b b' o o')
    (hb : b = true ↔ o = some i) : b' = true ↔ o' = some i := by
  cases h with
  | keep => exact hb
  | lock => simp
  | unlock o => simp

theorem held_of_eq_some (hs : s.memory.mutex = some i) (f : Phase → List ℤ) :
    s.held f = f (s.phase i) := by
  rw [State.held, hs]

theorem held_of_eq_none (hs : s.memory.mutex = none) (f : Phase → List ℤ) : s.held f = [] := by
  rw [State.held, hs]

section Steps

variable [DecidableEq ι]

theorem move_self (s : State ι) (i : ι) (p : Phase) (m : Memory ι) : (s.move i p m).phase i = p :=
  Function.update_self ..

theorem move_of_ne (s : State ι) (hji : j ≠ i) (p : Phase) (m : Memory ι) :
    (s.move i p m).phase j = s.phase j :=
  Function.update_of_ne hji ..

/-- What is not yet printed moves with the thread that has the mutex. -/
theorem held_move {b b' : Bool} {lines lines' items items' : List ℤ} {f : Phase → List ℤ}
    (hlocks : Locks i b b' s.memory.mutex m'.mutex) (hb : b = true ↔ s.memory.mutex = some i)
    (hf : b = false → f (s.phase i) = []) (hf' : b' = false → f p' = [])
    (hframe : b = false → lines' = lines ∧ items' = items)
    (hmove : lines ++ f (s.phase i) = items → lines' ++ f p' = items')
    (h : lines ++ s.held f = items) : lines' ++ (s.move i p' m').held f = items' := by
  generalize ho : s.memory.mutex = o at hlocks hb
  generalize ho' : m'.mutex = o' at hlocks
  replace ho' : (s.move i p' m').memory.mutex = o' := ho'
  cases hlocks with
  | keep b o =>
    cases b with
    | true =>
      obtain rfl : o = some i := hb.mp rfl
      rw [held_of_eq_some ho] at h
      rw [held_of_eq_some ho', move_self]
      exact hmove h
    | false =>
      obtain ⟨rfl, rfl⟩ := hframe rfl
      cases o with
      | none =>
        rw [held_of_eq_none ho] at h
        rwa [held_of_eq_none ho']
      | some j =>
        have hji : j ≠ i := fun heq => absurd (hb.mpr (heq ▸ rfl)) (by simp)
        rw [held_of_eq_some ho] at h
        rwa [held_of_eq_some ho', move_of_ne s hji]
  | lock =>
    rw [held_of_eq_none ho] at h
    rw [held_of_eq_some ho', move_self]
    exact hmove (by rw [hf rfl]; exact h)
  | unlock o =>
    rw [held_of_eq_some (ho.trans (hb.mp rfl))] at h
    rw [held_of_eq_none ho', ← hf' rfl]
    exact hmove h

variable [Fintype ι]

omit [DecidableEq ι] in
theorem Inv.not_locked (h : Inv role s queued) (hi : (s.phase i).locked = true) (hji : j ≠ i) :
    (s.phase j).locked = false := by
  by_contra hj
  rw [Bool.not_eq_false, h.mutex j, (h.mutex i).mp hi] at hj
  exact hji (Option.some.inj hj).symm

theorem Inv.move (h : Inv role s queued)
    (hmoves : Moves i (s.phase i) p' s.memory m' queued queued') :
    Inv role (s.move i p' m') queued' := by
  have hslots := h.slots
  have hitems := h.items
  have hmslots := hmoves.slots
  have hmitems := hmoves.items
  constructor
  case role_eq =>
    intro j
    rcases eq_or_ne j i with rfl | hji
    · rw [move_self, hmoves.role, h.role_eq]
    · rw [move_of_ne s hji, h.role_eq]
  case mutex =>
    intro j
    rcases eq_or_ne j i with rfl | hji
    · rw [move_self]
      exact hmoves.mutex.self (h.mutex j)
    · rw [move_of_ne s hji, h.mutex j]
      exact (hmoves.mutex.other (h.mutex i).mp hji).symm
  case holds =>
    intro j
    rcases eq_or_ne j i with rfl | hji
    · rw [move_self]
      exact hmoves.holds
    · rw [move_of_ne s hji]
      cases hi : (s.phase i).locked with
      | true => exact Phase.holds_of_not_locked (h.not_locked hi hji) _
      | false =>
        have hj := h.holds j
        rw [State.move, (hmoves.frame hi).1]
        cases hp : s.phase j <;> simp_all [Phase.Holds]
  case buffer => exact hmoves.buffer
  case order => exact hmoves.order
  case slots =>
    have : ∑ j, ((s.move i p' m').phase j).slots + (s.phase i).slots = _ :=
      ThreadPool.sum_update s.phase Phase.slots i p'
    simp only [State.move] at this ⊢
    omega
  case items =>
    have : ∑ j, ((s.move i p' m').phase j).items + (s.phase i).items = _ :=
      ThreadPool.sum_update s.phase Phase.items i p'
    simp only [State.move] at this ⊢
    omega
  case printedProduced =>
    refine held_move hmoves.mutex (h.mutex i) (fun hi => (Phase.unprinted_of_not_locked hi).1)
      (fun hi => (Phase.unprinted_of_not_locked hi).1) (fun hi => ?_) hmoves.produced
      h.printedProduced
    rw [State.move, (hmoves.frame hi).1]
    exact ⟨rfl, rfl⟩
  case printedConsumed =>
    refine held_move hmoves.mutex (h.mutex i) (fun hi => (Phase.unprinted_of_not_locked hi).2)
      (fun hi => (Phase.unprinted_of_not_locked hi).2) (fun hi => ?_) hmoves.consumed
      h.printedConsumed
    rw [State.move, (hmoves.frame hi).1]
    exact ⟨rfl, rfl⟩
  case counts => exact hmoves.counts h.counts

omit [DecidableEq ι] in
/-- The counts of the semaphores, with one thread apart. -/
theorem Inv.counted (h : Inv role s queued) (i : ι) :
    s.memory.empty + (s.phase i).slots + queued.length ≤ BUFFER_SIZE ∧
      s.memory.full + (s.phase i).items ≤ queued.length := by
  have hle : ∀ f : Phase → ℕ, f (s.phase i) ≤ ∑ j, f (s.phase j) := fun f =>
    Finset.single_le_sum (f := fun j => f (s.phase j)) (fun _ _ => Nat.zero_le _)
      (Finset.mem_univ i)
  have hslots := h.slots
  have hitems := h.items
  have hslot := hle Phase.slots
  have hitem := hle Phase.items
  omega

theorem Inv.step (h : Inv role s queued) {e : Event ι} (hstep : (machine ι).step s e = some t) :
    ∃ queued', Inv role t queued' := by
  cases e with
  | produce i x =>
    simp only [machine, ProducerConsumer.step] at hstep
    split at hstep
    next hi =>
      cases hstep
      refine ⟨queued, h.move ?_⟩
      rw [hi]
      exact .of_frame rfl (.keep ..) rfl trivial h.buffer h.order rfl rfl rfl rfl
    next => cases hstep
  | run i =>
    obtain ⟨⟨p', m'⟩, hrun, rfl⟩ := Option.map_eq_some_iff.mp hstep
    obtain ⟨hslots, hitems⟩ := h.counted i
    obtain ⟨queued', hmoves⟩ := Phase.run_moves hrun (h.mutex i).mp (h.holds i) h.buffer h.order
      hslots hitems
    exact ⟨queued', h.move hmoves⟩

omit [Fintype ι] in
/-- An item is reported once by the producer that drew it. -/
theorem Phase.run_drawn (h : p.run i m = some (p', m')) :
    m'.out.filterMap (Line.producedBy i) ++ p'.drawn =
        m.out.filterMap (Line.producedBy i) ++ p.drawn ∧
      ∀ j ≠ i, m'.out.filterMap (Line.producedBy j) = m.out.filterMap (Line.producedBy j) := by
  cases p with
  | produceItem => cases h
  | waitEmpty x | waitFull | lockToProduce x | lockToConsume =>
    simp only [run] at h
    split at h
    next =>
      cases h
      exact ⟨rfl, fun _ _ => rfl⟩
    next => cases h
  | printProduced x n =>
    cases h
    refine ⟨by simp [drawn, Line.producedBy], fun j hji => ?_⟩
    simp [Line.producedBy, hji.symm]
  | printConsumed x n =>
    cases h
    exact ⟨by simp [drawn, Line.producedBy], fun j _ => by simp [Line.producedBy]⟩
  | _ =>
    cases h
    exact ⟨rfl, fun _ _ => rfl⟩

/-- What each producer has drawn. -/
def draw (drawn : ι → List ℤ) : Event ι → ι → List ℤ
  | .produce i x => Function.update drawn i (drawn i ++ [x])
  | .run _ => drawn

/-- Every item drawn is reported once by its producer, but for the one it is at. -/
def Drawn (s : State ι) (drawn : ι → List ℤ) : Prop :=
  ∀ i, drawn i = s.memory.out.filterMap (Line.producedBy i) ++ (s.phase i).drawn

omit [Fintype ι] in
theorem Drawn.step {drawn : ι → List ℤ} (h : Drawn s drawn) {e : Event ι}
    (hstep : (machine ι).step s e = some t) : Drawn t (draw drawn e) := by
  intro i
  cases e with
  | produce j x =>
    simp only [machine, ProducerConsumer.step] at hstep
    split at hstep
    next hj =>
      cases hstep
      rcases eq_or_ne i j with rfl | hij
      · rw [draw, Function.update_self, h i, hj, move_self]
        simp [State.move, Phase.drawn]
      · rw [draw, Function.update_of_ne hij, move_of_ne s hij, h i]
        rfl
    next => cases hstep
  | run j =>
    obtain ⟨⟨p', m'⟩, hrun, rfl⟩ := Option.map_eq_some_iff.mp hstep
    obtain ⟨hself, hother⟩ := Phase.run_drawn hrun
    rcases eq_or_ne i j with rfl | hij
    · rw [draw, h i, move_self]
      exact hself.symm
    · rw [draw, h i, move_of_ne s hij, ← hother i hij]
      rfl

/-- The mutex keeps the threads apart, the items leave the buffer in the order in which they came,
and the lines on the output say so. -/
structure Correct (s : State ι) (drawn : ι → List ℤ) : Prop where
  exclusive : ∀ i j, (s.phase i).locked = true → (s.phase j).locked = true → i = j
  fifo : s.memory.consumed <+: s.memory.produced
  bounded : s.memory.produced.length ≤ s.memory.consumed.length + BUFFER_SIZE
  printed_fifo :
    s.memory.out.filterMap Line.consumedItem <+: s.memory.out.filterMap Line.producedItem
  printed_bounded : (s.memory.out.filterMap Line.producedItem).length ≤
    (s.memory.out.filterMap Line.consumedItem).length + BUFFER_SIZE
  counts : ∀ line ∈ s.memory.out, line.Counts
  drawn : Drawn s drawn

omit [DecidableEq ι] in
/-- An item that is not yet printed is in the buffer, or its slot is not yet posted. -/
theorem Inv.held_le (h : Inv role s queued) :
    (s.held Phase.unprintedProduced).length ≤ queued.length ∧
      (s.held Phase.unprintedConsumed).length + queued.length ≤ BUFFER_SIZE := by
  have hslots := h.slots
  cases hm : s.memory.mutex with
  | none =>
    rw [held_of_eq_none hm, held_of_eq_none hm, List.length_nil]
    omega
  | some i =>
    obtain ⟨hslot, hitem⟩ := h.counted i
    have hproduced : (s.phase i).unprintedProduced.length ≤ (s.phase i).items := by
      cases s.phase i <;> simp [Phase.unprintedProduced, Phase.items]
    have hconsumed : (s.phase i).unprintedConsumed.length ≤ (s.phase i).slots := by
      cases s.phase i <;> simp [Phase.unprintedConsumed, Phase.slots]
    rw [held_of_eq_some hm, held_of_eq_some hm]
    omega

theorem Inv.correct (h : Inv role s queued) {drawn : ι → List ℤ} (hdrawn : Drawn s drawn) :
    Correct s drawn := by
  obtain ⟨hproduced, hconsumed⟩ := h.held_le
  have horder := h.order
  have hslots := h.slots
  rw [← h.printedProduced, ← h.printedConsumed] at horder
  have hlength := congrArg List.length horder
  simp only [List.length_append] at hlength
  refine ⟨fun i j hi hj => ?_, ⟨queued, h.order.symm⟩, ?_, ?_, by omega, h.counts, hdrawn⟩
  · exact Option.some.inj (((h.mutex i).mp hi).symm.trans ((h.mutex j).mp hj))
  · rw [h.order, List.length_append]
    omega
  · have hprefix : s.memory.out.filterMap Line.consumedItem <+:
        s.memory.out.filterMap Line.producedItem ++ s.held Phase.unprintedProduced :=
      ⟨s.held Phase.unprintedConsumed ++ queued, by rw [horder, List.append_assoc]⟩
    exact List.prefix_of_prefix_length_le hprefix (List.prefix_append _ _) (by omega)

omit [Fintype ι] in
theorem init_drawn (role : ι → Role) : Drawn (init role) fun _ => [] := by
  intro i
  cases hi : role i <;> simp [init, hi, Role.start, Phase.drawn]

theorem producers_consumers (role : ι → Role) {es : List (Event ι)}
    (h : (machine ι).Run (fun _ _ => True) (init role) es s) :
    Correct s (es.foldl draw fun _ => []) := by
  obtain ⟨⟨queued, hinv⟩, hdrawn⟩ := h.simulates (f := draw)
    (R := fun s drawn => (∃ queued, Inv role s queued) ∧ Drawn s drawn)
    (fun _ _ _ _ ⟨⟨_, hinv⟩, hdrawn⟩ _ hs => ⟨hinv.step hs, hdrawn.step hs⟩)
    ⟨⟨[], init_inv role⟩, init_drawn role⟩
  exact hinv.correct hdrawn

/-- Two items with one consumer, which has to wait for the mutex. -/
def twoItems : List (Event Bool) :=
  .produce false 7 :: List.replicate 8 (.run false) ++
    [.produce false 9, .run false, .run true] ++ List.replicate 7 (.run false) ++
    List.replicate 3 (.run true)

def twoRoles : Bool → Role
  | false => .producer
  | true => .consumer

theorem twoItems_isSome : ((machine Bool).exec (init twoRoles) twoItems).isSome = true := by
  decide +kernel

theorem producers_consumers_twoItems :
    let s := ((machine Bool).exec (init twoRoles) twoItems).get twoItems_isSome
    s.memory.produced.length = 2 ∧ s.memory.consumed.length = 1 ∧
      Correct s (twoItems.foldl draw fun _ => []) := by
  refine ⟨by decide +kernel, by decide +kernel, ?_⟩
  exact producers_consumers twoRoles
    (Machine.run_iff_exec.mpr (Option.some_get twoItems_isSome).symm)

omit [DecidableEq ι] [Fintype ι] in
/-- A thread with the mutex never waits. -/
theorem Phase.run_of_locked (hp : p.locked = true) (i : ι) (m : Memory ι) :
    (p.run i m).isSome = true := by
  cases p <;> first | rfl | cases hp

omit [DecidableEq ι] [Fintype ι] in
/-- A thread that cannot move while the mutex is free waits at its semaphore. -/
theorem Phase.waits (hrun : (p.run i m).isSome = false) (hm : m.mutex.isNone = true)
    (hp : p ≠ .produceItem) :
    p.slots = 0 ∧ p.items = 0 ∧ (p.role = .producer → m.empty = 0) ∧
      (p.role = .consumer → m.full = 0) := by
  cases p with
  | produceItem => exact absurd rfl hp
  | waitEmpty x | waitFull => simpa [run, slots, items, role] using hrun
  | lockToProduce x | lockToConsume => simp [run, hm] at hrun
  | _ => cases hrun

/-- Where no thread can move, the threads wait at the semaphores. -/
theorem Inv.waits (h : Inv role s queued) (hstuck : ∀ e, ((machine ι).step s e).isSome = false)
    (i : ι) :
    (s.phase i).slots = 0 ∧ (s.phase i).items = 0 ∧
      (role i = .producer → s.memory.empty = 0) ∧ (role i = .consumer → s.memory.full = 0) := by
  have hrun : ∀ j, ((s.phase j).run j s.memory).isSome = false := by
    intro j
    have := hstuck (.run j)
    simpa [machine, ProducerConsumer.step] using this
  have hmutex : s.memory.mutex.isNone = true := by
    cases hm : s.memory.mutex with
    | none => rfl
    | some j =>
      have := Phase.run_of_locked ((h.mutex j).mpr hm) j s.memory
      rw [hrun j] at this
      cases this
  have hproduce : s.phase i ≠ .produceItem := by
    intro hp
    have := hstuck (.produce i 0)
    simp [machine, ProducerConsumer.step, hp] at this
  rw [← h.role_eq i]
  exact Phase.waits (hrun i) hmutex hproduce

/-- With a producer and a consumer, some thread can always move. -/
theorem producers_consumers_move (role : ι → Role) {es : List (Event ι)}
    (h : (machine ι).Run (fun _ _ => True) (init role) es s)
    (hproducer : ∃ i, role i = .producer) (hconsumer : ∃ i, role i = .consumer) :
    ∃ e, ((machine ι).step s e).isSome = true := by
  obtain ⟨queued, hinv⟩ := h.invariant (I := fun s => ∃ queued, Inv role s queued)
    (fun _ _ _ ⟨_, hinv⟩ _ hs => hinv.step hs) ⟨[], init_inv role⟩
  by_contra hstuck
  simp only [not_exists, Bool.not_eq_true] at hstuck
  obtain ⟨i, hi⟩ := hproducer
  obtain ⟨j, hj⟩ := hconsumer
  have hempty := (hinv.waits hstuck i).2.2.1 hi
  have hfull := (hinv.waits hstuck j).2.2.2 hj
  have hslots := hinv.slots
  have hitems := hinv.items
  rw [Finset.sum_eq_zero fun k _ => (hinv.waits hstuck k).1] at hslots
  rw [Finset.sum_eq_zero fun k _ => (hinv.waits hstuck k).2.1] at hitems
  simp only [BUFFER_SIZE] at hslots
  omega

theorem producers_consumers_move_twoItems :
    let s := ((machine Bool).exec (init twoRoles) twoItems).get twoItems_isSome
    ∃ e, ((machine Bool).step s e).isSome = true :=
  producers_consumers_move twoRoles
    (Machine.run_iff_exec.mpr (Option.some_get twoItems_isSome).symm) ⟨false, rfl⟩ ⟨true, rfl⟩

end Steps

end Course.Os.ProducerConsumer
