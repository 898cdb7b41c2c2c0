import Mathlib.Algebra.GroupWithZero.Nat
import Mathlib.Algebra.Ring.Int.Defs
import Mathlib.Logic.Function.Basic

/-! The five schedulers of Project 4 over their linked list of tasks, and the
virtual CPU that keeps the statistics. A loop calls itself with `apply`, which
leaves no mark of the call's place in the term. -/

namespace Course.Os.Scheduler

def MIN_PRIORITY : ℤ := 1

def MAX_PRIORITY : ℤ := 10

def TIME_QUANTUM : ℤ := 5

structure Task where
  name : String
  tid : ℕ
  priority : ℤ
  burst : ℤ

/-- A node owns its task: no other node points to it. -/
structure Node where
  task : Task
  next : Option ℕ

/-- One call of `run`. -/
structure Slice where
  tid : ℕ
  start : ℤ
  length : ℤ

/-- The globals of `CPU.c`, with the calls of `run` so far. -/
structure Cpu where
  burstTime : ℕ → ℤ
  turnaroundTime : ℕ → ℤ
  waitingTime : ℕ → ℤ
  responseTime : ℕ → ℤ
  responseFlag : ℕ → ℤ
  time : ℤ
  slices : List Slice

/-- The globals of a scheduler. The node of a task has the address `tid`; nodes
are never freed. -/
structure State where
  head : Option ℕ
  nodes : ℕ → Option Node
  tid : ℕ
  taskCount : ℕ
  cpu : Cpu

/-! ### `CPU.c` -/

def Cpu.run (c : Cpu) (task : Task) (slice : ℤ) : Cpu :=
  let c :=
    if c.responseFlag task.tid = 0 then
      { c with
        burstTime := Function.update c.burstTime task.tid task.burst
        responseTime := Function.update c.responseTime task.tid c.time
        responseFlag := Function.update c.responseFlag task.tid 1 }
    else c
  let c := { c with time := c.time + slice, slices := c.slices ++ [⟨task.tid, c.time, slice⟩] }
  if task.burst - slice = 0 then
    { c with
      turnaroundTime := Function.update c.turnaroundTime task.tid c.time
      waitingTime := Function.update c.waitingTime task.tid (c.time - task.burst) }
  else c

def Cpu.initStats (c : Cpu) : Cpu :=
  { c with
    burstTime := fun _ => 0
    turnaroundTime := fun _ => 0
    waitingTime := fun _ => 0
    responseTime := fun _ => 0
    responseFlag := fun _ => 0 }

def State.run (s : State) (task : Task) (slice : ℤ) : State :=
  { s with cpu := s.cpu.run task slice }

/-! ### `list.c` -/

def State.node (s : State) (p : Option ℕ) : Option Node := p.bind s.nodes

def State.setNode (s : State) (p : Option ℕ) (f : Node → Node) : Option State := do
  let a ← p
  let node ← s.nodes a
  some { s with nodes := Function.update s.nodes a (some (f node)) }

def insert (s : State) (newTask : Task) : State :=
  { s with
    nodes := Function.update s.nodes newTask.tid (some ⟨newTask, s.head⟩)
    head := some newTask.tid }

/-- The `while` loop of `delete`; it is stuck where it walks off the list. -/
def deleteAfter (s : State) (task : Task) (prev temp : Option ℕ) : Option State := do
  let node ← s.node temp
  if task.name = node.task.name then s.setNode prev fun n => { n with next := node.next }
  else by apply deleteAfter; exacts [s, task, temp, node.next]
partial_fixpoint

def delete (s : State) (task : Task) : Option State := do
  let node ← s.node s.head
  if task.name = node.task.name then some { s with head := node.next }
  else deleteAfter s task s.head node.next

/-! ### What the five schedulers share -/

/-- The arguments of a call of `add`. -/
structure Request where
  name : String
  priority : ℤ
  burst : ℤ

def init : State where
  head := none
  nodes := fun _ => none
  tid := 0
  taskCount := 0
  cpu :=
    { burstTime := fun _ => 0
      turnaroundTime := fun _ => 0
      waitingTime := fun _ => 0
      responseTime := fun _ => 0
      responseFlag := fun _ => 0
      time := 0
      slices := [] }

def add (s : State) (r : Request) : State :=
  let task := ⟨r.name, s.tid, r.priority, r.burst⟩
  { insert { s with tid := s.tid + 1 } task with taskCount := s.taskCount + 1 }

/-- The loop at the start of `schedule`. -/
def reverse (s : State) (prev : Option ℕ) : Option ℕ → Option State
  | none => some { s with head := prev }
  | some current => do
    let node ← s.nodes current
    let s ← s.setNode current fun n => { n with next := prev }
    by apply reverse; exacts [s, some current, node.next]
partial_fixpoint

/-- One turn of the two round robin policies: the cursor `task` and what it is
moved to. -/
def serve (s : State) (task : Option ℕ) : Option (State × Option ℕ) := do
  let node ← s.node task
  if node.task.burst ≤ TIME_QUANTUM then
    let s ← delete (s.run node.task node.task.burst) node.task
    some (s, node.next)
  else
    let s ← (s.run node.task TIME_QUANTUM).setNode task fun n =>
      { n with task := { n.task with burst := n.task.burst - TIME_QUANTUM } }
    some (s, node.next)

/-! ### The loops of the five policies -/

/-- `schedule_fcfs.c`. -/
def fcfs (s : State) : Option State :=
  match s.head with
  | none => some s
  | some a => do
    let node ← s.nodes a
    let s ← delete (s.run node.task node.task.burst) node.task
    by apply fcfs; exact s
partial_fixpoint

/-- The inner loop of `schedule_sjf.c` and `schedule_priority.c`, `best` being
`shortest` in the one and `prior` in the other. -/
def pick (measure : Task → ℤ) (s : State) (best : Option ℕ) : Option ℕ → Option (Option ℕ)
  | none => some best
  | some task => do
    let node ← s.nodes task
    let bestNode ← s.node best
    by apply pick; exacts [measure, s,
      if measure node.task < measure bestNode.task then task else best, node.next]
partial_fixpoint

def select (measure : Task → ℤ) (s : State) : Option State :=
  match s.head with
  | none => some s
  | some a => do
    let best ← pick measure s a a
    let node ← s.node best
    let s ← delete (s.run node.task node.task.burst) node.task
    by apply select; exacts [measure, s]
partial_fixpoint

def sjf : State → Option State := select Task.burst

def priority : State → Option State := select Task.priority

/-- `schedule_rr.c`. -/
def rr (s : State) (task : Option ℕ) : Option State :=
  match s.head with
  | none => some s
  | some _ => do
    let (s, task) ← serve s task
    by apply rr; exacts [s, if task = none then s.head else task]
partial_fixpoint

/-- The `while` loop of `schedule_priority_rr.c` for one priority. -/
def level (priority : ℤ) (s : State) (exist : Bool) (task : Option ℕ) :
    Option (State × Option ℕ) :=
  match s.head with
  | none => some (s, task)
  | some _ => do
    let node ← s.node task
    let (s, task, exist) ←
      if node.task.priority = priority then do
        let (s, task) ← serve s task
        some (s, task, true)
      else some (s, node.next, exist)
    if task = none then
      if exist then by apply level; exacts [priority, s, false, s.head] else some (s, s.head)
    else by apply level; exacts [priority, s, exist, task]
partial_fixpoint

/-- The `for` loop of `schedule_priority_rr.c`. -/
def levels (priority : ℤ) (s : State) (task : Option ℕ) : Option State :=
  if priority ≤ MAX_PRIORITY then do
    let (s, task) ← level priority s false task
    by apply levels; exacts [priority + 1, s, task]
  else some s
partial_fixpoint

inductive Policy
  | fcfs
  | sjf
  | priority
  | rr
  | priorityRr
  deriving DecidableEq

/-- `schedule` up to the call of `print_stats`. -/
def schedule (policy : Policy) (s : State) : Option State := do
  let s ← reverse { s with cpu := s.cpu.initStats } none s.head
  match policy with
  | .fcfs => fcfs s
  | .sjf => sjf s
  | .priority => priority s
  | .rr => rr s s.head
  | .priorityRr => levels MIN_PRIORITY s s.head

/-- The program: the tasks are added in order, then scheduled. -/
def main (policy : Policy) (requests : List Request) : Option State :=
  schedule policy (requests.foldl add init)

end Course.Os.Scheduler
