import Course.Lib.Machine
import Mathlib.Logic.Function.Basic

/-! The monitor of the client: callers add tasks, one worker for each connection gets the
response of its first task, and the monitor reports it and starts the next worker. Sections
behind the mutex, waits and notifications are atomic. -/

open Course.Lib

namespace Course.Socket.Client

structure Task where
  serverFilePath : String
  localFilePath : String
  deriving DecidableEq

/-- `idle` is a thread that is not joinable; the others are running, before `notify_one` and
behind it. -/
inductive Worker
  | idle
  | running
  | notifying
  | returned
  deriving DecidableEq

/-- `completed` is what `mOnTaskCompleted` was called with. -/
structure Connection where
  tasks : List Task
  worker : Worker
  result : String
  completed : List (Task × String)

/-- The monitor is before `wait`, in it, or was notified and has not locked the mutex. -/
inductive Monitor
  | idle
  | waiting
  | notified
  deriving DecidableEq

/-- `ι` are the hosts. -/
structure State (ι : Type) where
  connections : ι → Connection
  monitor : Monitor

inductive Event (ι : Type)
  | request (host : ι) (task : Task)
  /-- The worker has its response, or an exception. -/
  | respond (host : ι) (text : String)
  | notify (host : ι)
  | wait
  | monitor

variable {ι : Type}

def init : State ι := ⟨fun _ => ⟨[], .idle, "", []⟩, .idle⟩

/-- `notify_one` does nothing if no one waits. -/
def Monitor.notifyOne : Monitor → Monitor
  | .waiting => .notified
  | monitor => monitor

/-- What the monitor does for one connection; `join` waits for the worker to return. -/
def Connection.monitor (connection : Connection) : Connection :=
  let connection :=
    if connection.worker ≠ .idle ∧ connection.result ≠ "" then
      { tasks := connection.tasks.tail
        worker := .idle
        result := ""
        completed := connection.completed ++
          connection.tasks.head?.toList.map (·, connection.result) }
    else connection
  if connection.worker = .idle ∧ connection.tasks ≠ [] then
    { connection with worker := .running }
  else connection

section Step

variable [DecidableEq ι]

def State.set (s : State ι) (host : ι) (connection : Connection) : State ι :=
  { s with connections := Function.update s.connections host connection }

def step (s : State ι) : Event ι → Option (State ι)
  | .request host task =>
    let connection := s.connections host
    some { s.set host { connection with tasks := connection.tasks ++ [task] } with
      monitor := s.monitor.notifyOne }
  | .respond host text =>
    let connection := s.connections host
    if connection.worker = .running then
      some (s.set host { connection with worker := .notifying, result := text })
    else none
  | .notify host =>
    let connection := s.connections host
    if connection.worker = .notifying then
      some { s.set host { connection with worker := .returned } with
        monitor := s.monitor.notifyOne }
    else none
  | .wait => if s.monitor = .idle then some { s with monitor := .waiting } else none
  | .monitor =>
    if s.monitor = .notified then
      some ⟨fun host => (s.connections host).monitor, .idle⟩
    else none

def client : Machine (State ι) (Event ι) := ⟨step⟩

end Step

/-! ### Lost notifications -/

/-- A response that was not reported, or tasks without a worker. -/
def Connection.Outstanding (connection : Connection) : Prop :=
  connection.worker = .returned ∨ connection.worker = .idle ∧ connection.tasks ≠ []

/-- The monitor waits for a notification that does not come. -/
structure Stuck (s : State ι) : Prop where
  waiting : s.monitor = .waiting
  /-- No worker is on its way to `notify_one`. -/
  silent : ∀ host, (s.connections host).worker = .idle ∨ (s.connections host).worker = .returned
  outstanding : ∃ host, (s.connections host).Outstanding

/-- The step loses no notification, and brings no empty response. -/
def Heard (s : State ι) : Event ι → Prop
  | .request .. => s.monitor ≠ .idle
  | .respond _ text => text ≠ ""
  | .notify _ => s.monitor ≠ .idle
  | .wait | .monitor => True

/-- A worker behind its response has a text to report. -/
def Connection.Answered (connection : Connection) : Prop :=
  connection.worker = .notifying ∨ connection.worker = .returned → connection.result ≠ ""

/-- Unless it was notified, the monitor has left nothing outstanding. -/
structure Inv (s : State ι) : Prop where
  settled : s.monitor ≠ .notified → ∀ host, ¬(s.connections host).Outstanding
  answered : ∀ host, (s.connections host).Answered

theorem init_inv : Inv (init : State ι) where
  settled _ _ h := by rcases h with h | ⟨-, h⟩ <;> simp [init] at h
  answered _ h := by rcases h with h | h <;> simp [init] at h

theorem notifyOne_eq {monitor : Monitor} (h : monitor ≠ .idle) :
    monitor.notifyOne = .notified := by
  cases monitor with
  | idle => exact absurd rfl h
  | waiting => rfl
  | notified => rfl

/-- Behind the monitor the worker is running, or there is nothing to do. -/
theorem monitor_worker {connection : Connection} (h : connection.Answered) :
    connection.monitor.worker = .running ∨
      connection.monitor.worker = .idle ∧ connection.monitor.tasks = [] := by
  rw [Connection.monitor]
  by_cases hreport : connection.worker ≠ .idle ∧ connection.result ≠ ""
  · rw [if_pos hreport]
    by_cases htasks : connection.tasks.tail = []
    · right
      simp [htasks]
    · left
      simp [htasks]
  · rw [if_neg hreport]
    cases hworker : connection.worker with
    | idle =>
      by_cases htasks : connection.tasks = []
      · right
        simp [htasks, hworker]
      · left
        simp [htasks]
    | running =>
      left
      simp [hworker]
    | notifying => exact absurd ⟨by simp [hworker], h (.inl hworker)⟩ hreport
    | returned => exact absurd ⟨by simp [hworker], h (.inr hworker)⟩ hreport

theorem not_outstanding_monitor {connection : Connection} (h : connection.Answered) :
    ¬connection.monitor.Outstanding := by
  rintro (hreturned | ⟨hidle, htasks⟩)
  · rcases monitor_worker h with hworker | ⟨hworker, -⟩ <;> simp [hreturned] at hworker
  · rcases monitor_worker h with hworker | ⟨-, htasks'⟩
    · simp [hidle] at hworker
    · exact htasks htasks'

theorem answered_monitor {connection : Connection} (h : connection.Answered) :
    connection.monitor.Answered := by
  rintro (hworker | hworker) <;>
    rcases monitor_worker h with hworker' | ⟨hworker', -⟩ <;> simp [hworker'] at hworker

variable [DecidableEq ι] {s s' : State ι} {e : Event ι}

theorem set_self {host : ι} {connection : Connection} :
    (s.set host connection).connections host = connection :=
  Function.update_self ..

theorem set_of_ne {host host' : ι} {connection : Connection} (h : host' ≠ host) :
    (s.set host connection).connections host' = s.connections host' :=
  Function.update_of_ne h ..

/-- One connection changes. -/
theorem Inv.set (h : Inv s) {host : ι} {connection : Connection} {monitor : Monitor}
    (hsettled : monitor ≠ .notified → s.monitor ≠ .notified ∧ ¬connection.Outstanding)
    (hanswered : connection.Answered) : Inv { s.set host connection with monitor } where
  settled hmonitor host' := by
    obtain ⟨hs, hconnection⟩ := hsettled hmonitor
    by_cases hhost : host' = host
    · subst hhost
      show ¬((s.set host' connection).connections host').Outstanding
      rw [set_self]
      exact hconnection
    · show ¬((s.set host connection).connections host').Outstanding
      rw [set_of_ne hhost]
      exact h.settled hs host'
  answered host' := by
    by_cases hhost : host' = host
    · subst hhost
      show ((s.set host' connection).connections host').Answered
      rw [set_self]
      exact hanswered
    · show ((s.set host connection).connections host').Answered
      rw [set_of_ne hhost]
      exact h.answered host'

theorem Inv.step (h : Inv s) (he : Heard s e) (hs : client.step s e = some s') : Inv s' := by
  cases e with
  | request host task =>
    obtain rfl := Option.some.inj hs
    apply h.set
    · rw [notifyOne_eq he]
      exact fun hne => absurd rfl hne
    · exact h.answered host
  | respond host text =>
    obtain ⟨hrunning, hs⟩ := Option.ite_none_right_eq_some.mp hs
    obtain rfl := Option.some.inj hs
    apply h.set
    · refine fun hne => ⟨hne, ?_⟩
      rintro (hworker | ⟨hworker, -⟩) <;> simp at hworker
    · exact fun _ => he
  | notify host =>
    obtain ⟨hnotifying, hs⟩ := Option.ite_none_right_eq_some.mp hs
    obtain rfl := Option.some.inj hs
    apply h.set
    · rw [notifyOne_eq he]
      exact fun hne => absurd rfl hne
    · exact fun _ => h.answered host (.inl hnotifying)
  | wait =>
    obtain ⟨hidle, hs⟩ := Option.ite_none_right_eq_some.mp hs
    obtain rfl := Option.some.inj hs
    exact ⟨fun _ => h.settled (by rw [hidle]; decide), h.answered⟩
  | monitor =>
    obtain ⟨-, hs⟩ := Option.ite_none_right_eq_some.mp hs
    obtain rfl := Option.some.inj hs
    exact ⟨fun _ host => not_outstanding_monitor (h.answered host),
      fun host => answered_monitor (h.answered host)⟩

theorem not_stuck {es : List (Event ι)} (h : client.Run Heard init es s) : ¬Stuck s := by
  intro hstuck
  have hinv : Inv s := h.invariant (fun _ _ _ => Inv.step) init_inv
  obtain ⟨host, houtstanding⟩ := hstuck.outstanding
  apply hinv.settled _ host houtstanding
  rw [hstuck.waiting]
  decide

/-- A request before the monitor waits for the first time. -/
theorem not_never_stuck : ¬∀ (es : List (Event Unit)) (s : State Unit),
    client.exec init es = some s → ¬Stuck s := by
  intro h
  refine h [.request () ⟨"a", "b"⟩, .wait] _ rfl ⟨rfl, fun _ => .inl rfl, (), .inr ⟨rfl, ?_⟩⟩
  exact List.cons_ne_nil _ _

/-- A request whose response is reported. -/
theorem not_stuck_served : ∃ s : State Unit, client.exec init
    [.wait, .request () ⟨"a", "b"⟩, .monitor, .wait, .respond () "Success", .notify (), .monitor,
      .wait] = some s ∧ ¬Stuck s := by
  have hsuccess : "Success" ≠ "" := by decide
  have hwaiting : ∀ m : Monitor, m = .waiting → m ≠ .idle := by
    rintro m rfl
    decide
  have hrun : ∃ s : State Unit, client.Run Heard init
      [.wait, .request () ⟨"a", "b"⟩, .monitor, .wait, .respond () "Success", .notify (), .monitor,
        .wait] s :=
    ⟨_, .cons trivial rfl (.cons (hwaiting _ rfl) rfl (.cons trivial rfl (.cons trivial rfl
      (.cons hsuccess rfl (.cons (hwaiting _ rfl) rfl (.cons trivial rfl (.cons trivial rfl
        .nil)))))))⟩
  obtain ⟨s, hrun⟩ := hrun
  exact ⟨s, Machine.run_iff_exec.mp (hrun.mono fun _ _ _ => trivial), not_stuck hrun⟩

end Course.Socket.Client
