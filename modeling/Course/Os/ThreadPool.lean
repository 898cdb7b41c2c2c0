import Mathlib.Algebra.BigOperators.Group.Finset.Piecewise
import Mathlib.Algebra.Order.BigOperators.Group.Finset
import Mathlib.Data.Fintype.BigOperators
import Course.Lib.CircularBuffer
import Course.Lib.Machine

/-! The thread pool of Project 5: threads that submit tasks and workers that take
them, over two semaphores and a circular buffer behind a mutex. -/

open Course.Lib

namespace Course.Os.ThreadPool

def QUEUE_SIZE : ℕ := 10

/-- The code's task has the first two fields; `call` is the number of the call
of `pool_submit` that brought it. -/
structure Task where
  function : ℕ
  data : ℕ
  call : ℕ
  deriving DecidableEq

structure Queue where
  tasks : ℕ → Task
  front : ℕ
  rear : ℕ

/-- What `enqueue` does behind the mutex. -/
def Queue.enqueue (q : Queue) (t : Task) : Queue where
  tasks := Function.update q.tasks q.rear t
  front := q.front
  rear := (q.rear + 1) % (QUEUE_SIZE + 1)

/-- What `dequeue` does behind the mutex. -/
def Queue.dequeue (q : Queue) : Task × Queue :=
  (q.tasks q.front, { q with front := (q.front + 1) % (QUEUE_SIZE + 1) })

/-- The test of `pool_submit`. -/
def Queue.Full (q : Queue) : Prop := (q.rear + 1) % (QUEUE_SIZE + 1) = q.front

instance (q : Queue) : Decidable q.Full :=
  inferInstanceAs (Decidable ((q.rear + 1) % (QUEUE_SIZE + 1) = q.front))

/-- Where a submitting thread stands: outside `pool_submit`, before the test for
a full queue, before `sem_wait(&vacancy)`, before the critical section of
`enqueue`, before `sem_post(&occupied)`. -/
inductive Submitter
  | idle
  | checking (t : Task)
  | waiting (t : Task)
  | writing (t : Task)
  | posting (t : Task)

/-- Where a worker stands: before `sem_wait(&occupied)`, before the critical
section of `dequeue`, before `sem_post(&vacancy)`, in `execute`. -/
inductive Worker
  | waiting
  | reading
  | posting (t : Task)
  | executing (t : Task)

/-- The globals and the threads; from `submitted` on, what has happened so far,
and which slots were written and not read since. -/
structure State (ι κ : Type) where
  taskQueue : Queue
  occupied : ℕ
  vacancy : ℕ
  submitter : ι → Submitter
  worker : κ → Worker
  submitted : List Task
  accepted : List Task
  enqueued : List Task
  dequeued : List (κ × Task)
  unread : ℕ → Bool

/-- A call of `pool_submit`, and the atomic steps of the threads. -/
inductive Event (ι κ : Type)
  | submit (i : ι) (function data : ℕ)
  | check (i : ι)
  | waitVacancy (i : ι)
  | enqueue (i : ι)
  | postOccupied (i : ι)
  | waitOccupied (w : κ)
  | dequeue (w : κ)
  | postVacancy (w : κ)
  | executed (w : κ)

variable {ι κ : Type}

/-- `pool_init`. -/
def init : State ι κ where
  taskQueue := { tasks := fun _ => ⟨0, 0, 0⟩, front := 0, rear := 0 }
  occupied := 0
  vacancy := QUEUE_SIZE
  submitter := fun _ => .idle
  worker := fun _ => .waiting
  submitted := []
  accepted := []
  enqueued := []
  dequeued := []
  unread := fun _ => false

section Steps

variable [DecidableEq ι] [DecidableEq κ]

def State.setSubmitter (s : State ι κ) (i : ι) (p : Submitter) : State ι κ :=
  { s with submitter := Function.update s.submitter i p }

def State.setWorker (s : State ι κ) (w : κ) (p : Worker) : State ι κ :=
  { s with worker := Function.update s.worker w p }

/-- A thread at a semaphore that is zero, or not where the event needs it, does
not take the step. -/
def step (s : State ι κ) : Event ι κ → Option (State ι κ)
  | .submit i function data =>
    match s.submitter i with
    | .idle =>
      let t := ⟨function, data, s.submitted.length⟩
      some { s.setSubmitter i (.checking t) with submitted := s.submitted ++ [t] }
    | _ => none
  | .check i =>
    match s.submitter i with
    | .checking t => some (s.setSubmitter i (if s.taskQueue.Full then .idle else .waiting t))
    | _ => none
  | .waitVacancy i =>
    match s.submitter i with
    | .waiting t =>
      if 0 < s.vacancy then some { s.setSubmitter i (.writing t) with vacancy := s.vacancy - 1 }
      else none
    | _ => none
  | .enqueue i =>
    match s.submitter i with
    | .writing t =>
      some { s.setSubmitter i (.posting t) with
        taskQueue := s.taskQueue.enqueue t
        enqueued := s.enqueued ++ [t]
        unread := Function.update s.unread s.taskQueue.rear true }
    | _ => none
  | .postOccupied i =>
    match s.submitter i with
    | .posting t =>
      -- `pool_submit` returns 1
      some { s.setSubmitter i .idle with
        occupied := s.occupied + 1
        accepted := s.accepted ++ [t] }
    | _ => none
  | .waitOccupied w =>
    match s.worker w with
    | .waiting =>
      if 0 < s.occupied then some { s.setWorker w .reading with occupied := s.occupied - 1 }
      else none
    | _ => none
  | .dequeue w =>
    match s.worker w with
    | .reading =>
      let (t, q) := s.taskQueue.dequeue
      some { s.setWorker w (.posting t) with
        taskQueue := q
        dequeued := s.dequeued ++ [(w, t)]
        unread := Function.update s.unread s.taskQueue.front false }
    | _ => none
  | .postVacancy w =>
    match s.worker w with
    | .posting t => some { s.setWorker w (.executing t) with vacancy := s.vacancy + 1 }
    | _ => none
  | .executed w =>
    match s.worker w with
    | .executing _ => some (s.setWorker w .waiting)
    | _ => none

def machine (ι κ : Type) [DecidableEq ι] [DecidableEq κ] : Machine (State ι κ) (Event ι κ) where
  step := step

end Steps

/-! ### The invariant -/

/-- Slots a thread has taken from `vacancy` and not yet filled. -/
def Submitter.reserved : Submitter → ℕ
  | .writing _ => 1
  | _ => 0

/-- Tasks a thread has written and not yet posted to `occupied`. -/
def Submitter.owed : Submitter → ℕ
  | .posting _ => 1
  | _ => 0

/-- Tasks a worker has taken from `occupied` and not yet read. -/
def Worker.reserved : Worker → ℕ
  | .reading => 1
  | _ => 0

/-- Slots a worker has emptied and not yet posted to `vacancy`. -/
def Worker.owed : Worker → ℕ
  | .posting _ => 1
  | _ => 0

/-- The task a thread is about to enqueue. -/
def Submitter.pending : Submitter → Option Task
  | .checking t => some t
  | .waiting t => some t
  | .writing t => some t
  | _ => none

/-- The buffer holds what was enqueued and not yet dequeued. -/
structure Stored (s : State ι κ) (queued : List Task) : Prop where
  queue : CircularBuffer.Holds (QUEUE_SIZE + 1) s.taskQueue.tasks s.taskQueue.front
    s.taskQueue.rear queued
  order : s.enqueued = s.dequeued.map Prod.snd ++ queued
  unread : ∀ k, s.unread k = true ↔
    CircularBuffer.InUse (QUEUE_SIZE + 1) s.taskQueue.front queued.length k

/-- The two semaphores with the threads that are between a wait and a post. -/
structure Counted [Fintype ι] [Fintype κ] (s : State ι κ) (n : ℕ) : Prop where
  vacancy : s.vacancy + ∑ i, (s.submitter i).reserved + n + ∑ w, (s.worker w).owed = QUEUE_SIZE
  occupied : s.occupied + ∑ w, (s.worker w).reserved + ∑ i, (s.submitter i).owed = n

/-- Each task is on its way in one thread at most, and in the queue once. -/
structure Owned (s : State ι κ) : Prop where
  call_lt : ∀ t ∈ s.submitted, t.call < s.submitted.length
  submitted_nodup : s.submitted.Nodup
  pending : ∀ i t, (s.submitter i).pending = some t → t ∈ s.submitted ∧ t ∉ s.enqueued
  distinct : ∀ i j t, (s.submitter i).pending = some t → (s.submitter j).pending = some t → i = j
  posting : ∀ i t, s.submitter i = .posting t → t ∈ s.enqueued
  enqueued : ∀ t ∈ s.enqueued, t ∈ s.submitted
  enqueued_nodup : s.enqueued.Nodup
  accepted : ∀ t ∈ s.accepted, t ∈ s.enqueued

def Inv [Fintype ι] [Fintype κ] (s : State ι κ) : Prop :=
  ∃ queued, Stored s queued ∧ Counted s queued.length ∧ Owned s

/-- Replacing one term of a sum. -/
theorem sum_update {σ ρ : Type} [Fintype σ] [DecidableEq σ] (f : σ → ρ) (g : ρ → ℕ) (i : σ)
    (x : ρ) : ∑ j, g (Function.update f i x j) + g (f i) = ∑ j, g (f j) + g x := by
  have hg : (fun j => g (Function.update f i x j)) = Function.update (fun j => g (f j)) i (g x) := by
    funext j
    exact Function.apply_update (fun _ => g) f i x j
  rw [hg, Finset.sum_update_of_mem (Finset.mem_univ i),
    ← Finset.add_sum_erase Finset.univ (fun j => g (f j)) (Finset.mem_univ i),
    Finset.sdiff_singleton_eq_erase]
  omega

theorem init_inv [Fintype ι] [Fintype κ] : Inv (init : State ι κ) := by
  refine ⟨[], ⟨?_, rfl, ?_⟩, ⟨?_, ?_⟩, ?_⟩
  · exact CircularBuffer.Holds.nil (Nat.succ_pos _) _
  · intro k
    simp [init, CircularBuffer.InUse]
  · simp [init, Submitter.reserved, Worker.owed]
  · simp [init, Submitter.owed, Worker.reserved]
  · constructor <;> simp [init, Submitter.pending]

variable {s t : State ι κ} {queued : List Task}

theorem Counted.length_le [Fintype ι] [Fintype κ] {n : ℕ} (h : Counted s n) : n ≤ QUEUE_SIZE := by
  have := h.vacancy
  omega

/-- A thread at the critical section of `enqueue` has a slot of its own. -/
theorem Counted.lt_of_writing [Fintype ι] [Fintype κ] {n : ℕ} (h : Counted s n) {i : ι} {x : Task}
    (hi : s.submitter i = .writing x) : n < QUEUE_SIZE := by
  have hle : (s.submitter i).reserved ≤ ∑ i, (s.submitter i).reserved :=
    Finset.single_le_sum (f := fun i => (s.submitter i).reserved) (fun _ _ => Nat.zero_le _)
      (Finset.mem_univ i)
  rw [hi, Submitter.reserved] at hle
  have := h.vacancy
  omega

/-- A worker at the critical section of `dequeue` has a task of its own. -/
theorem Counted.pos_of_reading [Fintype ι] [Fintype κ] {n : ℕ} (h : Counted s n) {w : κ}
    (hw : s.worker w = .reading) : 0 < n := by
  have hle : (s.worker w).reserved ≤ ∑ w, (s.worker w).reserved :=
    Finset.single_le_sum (f := fun w => (s.worker w).reserved) (fun _ _ => Nat.zero_le _)
      (Finset.mem_univ w)
  rw [hw, Worker.reserved] at hle
  have := h.occupied
  omega

section Steps

variable [DecidableEq ι]

@[simp]
theorem setSubmitter_self (s : State ι κ) (i : ι) (p : Submitter) :
    (s.setSubmitter i p).submitter i = p :=
  Function.update_self ..

@[simp]
theorem setSubmitter_of_ne (s : State ι κ) {i j : ι} (hji : j ≠ i) (p : Submitter) :
    (s.setSubmitter i p).submitter j = s.submitter j :=
  Function.update_of_ne hji ..

/-- The thread that moved, or one of the others. -/
theorem of_setSubmitter (P : Submitter → Prop) {i j : ι} {p : Submitter}
    (h : P ((s.setSubmitter i p).submitter j)) : j = i ∧ P p ∨ j ≠ i ∧ P (s.submitter j) := by
  by_cases hji : j = i
  · subst hji
    rw [setSubmitter_self] at h
    exact .inl ⟨rfl, h⟩
  · rw [setSubmitter_of_ne s hji] at h
    exact .inr ⟨hji, h⟩

/-- A thread that moves on without a new task. -/
theorem Owned.setSubmitter (h : Owned s) (i : ι) (p : Submitter)
    (hpending : ∀ x, p.pending = some x → (s.submitter i).pending = some x)
    (hposting : ∀ x, p = .posting x → x ∈ s.enqueued) : Owned (s.setSubmitter i p) := by
  have hold : ∀ j x, ((s.setSubmitter i p).submitter j).pending = some x →
      (s.submitter j).pending = some x := by
    intro j x hj
    rcases of_setSubmitter (fun q => q.pending = some x) hj with ⟨rfl, hx⟩ | ⟨-, hx⟩
    · exact hpending x hx
    · exact hx
  refine ⟨h.call_lt, h.submitted_nodup, ?_, ?_, ?_, h.enqueued, h.enqueued_nodup, h.accepted⟩
  · exact fun j x hj => h.pending j x (hold j x hj)
  · exact fun j k x hj hk => h.distinct j k x (hold j x hj) (hold k x hk)
  · intro j x hj
    rcases of_setSubmitter (fun q => q = .posting x) hj with ⟨-, hj⟩ | ⟨-, hj⟩
    · exact hposting x hj
    · exact h.posting j x hj

theorem Owned.submit (h : Owned s) {i : ι} (x : Task) (hcall : x.call = s.submitted.length) :
    Owned { s.setSubmitter i (.checking x) with submitted := s.submitted ++ [x] } := by
  have hx : x ∉ s.submitted := fun hmem => Nat.lt_irrefl _ (hcall ▸ h.call_lt x hmem)
  have hold : ∀ j y, ((s.setSubmitter i (.checking x)).submitter j).pending = some y →
      j = i ∧ y = x ∨ (s.submitter j).pending = some y := by
    intro j y hj
    rcases of_setSubmitter (fun q => q.pending = some y) hj with ⟨rfl, hy⟩ | ⟨-, hy⟩
    · exact .inl ⟨rfl, (Option.some.inj hy).symm⟩
    · exact .inr hy
  refine ⟨?_, ?_, ?_, ?_, ?_, ?_, h.enqueued_nodup, h.accepted⟩
  · intro y hy
    rw [List.length_append, List.length_singleton]
    rcases List.mem_append.mp hy with hy | hy
    · exact Nat.lt_succ_of_lt (h.call_lt y hy)
    · rw [List.mem_singleton.mp hy, hcall]
      exact Nat.lt_succ_self _
  · refine List.nodup_append.mpr ⟨h.submitted_nodup, List.nodup_singleton x, ?_⟩
    intro y hy z hz heq
    rw [List.mem_singleton] at hz
    exact hx (hz ▸ heq ▸ hy)
  · intro j y hj
    rcases hold j y hj with ⟨rfl, rfl⟩ | hy
    · exact ⟨by simp, fun hmem => hx (h.enqueued y hmem)⟩
    · exact (h.pending j y hy).imp_left fun hmem => List.mem_append.mpr (.inl hmem)
  · intro j k y hj hk
    rcases hold j y hj with ⟨rfl, rfl⟩ | hyj <;> rcases hold k y hk with ⟨rfl, hyx⟩ | hyk
    · rfl
    · exact absurd (h.pending k y hyk).1 hx
    · exact absurd (hyx ▸ (h.pending j y hyj).1) hx
    · exact h.distinct j k y hyj hyk
  · intro j y hj
    rcases of_setSubmitter (fun q => q = .posting y) hj with ⟨-, hj⟩ | ⟨-, hj⟩
    · cases hj
    · exact h.posting j y hj
  · exact fun y hy => List.mem_append.mpr (.inl (h.enqueued y hy))

theorem Owned.enqueue (h : Owned s) {i : ι} {x : Task} (hi : s.submitter i = .writing x)
    (q : Queue) (u : ℕ → Bool) :
    Owned { s.setSubmitter i (.posting x) with
      taskQueue := q, enqueued := s.enqueued ++ [x], unread := u } := by
  have hpi : (s.submitter i).pending = some x := by rw [hi, Submitter.pending]
  have hold : ∀ j y, ((s.setSubmitter i (.posting x)).submitter j).pending = some y →
      j ≠ i ∧ (s.submitter j).pending = some y := by
    intro j y hj
    rcases of_setSubmitter (fun q => q.pending = some y) hj with ⟨-, hj⟩ | hj
    · cases hj
    · exact hj
  refine ⟨h.call_lt, h.submitted_nodup, ?_, ?_, ?_, ?_, ?_, ?_⟩
  · intro j y hj
    obtain ⟨hji, hj⟩ := hold j y hj
    obtain ⟨hmem, hnew⟩ := h.pending j y hj
    refine ⟨hmem, fun hy => ?_⟩
    rcases List.mem_append.mp hy with hy | hy
    · exact hnew hy
    · rw [List.mem_singleton] at hy
      exact hji (h.distinct j i x (hy ▸ hj) hpi)
  · exact fun j k y hj hk => h.distinct j k y (hold j y hj).2 (hold k y hk).2
  · intro j y hj
    rcases of_setSubmitter (fun q => q = .posting y) hj with ⟨-, hj⟩ | ⟨-, hj⟩
    · cases hj
      simp
    · exact List.mem_append.mpr (.inl (h.posting j y hj))
  · intro y hy
    rcases List.mem_append.mp hy with hy | hy
    · exact h.enqueued y hy
    · rw [List.mem_singleton.mp hy]
      exact (h.pending i x hpi).1
  · refine List.nodup_append.mpr ⟨h.enqueued_nodup, List.nodup_singleton x, ?_⟩
    intro y hy z hz heq
    rw [List.mem_singleton] at hz
    exact (h.pending i x hpi).2 (hz ▸ heq ▸ hy)
  · exact fun y hy => List.mem_append.mpr (.inl (h.accepted y hy))

theorem Owned.accept (h : Owned s) {i : ι} {x : Task} (hi : s.submitter i = .posting x) (n : ℕ) :
    Owned { s.setSubmitter i .idle with occupied := n, accepted := s.accepted ++ [x] } := by
  have hidle := h.setSubmitter i .idle (by simp [Submitter.pending]) (by simp)
  refine ⟨hidle.call_lt, hidle.submitted_nodup, hidle.pending, hidle.distinct, hidle.posting,
    hidle.enqueued, hidle.enqueued_nodup, fun y hy => ?_⟩
  rcases List.mem_append.mp hy with hy | hy
  · exact h.accepted y hy
  · rw [List.mem_singleton.mp hy]
    exact h.posting i x hi

theorem Stored.enqueue (h : Stored s queued) (hlt : queued.length < QUEUE_SIZE) (i : ι) (x : Task) :
    Stored { s.setSubmitter i (.posting x) with
      taskQueue := s.taskQueue.enqueue x
      enqueued := s.enqueued ++ [x]
      unread := Function.update s.unread s.taskQueue.rear true } (queued ++ [x]) := by
  have hlt' : queued.length < QUEUE_SIZE + 1 := Nat.lt_succ_of_lt hlt
  refine ⟨h.queue.push hlt' x, ?_, fun k => ?_⟩
  · rw [h.order, List.append_assoc, State.setSubmitter]
  · rw [List.length_append, List.length_singleton, Queue.enqueue, h.queue.inUse_push, ← h.unread]
    by_cases hk : k = s.taskQueue.rear <;> simp [hk]

omit [DecidableEq ι] in
theorem Stored.dequeue [DecidableEq κ] {x : Task} (h : Stored s (x :: queued))
    (hle : queued.length + 1 ≤ QUEUE_SIZE) (w : κ) :
    (s.taskQueue.dequeue).1 = x ∧
      Stored { s.setWorker w (.posting x) with
        taskQueue := s.taskQueue.dequeue.2
        dequeued := s.dequeued ++ [(w, x)]
        unread := Function.update s.unread s.taskQueue.front false } queued := by
  obtain ⟨hx, hpop⟩ := h.queue.pop
  refine ⟨hx, hpop, ?_, fun k => ?_⟩
  · rw [State.setWorker, h.order, List.map_append, List.append_assoc]
    rfl
  · have hunread := h.unread k
    rw [List.length_cons] at hunread
    rw [Queue.dequeue, h.queue.inUse_pop (Nat.le_succ_of_le hle), ← hunread]
    by_cases hk : k = s.taskQueue.front <;> simp [hk]

omit [DecidableEq ι] in
theorem Stored.congr (h : Stored s queued) (hq : t.taskQueue = s.taskQueue)
    (he : t.enqueued = s.enqueued) (hd : t.dequeued = s.dequeued) (hu : t.unread = s.unread) :
    Stored t queued :=
  ⟨hq ▸ h.queue, he ▸ hd ▸ h.order, hu ▸ hq ▸ h.unread⟩

omit [DecidableEq ι] in
theorem Owned.congr (h : Owned s) (hp : t.submitter = s.submitter)
    (hs : t.submitted = s.submitted) (ha : t.accepted = s.accepted)
    (he : t.enqueued = s.enqueued) : Owned t :=
  ⟨hs ▸ h.call_lt, hs ▸ h.submitted_nodup, hp ▸ hs ▸ he ▸ h.pending, hp ▸ h.distinct,
    hp ▸ he ▸ h.posting, he ▸ hs ▸ h.enqueued, he ▸ h.enqueued_nodup, ha ▸ he ▸ h.accepted⟩

end Steps

section Runs

variable [Fintype ι] [Fintype κ] [DecidableEq ι] [DecidableEq κ] {n n' : ℕ}

omit [DecidableEq κ] in
/-- One thread's share of the two counts changes. -/
theorem Counted.submitter (h : Counted s n) {i : ι} {p : Submitter}
    (hp : t.submitter = Function.update s.submitter i p) (hw : t.worker = s.worker)
    (hv : t.vacancy + p.reserved + n' = s.vacancy + (s.submitter i).reserved + n)
    (ho : t.occupied + p.owed + n = s.occupied + (s.submitter i).owed + n') : Counted t n' := by
  have hreserved := sum_update s.submitter Submitter.reserved i p
  have howed := sum_update s.submitter Submitter.owed i p
  obtain ⟨hvacancy, hoccupied⟩ := h
  constructor <;> rw [hp, hw] <;> omega

omit [DecidableEq ι] in
/-- One worker's share of the two counts changes. -/
theorem Counted.worker (h : Counted s n) {w : κ} {p : Worker}
    (hp : t.submitter = s.submitter) (hw : t.worker = Function.update s.worker w p)
    (hv : t.vacancy + p.owed + n' = s.vacancy + (s.worker w).owed + n)
    (ho : t.occupied + p.reserved + n = s.occupied + (s.worker w).reserved + n') :
    Counted t n' := by
  have hreserved := sum_update s.worker Worker.reserved w p
  have howed := sum_update s.worker Worker.owed w p
  obtain ⟨hvacancy, hoccupied⟩ := h
  constructor <;> rw [hp, hw] <;> omega

theorem Inv.step (h : Inv s) (e : Event ι κ) (hs : ThreadPool.step s e = some t) : Inv t := by
  obtain ⟨queued, hstored, hcounted, howned⟩ := h
  cases e with
  | submit i function data =>
    simp only [ThreadPool.step] at hs
    split at hs
    case h_2 => cases hs
    next hi =>
      cases hs
      refine ⟨queued, hstored.congr rfl rfl rfl rfl, ?_, howned.submit _ rfl⟩
      exact hcounted.submitter (i := i) rfl rfl (by simp [State.setSubmitter, hi, Submitter.reserved])
        (by simp [State.setSubmitter, hi, Submitter.owed])
  | check i =>
    simp only [ThreadPool.step] at hs
    split at hs
    case h_2 => cases hs
    next x hi =>
      cases hs
      refine ⟨queued, hstored.congr rfl rfl rfl rfl, ?_, ?_⟩
      · refine hcounted.submitter rfl rfl ?_ ?_ <;> split <;>
          simp [State.setSubmitter, hi, Submitter.reserved, Submitter.owed]
      · apply howned.setSubmitter <;> split <;> simp [hi, Submitter.pending]
  | waitVacancy i =>
    simp only [ThreadPool.step] at hs
    split at hs
    case h_2 => cases hs
    next x hi =>
      split at hs
      next hpos =>
        cases hs
        refine ⟨queued, hstored.congr rfl rfl rfl rfl, ?_, ?_⟩
        · refine hcounted.submitter (i := i) rfl rfl ?_ ?_
          · simp only [hi, Submitter.reserved]
            omega
          · simp [State.setSubmitter, hi, Submitter.owed]
        · refine (howned.setSubmitter i (.writing x) ?_ ?_).congr rfl rfl rfl rfl
          · simp [hi, Submitter.pending]
          · simp
      next => cases hs
  | enqueue i =>
    simp only [ThreadPool.step] at hs
    split at hs
    case h_2 => cases hs
    next x hi =>
      cases hs
      have hlt := hcounted.lt_of_writing hi
      refine ⟨queued ++ [x], hstored.enqueue hlt i x, ?_, howned.enqueue hi _ _⟩
      refine hcounted.submitter rfl rfl ?_ ?_ <;>
        simp [State.setSubmitter, hi, Submitter.reserved, Submitter.owed] <;> omega
  | postOccupied i =>
    simp only [ThreadPool.step] at hs
    split at hs
    case h_2 => cases hs
    next x hi =>
      cases hs
      refine ⟨queued, hstored.congr rfl rfl rfl rfl, ?_, howned.accept hi _⟩
      refine hcounted.submitter rfl rfl ?_ ?_ <;>
        simp [State.setSubmitter, hi, Submitter.reserved, Submitter.owed]
  | waitOccupied w =>
    simp only [ThreadPool.step] at hs
    split at hs
    case h_2 => cases hs
    next hw =>
      split at hs
      next hpos =>
        cases hs
        refine ⟨queued, hstored.congr rfl rfl rfl rfl, ?_, howned.congr rfl rfl rfl rfl⟩
        refine hcounted.worker (w := w) rfl rfl ?_ ?_
        · simp [State.setWorker, hw, Worker.owed]
        · simp only [hw, Worker.reserved]
          omega
      next => cases hs
  | dequeue w =>
    simp only [ThreadPool.step] at hs
    split at hs
    case h_2 => cases hs
    next hw =>
      cases hs
      have hpos := hcounted.pos_of_reading hw
      have hle := hcounted.length_le
      cases queued with
      | nil => cases hpos
      | cons x queued =>
        obtain ⟨hx, hstored⟩ := hstored.dequeue hle w
        rw [hx]
        refine ⟨queued, hstored, ?_, howned.congr rfl rfl rfl rfl⟩
        refine hcounted.worker rfl rfl ?_ ?_ <;>
          simp [State.setWorker, hw, Worker.reserved, Worker.owed] <;> omega
  | postVacancy w =>
    simp only [ThreadPool.step] at hs
    split at hs
    case h_2 => cases hs
    next x hw =>
      cases hs
      refine ⟨queued, hstored.congr rfl rfl rfl rfl, ?_, howned.congr rfl rfl rfl rfl⟩
      refine hcounted.worker rfl rfl ?_ ?_ <;>
        simp [State.setWorker, hw, Worker.reserved, Worker.owed]
  | executed w =>
    simp only [ThreadPool.step] at hs
    split at hs
    case h_2 => cases hs
    next x hw =>
      cases hs
      refine ⟨queued, hstored.congr rfl rfl rfl rfl, ?_, howned.congr rfl rfl rfl rfl⟩
      refine hcounted.worker rfl rfl ?_ ?_ <;>
        simp [State.setWorker, hw, Worker.reserved, Worker.owed]

theorem exec_inv {es : List (Event ι κ)} (h : (machine ι κ).exec init es = some s) : Inv s :=
  (Machine.run_iff_exec.mpr h).invariant (fun _ e _ hs _ => hs.step e) init_inv

/-- In every order of steps: the queue keeps to its capacity, tasks leave it in
the order in which they entered it, each is dequeued once at most and was
submitted, a write never meets an unread slot and a read always does, and an
empty queue means that every accepted task has been dequeued. -/
theorem threadPool_exec {es : List (Event ι κ)} (h : (machine ι κ).exec init es = some s) :
    s.enqueued.length ≤ s.dequeued.length + QUEUE_SIZE ∧
      s.dequeued.map Prod.snd <+: s.enqueued ∧
      (s.dequeued.map Prod.snd).Nodup ∧
      (∀ x ∈ s.dequeued, x.2 ∈ s.submitted) ∧
      (∀ x ∈ s.accepted, x ∈ s.enqueued) ∧
      (∀ i x, s.submitter i = .writing x → s.unread s.taskQueue.rear = false) ∧
      (∀ w, s.worker w = .reading → s.unread s.taskQueue.front = true) ∧
      (s.taskQueue.front = s.taskQueue.rear →
        ∀ x ∈ s.accepted, (s.dequeued.map Prod.snd).count x = 1) := by
  obtain ⟨queued, hstored, hcounted, howned⟩ := exec_inv h
  have hle := hcounted.length_le
  have horder := hstored.order
  have hfifo : s.dequeued.map Prod.snd <+: s.enqueued := ⟨queued, horder.symm⟩
  have hnodup := howned.enqueued_nodup.sublist hfifo.sublist
  refine ⟨?_, hfifo, hnodup, ?_, howned.accepted, ?_, ?_, ?_⟩
  · rw [horder, List.length_append, List.length_map]
    exact Nat.add_le_add_left hle _
  · exact fun x hx => howned.enqueued x.2 (hfifo.subset (List.mem_map_of_mem hx))
  · intro i x hi
    have hlt := Nat.lt_succ_of_lt (hcounted.lt_of_writing hi)
    rw [← Bool.not_eq_true, hstored.unread]
    exact hstored.queue.rear_not_inUse hlt
  · intro w hw
    rw [hstored.unread]
    exact ⟨0, hcounted.pos_of_reading hw, (Nat.mod_eq_of_lt hstored.queue.front_lt).symm⟩
  · intro hempty x hx
    have hnil := (hstored.queue.eq_nil_iff (Nat.lt_succ_of_le hle)).mp hempty
    rw [hnil, List.append_nil] at horder
    exact List.count_eq_one_of_mem hnodup (horder ▸ howned.accepted x hx)

end Runs

/-- Two threads and two workers; the second task is posted before the first. -/
def interleaving : List (Event (Fin 2) (Fin 2)) :=
  [.submit 0 1 2, .submit 1 3 4, .check 1, .check 0, .waitVacancy 0, .waitVacancy 1, .enqueue 0,
    .enqueue 1, .postOccupied 1, .waitOccupied 1, .dequeue 1, .postOccupied 0, .waitOccupied 0,
    .dequeue 0, .postVacancy 0]

theorem interleaving_isSome : ((machine (Fin 2) (Fin 2)).exec init interleaving).isSome = true := by
  decide +kernel

/-- Both tasks leave the queue, in order and once each. -/
theorem threadPool_exec_interleaving :
    let s := ((machine (Fin 2) (Fin 2)).exec init interleaving).get interleaving_isSome
    s.dequeued.length = 2 ∧ s.accepted.length = 2 ∧ s.dequeued.map Prod.snd <+: s.enqueued ∧
      (s.dequeued.map Prod.snd).Nodup ∧
      ∀ x ∈ s.accepted, (s.dequeued.map Prod.snd).count x = 1 := by
  intro s
  obtain ⟨-, hfifo, hnodup, -, -, -, -, hempty⟩ :=
    threadPool_exec (Option.some_get interleaving_isSome).symm
  exact ⟨by decide +kernel, by decide +kernel, hfifo, hnodup, hempty (by decide +kernel)⟩

end Course.Os.ThreadPool
