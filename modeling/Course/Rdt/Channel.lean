import Course.Rdt.Checksum
import Mathlib.Logic.Function.Basic

/-! The RDT Lab channel: tasks that are sent again by their timer until they
are terminated or have used up their retries, and the frames on the wire.
`κ` is the type of addresses, an IP and a port. -/

namespace Course.Rdt

variable {κ : Type}

namespace Channel

structure Task (κ : Type) where
  data : Data
  address : κ
  deriving DecidableEq

/-- `shots` is how often the timer will still call `sender`. -/
structure TaskDetail (κ : Type) where
  task : Task κ
  timeout : ℤ
  tries : ℕ
  retries : ℕ
  shots : ℕ
  deriving DecidableEq

/-- A frame as it was put on the wire; `handle` names the task it came from. -/
structure Frame (κ : Type) where
  handle : ℕ
  tries : ℕ
  task : Task κ
  deriving DecidableEq

/-- A callback of the channel's owner, called after the lock is released. -/
inductive Callback (κ : Type)
  | retry (task : Task κ)
  | timeout (task : Task κ)
  deriving DecidableEq

def Callback.task : Callback κ → Task κ
  | .retry task => task
  | .timeout task => task

end Channel

/-- `sent` records every frame given to the socket. -/
structure Channel (κ : Type) where
  mHandle : ℕ
  mTasks : ℕ → Option (Channel.TaskDetail κ)
  sent : List (Channel.Frame κ)

namespace Channel

def new : Channel κ := ⟨0, fun _ => none, []⟩

def sender (c : Channel κ) (handle : ℕ) : Channel κ × Option (Callback κ) :=
  match c.mTasks handle with
  | none => (c, none)
  | some detail =>
    if detail.tries > detail.retries then
      (c, if detail.retries ≠ 0 then some (.timeout detail.task) else none)
    else
      ({ c with
          sent := c.sent ++ [⟨handle, detail.tries, detail.task⟩]
          mTasks := Function.update c.mTasks handle
            (some { detail with tries := detail.tries + 1 }) },
        if detail.tries ≠ 0 then some (.retry detail.task) else none)

/-- The locked part of `send`. -/
def insert (c : Channel κ) (task : Task κ) (timeout : ℤ) (retries : ℕ) : Channel κ :=
  { c with
    mTasks := Function.update c.mTasks c.mHandle (some ⟨task, timeout, 0, retries, retries + 1⟩)
    mHandle := c.mHandle + 1 }

def send (c : Channel κ) (task : Task κ) (timeout : ℤ := 1) (retries : ℕ := 0) :
    Channel κ × ℕ :=
  (((c.insert task timeout retries).sender c.mHandle).1, c.mHandle)

def terminate (c : Channel κ) (handle : ℕ) : Channel κ :=
  { c with mTasks := Function.update c.mTasks handle none }

/-- One turn of the timer of a task. -/
def timer (c : Channel κ) (handle : ℕ) : Channel κ × Option (Callback κ) :=
  match c.mTasks handle with
  | none => (c, none)
  | some detail =>
    if detail.shots = 0 then (c, none)
    else
      { c with
        mTasks := Function.update c.mTasks handle
          (some { detail with shots := detail.shots - 1 }) }.sender handle

/-- Every task, live or on the wire, was asked for with `P`. -/
structure Carries (P : ℕ → Task κ → Prop) (c : Channel κ) : Prop where
  tasks : ∀ h detail, c.mTasks h = some detail → P h detail.task
  sent : ∀ f ∈ c.sent, P f.handle f.task

variable {P Q : ℕ → Task κ → Prop} {c : Channel κ}

theorem carries_new : (new : Channel κ).Carries P where
  tasks := by simp [new]
  sent := by simp [new]

theorem Carries.mono (h : c.Carries P) (hPQ : ∀ h t, P h t → Q h t) : c.Carries Q where
  tasks h' detail hd := hPQ _ _ (h.tasks h' detail hd)
  sent f hf := hPQ _ _ (h.sent f hf)

/-- Storing another state of a task that satisfies `P`, or none. -/
theorem Carries.update (h : c.Carries P) (handle : ℕ) (detail : Option (TaskDetail κ))
    (hd : ∀ d, detail = some d → P handle d.task) :
    { c with mTasks := Function.update c.mTasks handle detail }.Carries P where
  tasks h' d hd' := by
    rcases eq_or_ne h' handle with rfl | hne
    · exact hd d (by simpa using hd')
    · exact h.tasks h' d (by simpa [Function.update_of_ne hne] using hd')
  sent := h.sent

theorem Carries.terminate (h : c.Carries P) (handle : ℕ) : (c.terminate handle).Carries P :=
  h.update handle none (by simp)

theorem Carries.sender (h : c.Carries P) (handle : ℕ) : (c.sender handle).1.Carries P := by
  unfold Channel.sender
  split
  · exact h
  next detail hdetail =>
    have hP := h.tasks handle detail hdetail
    split
    · exact h
    · have hupdate := h.update handle
        (some { detail with tries := detail.tries + 1 }) (by rintro d ⟨⟩; exact hP)
      refine ⟨hupdate.tasks, fun f hf => ?_⟩
      rcases List.mem_append.mp hf with hf | hf
      · exact h.sent f hf
      · obtain rfl := List.mem_singleton.mp hf
        exact hP

theorem Carries.send (h : c.Carries P) {task : Task κ} (hP : P c.mHandle task) (timeout : ℤ)
    (retries : ℕ) : (c.send task timeout retries).1.Carries P := by
  have hupdate := h.update c.mHandle
    (some ⟨task, timeout, 0, retries, retries + 1⟩) (by rintro d ⟨⟩; exact hP)
  have hinsert : (c.insert task timeout retries).Carries P := ⟨hupdate.tasks, hupdate.sent⟩
  exact hinsert.sender c.mHandle

theorem Carries.timer (h : c.Carries P) (handle : ℕ) : (c.timer handle).1.Carries P := by
  unfold Channel.timer
  split
  · exact h
  next detail hdetail =>
    split
    · exact h
    · exact (h.update handle _ (by rintro d ⟨⟩; exact h.tasks handle detail hdetail)).sender handle

/-- A call of `sender` puts a frame on the wire, or finds the task used up. -/
theorem sender_cases {c : Channel κ} {handle : ℕ} {detail : TaskDetail κ}
    (h : c.mTasks handle = some detail) :
    (detail.retries < detail.tries ∧
      c.sender handle = (c, if detail.retries ≠ 0 then some (.timeout detail.task) else none)) ∨
    (detail.tries ≤ detail.retries ∧
      c.sender handle =
        ({ c with
            sent := c.sent ++ [⟨handle, detail.tries, detail.task⟩]
            mTasks := Function.update c.mTasks handle
              (some { detail with tries := detail.tries + 1 }) },
          if detail.tries ≠ 0 then some (.retry detail.task) else none)) := by
  simp only [sender, h]
  split
  next htries => exact .inl ⟨htries, rfl⟩
  next htries => exact .inr ⟨Nat.le_of_not_lt htries, rfl⟩

/-- A turn of a timer puts a frame on the wire, or calls back, or does nothing. -/
theorem timer_cases (c : Channel κ) (handle : ℕ) :
    c.timer handle = (c, none) ∨
    ∃ detail, c.mTasks handle = some detail ∧ detail.shots ≠ 0 ∧
      ((detail.retries < detail.tries ∧
        c.timer handle =
          ({ c with
              mTasks := Function.update c.mTasks handle
                (some { detail with shots := detail.shots - 1 }) },
            if detail.retries ≠ 0 then some (.timeout detail.task) else none)) ∨
      (detail.tries ≤ detail.retries ∧
        c.timer handle =
          ({ c with
              sent := c.sent ++ [⟨handle, detail.tries, detail.task⟩]
              mTasks := Function.update c.mTasks handle
                (some { detail with shots := detail.shots - 1, tries := detail.tries + 1 }) },
            if detail.tries ≠ 0 then some (.retry detail.task) else none))) := by
  unfold timer
  split
  · exact .inl rfl
  next detail hdetail =>
    split
    · exact .inl rfl
    next hshots =>
      have hcases := sender_cases (Function.update_self handle
        (some { detail with shots := detail.shots - 1 }) c.mTasks)
        (c := { c with
          mTasks := Function.update c.mTasks handle (some { detail with shots := detail.shots - 1 }) })
      refine .inr ⟨detail, hdetail, hshots, hcases.imp_right fun h => ⟨h.1, ?_⟩⟩
      rw [h.2]
      simp only [Function.update_idem]

/-- Where `send` leaves the tasks. -/
theorem send_mTasks (c : Channel κ) (task : Task κ) (timeout : ℤ) (retries : ℕ) :
    (c.send task timeout retries).1.mTasks =
      Function.update c.mTasks c.mHandle (some ⟨task, timeout, 1, retries, retries + 1⟩) := by
  simp [send, insert, sender]

theorem send_sent (c : Channel κ) (task : Task κ) (timeout : ℤ) (retries : ℕ) :
    (c.send task timeout retries).1.sent = c.sent ++ [⟨c.mHandle, 0, task⟩] := by
  simp [send, insert, sender]

theorem sender_sent_prefix (c : Channel κ) (handle : ℕ) : c.sent <+: (c.sender handle).1.sent := by
  unfold sender
  split
  · exact List.prefix_rfl
  · split
    · exact List.prefix_rfl
    · exact List.prefix_append _ _

theorem timer_sent_prefix (c : Channel κ) (handle : ℕ) : c.sent <+: (c.timer handle).1.sent := by
  unfold timer
  split
  · exact List.prefix_rfl
  next detail _ =>
    split
    · exact List.prefix_rfl
    · exact sender_sent_prefix
        { c with
          mTasks := Function.update c.mTasks handle
            (some { detail with shots := detail.shots - 1 }) }
        handle

theorem terminate_mTasks (c : Channel κ) (handle : ℕ) :
    (c.terminate handle).mTasks = Function.update c.mTasks handle none := rfl

@[simp] theorem send_mHandle (c : Channel κ) (task : Task κ) (timeout : ℤ) (retries : ℕ) :
    (c.send task timeout retries).1.mHandle = c.mHandle + 1 := by
  simp [send, insert, sender]

@[simp] theorem sender_mHandle (c : Channel κ) (handle : ℕ) :
    (c.sender handle).1.mHandle = c.mHandle := by
  unfold sender
  split
  · rfl
  · split <;> rfl

@[simp] theorem timer_mHandle (c : Channel κ) (handle : ℕ) :
    (c.timer handle).1.mHandle = c.mHandle := by
  unfold timer
  split
  · rfl
  · split
    · rfl
    · exact sender_mHandle _ _

end Channel

end Course.Rdt
