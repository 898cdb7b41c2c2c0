import Course.Lib.Machine
import Course.Rdt.Receive

/-! One client and one server of the RDT Lab over a network that delivers any
frame that was ever sent, at any time and any number of times, or never. -/

open Course.Lib

namespace Course.Rdt

variable {κ : Type} {files : Files} {paths : Set Data} {started : Prop}

/-! ### The threads of the client -/

structure Client.Running (κ : Type) where
  client : Client κ
  pending : List (Channel.Callback κ)

inductive Client.Turn
  | dispatch (opened : Bool)
  | timer (handle : ℕ)
  | callback (i : ℕ) (lost : Bool)
  deriving DecidableEq

/-- The client sets no retry callback. -/
def Client.callback (c : Client κ) (lost : Bool) : Channel.Callback κ → Client κ
  | .retry _ => c
  | .timeout task => c.onTimeout task lost

def Client.Running.turn (c : Client.Running κ) : Client.Turn → Client.Running κ
  | .dispatch opened => { c with client := c.client.dispatch opened }
  | .timer handle =>
    let (mChannel, callback) := c.client.mChannel.timer handle
    { client := { c.client with mChannel }, pending := c.pending ++ callback.toList }
  | .callback i lost =>
    match c.pending[i]? with
    | none => c
    | some callback =>
      { client := c.client.callback lost callback, pending := c.pending.eraseIdx i }

/-- The turns in which `start` takes its message. -/
def Client.Running.Starts (c : Client.Running κ) : Client.Turn → Prop
  | .dispatch _ => c.client.Starts
  | .timer _ | .callback .. => False

theorem Client.Sound.turn {c : Client.Running κ} (h : c.client.Sound files paths started)
    {turn : Client.Turn} (hpath : ∀ opened, turn = .dispatch opened → c.client.OnPath) :
    (c.turn turn).client.Sound files paths (started ∨ c.Starts turn) := by
  cases turn with
  | dispatch opened => exact h.dispatch (hpath opened rfl) opened
  | timer handle =>
    rw [Running.Starts, or_false]
    exact ⟨h.queue, h.named, h.channel.timer handle, h.buffer, h.finished, h.single, h.unstarted,
      h.phase⟩
  | callback i lost =>
    rw [Running.Starts, or_false, Running.turn]
    split
    · exact h
    next callback _ =>
      cases callback with
      | retry task => exact h
      | timeout task => exact h.onTimeout task lost

variable [DecidableEq κ]

/-! ### The threads of the server -/

/-- A server, and the callbacks that its timers started and that have not yet
taken its lock, each with the task of the channel it is about. -/
structure Server.Running (κ : Type) where
  server : Server κ
  pending : List (ℕ × Channel.Callback κ)

/-- A turn of the worker thread, of a timer thread, or of a callback that has
taken the lock. -/
inductive Server.Turn (κ : Type)
  | worker (order : List κ) (now : ℤ)
  | timer (handle : ℕ)
  | callback (i : ℕ)
  deriving DecidableEq

def Server.callback (s : Server κ) : Channel.Callback κ → Server κ
  | .retry task => s.onRetry task
  | .timeout task => s.onTimeout task

/-- The worker visits the tasks in the order of the hash table, which is any. -/
def Server.Running.turn (s : Server.Running κ) : Server.Turn κ → Server.Running κ
  | .worker order now =>
    if order.Perm s.server.mTasks.keys then { s with server := s.server.worker order now } else s
  | .timer handle =>
    let (mChannel, callback) := s.server.mChannel.timer handle
    { server := { s.server with mChannel }
      pending := s.pending ++ (callback.map fun callback => (handle, callback)).toList }
  | .callback i =>
    match s.pending[i]? with
    | none => s
    | some (_, callback) =>
      { server := s.server.callback callback, pending := s.pending.eraseIdx i }

theorem Server.Sound.turn {s : Server.Running κ} (h : s.server.Sound files paths)
    (turn : Server.Turn κ) : (s.turn turn).server.Sound files paths := by
  cases turn with
  | worker order now =>
    rw [Running.turn]
    split
    · exact h.worker order now
    · exact h
  | timer handle => exact ⟨h.tasks, h.cache, h.channel.timer handle⟩
  | callback i =>
    rw [Running.turn]
    split
    · exact h
    next callback _ =>
      cases callback with
      | retry task => exact h.onRetry task
      | timeout task => exact h.onTimeout task

/-- What happens to a server: a message of any client, or a turn of a thread. -/
inductive Server.Event (κ : Type)
  | receive (client : κ) (data : Data) (now : ℤ)
  | turn (turn : Server.Turn κ)
  deriving DecidableEq

def Server.Running.step (files : Files) (s : Server.Running κ) :
    Server.Event κ → Option (Server.Running κ)
  | .receive client data now =>
    (s.server.onReceive files client data now).map fun server => { s with server }
  | .turn turn => some (s.turn turn)

def Server.machine (files : Files) : Machine (Server.Running κ) (Server.Event κ) :=
  ⟨Server.Running.step files⟩

/-! ### Both -/

/-- The bytes of a C string, which is what a caller can ask for. -/
def Path := { path : Data // 0 ∉ path }
  deriving DecidableEq

structure System (κ : Type) where
  server : Server.Running κ
  client : Client.Running κ

namespace System

inductive Event (κ : Type)
  | download (file : Path) (destination : Data)
  | toServer (i : ℕ) (now : ℤ)
  | toClient (i : ℕ) (lost : Bool)
  | server (turn : Server.Turn κ)
  | client (turn : Client.Turn)

def new (memory : Client.Uninitialized) (serverTimeout : ℤ) (serverRetries : ℕ)
    (clientTimeout : ℤ) (clientRetries : ℕ) (host : κ) : System κ where
  server := ⟨.new serverTimeout serverRetries, []⟩
  client := ⟨.new memory clientTimeout clientRetries host, []⟩

/-- `download` is called again when the call before has returned; a frame is
taken from all that were ever sent to the address it reaches.  An event that
cannot happen changes nothing, and `none` is a read outside the registry or
the buffer. -/
def step (files : Files) (host home : κ) (s : System κ) : Event κ → Option (System κ)
  | .download file destination =>
    if s.client.client.mState = .idle then
      some { s with
        client := { s.client with client := s.client.client.download host file.1 destination } }
    else some s
  | .toServer i now =>
    match s.client.client.mChannel.sent[i]? with
    | none => some s
    | some frame =>
      if frame.task.address = host then
        (s.server.server.onReceive files home frame.task.data now).map fun server =>
          { s with server := { s.server with server } }
      else some s
  | .toClient i lost =>
    match s.server.server.mChannel.sent[i]? with
    | none => some s
    | some frame =>
      if frame.task.address = home then
        (s.client.client.onReceive frame.task.data lost).map fun client =>
          { s with client := { s.client with client } }
      else some s
  | .server turn => some { s with server := s.server.turn turn }
  | .client turn => some { s with client := s.client.turn turn }

def machine (files : Files) (host home : κ) : Machine (System κ) (Event κ) := ⟨step files host home⟩

/-- The events in which the client's `start` takes its message. -/
def Starts (s : System κ) : Event κ → Prop
  | .client turn => s.client.Starts turn
  | .download .. | .toServer .. | .toClient .. | .server _ => False

/-- Both parties keep to the files, and to messages about `paths`. -/
structure Sound (files : Files) (paths : Set Data) (started : Prop) (s : System κ) : Prop where
  server : s.server.server.Sound files paths
  client : s.client.client.Sound files paths started

/-- Downloads are of `paths`, and the client takes messages about the file it
is downloading. -/
def Admissible (paths : Set Data) (s : System κ) : Event κ → Prop
  | .download file _ => file.1 ∈ paths
  | .client (.dispatch _) => s.client.client.OnPath
  | _ => True

theorem sound_new (memory : Client.Uninitialized) (serverTimeout : ℤ) (serverRetries : ℕ)
    (clientTimeout : ℤ) (clientRetries : ℕ) (host : κ) :
    (new memory serverTimeout serverRetries clientTimeout clientRetries host).Sound files paths
      False :=
  ⟨Server.sound_new _ _, Client.sound_new _ _ _ _⟩

theorem Sound.step {host home : κ} {s t : System κ} {e : Event κ} (h : s.Sound files paths started)
    (he : s.Admissible paths e) (hstep : s.step files host home e = some t) :
    t.Sound files paths (started ∨ s.Starts e) := by
  cases e with
  | download file destination =>
    rw [Starts, or_false]
    rw [System.step] at hstep
    split at hstep
    · cases hstep
      exact ⟨h.server, h.client.download host ⟨file.2, he⟩ destination⟩
    · cases hstep
      exact h
  | toServer i now =>
    rw [Starts, or_false]
    rw [System.step] at hstep
    split at hstep
    · cases hstep
      exact h
    next frame hframe =>
      split at hstep
      · obtain ⟨server, hserver, rfl⟩ := Option.map_eq_some_iff.mp hstep
        obtain ⟨m, hm, hpath, -⟩ :=
          (h.client.channel.sent frame (List.mem_of_getElem? hframe)).deserialize
        refine ⟨h.server.onReceive (fun m' hm' => ?_) hserver, h.client⟩
        rw [hm] at hm'
        cases hm'
        exact hpath
      · cases hstep
        exact h
  | toClient i lost =>
    rw [Starts, or_false]
    rw [System.step] at hstep
    split at hstep
    · cases hstep
      exact h
    next frame hframe =>
      split at hstep
      · obtain ⟨client, hclient, rfl⟩ := Option.map_eq_some_iff.mp hstep
        have hsaid := h.server.channel.sent frame (List.mem_of_getElem? hframe)
        exact ⟨h.server, h.client.onReceive hsaid hclient⟩
      · cases hstep
        exact h
  | server turn =>
    rw [Starts, or_false]
    cases hstep
    exact ⟨h.server.turn turn, h.client⟩
  | client turn =>
    cases hstep
    exact ⟨h.server, h.client.turn fun opened hturn => by subst hturn; exact he⟩

theorem Sound.run {host home : κ} {s t : System κ} {es : List (Event κ)}
    (hrun : Machine.Run (machine files host home) (Admissible paths) s es t)
    (h : s.Sound files paths started) :
    t.Sound files paths (started ∨ (machine files host home).Occurs Starts s es) :=
  hrun.invariant_occurs (I := fun started => Sound files paths started)
    (fun _ _ _ _ hs he hstep => hs.step he hstep) h

end System

end Course.Rdt
