import Course.Rdt.Channel
import Mathlib.Data.List.AList

/-! The RDT Lab server between `start` and `stop`.  Its handlers and the pass
of its worker run under one lock, so each is one step.  `κ` stands for the
client addresses. -/

namespace Course.Rdt

variable {κ : Type} [DecidableEq κ]

/-- The regular files that paths name. -/
structure Files where
  content : Data → Option Data
  size_lt : ∀ path data, content path = some data → data.length < 2 ^ 63

/-- The text as it is carried in a message. -/
def text (s : String) : Data := s.toUTF8.toList

namespace Server

structure Packet where
  handle : ℕ
  departure : ℤ
  deriving DecidableEq

structure Task where
  path : Data
  size : ℕ
  file : Ifstream
  checksum : MD5
  packets : AList fun _ : ℕ => Packet
  window : ℕ
  average : ℤ
  variance : ℤ
  timeout : ℤ

/-- The constructor of `Task`. -/
def Task.new (path : Data) (size : ℕ) (file : Ifstream) (window : ℕ) (timeout : ℤ) : Task where
  path := path
  size := size
  file := file
  checksum := .new
  packets := ∅
  window := window
  average := timeout
  variance := 0
  timeout := timeout

/-- The callbacks of the server, with the text of an error in its docstring. -/
inductive Output (κ : Type)
  | task (client : κ) (path : Data)
  | finish (client : κ) (path : Data)
  /-- "Error when processing task for {client} - {what}" -/
  | processing (client : κ) (what : String)
  /-- "Timeout on {client} with maximum retries, connection terminated" -/
  | timeout (client : κ)
  /-- "Error when receiving message from {client}" -/
  | receiving (client : κ)
  deriving DecidableEq

def sBlockSize : ℕ := 1024

def sMaxWindow : ℕ := 32

def sSlowStart : ℕ := 16

end Server

structure Server (κ : Type) where
  mTimeout : ℤ
  mRetries : ℕ
  mChannel : Channel κ
  mTasks : AList fun _ : κ => Server.Task
  mMD5Cache : Data → Option Data
  log : List (Server.Output κ)

namespace Server

def new (timeout : ℤ) (retries : ℕ) : Server κ where
  mTimeout := timeout
  mRetries := retries
  mChannel := .new
  mTasks := ∅
  mMD5Cache := fun _ => none
  log := []

def report (s : Server κ) (output : Output κ) : Server κ := { s with log := s.log ++ [output] }

/-- A reply, with the channel's defaults. -/
def reply (s : Server κ) (client : κ) (m : Protocol) : Server κ :=
  { s with mChannel := (s.mChannel.send ⟨m.serialize, client⟩ 1 0).1 }

/-- `insert` of an `unordered_map`: an entry that is there stays. -/
def insertDigest (s : Server κ) (path digest : Data) : Server κ :=
  { s with
    mMD5Cache := Function.update s.mMD5Cache path (some ((s.mMD5Cache path).getD digest)) }

def terminate (s : Server κ) (client : κ) : Server κ :=
  match s.mTasks.lookup client with
  | none => s
  | some task =>
    { s with
      mChannel := task.packets.entries.foldl (fun c p => c.terminate p.2.handle) s.mChannel
      mTasks := s.mTasks.erase client }

/-! Ending a task takes it and its packets' timers away, and nothing else. -/

@[simp] theorem terminate_sent (s : Server κ) (client : κ) :
    (s.terminate client).mChannel.sent = s.mChannel.sent := by
  unfold terminate
  split
  · rfl
  next task _ =>
    change (task.packets.entries.foldl _ s.mChannel).sent = _
    generalize task.packets.entries = entries
    generalize hc : s.mChannel = c
    clear hc
    induction entries generalizing c with
    | nil => rfl
    | cons p entries ih => exact ih _

@[simp] theorem terminate_mMD5Cache (s : Server κ) (client : κ) :
    (s.terminate client).mMD5Cache = s.mMD5Cache := by
  unfold terminate
  split <;> rfl

@[simp] theorem terminate_log (s : Server κ) (client : κ) : (s.terminate client).log = s.log := by
  unfold terminate
  split <;> rfl

theorem lookup_terminate (s : Server κ) (client : κ) :
    (s.terminate client).mTasks.lookup client = none := by
  unfold terminate
  split
  · assumption
  · exact AList.lookup_erase client s.mTasks

theorem lookup_terminate_ne (s : Server κ) {client client' : κ} (h : client' ≠ client) :
    (s.terminate client).mTasks.lookup client' = s.mTasks.lookup client' := by
  unfold terminate
  split
  · rfl
  · exact AList.lookup_erase_ne h

theorem lookup_of_terminate {s : Server κ} {client client' : κ} {t : Task}
    (h : (s.terminate client).mTasks.lookup client' = some t) :
    s.mTasks.lookup client' = some t := by
  rcases eq_or_ne client' client with rfl | hne
  · rw [lookup_terminate] at h
    cases h
  · rwa [lookup_terminate_ne s hne] at h

/-! ### Worker -/

def isEnd (file : Ifstream) (size : ℕ) : Bool := file.eof || file.position == size

/-- The turns of the loop of `work` while the window and the file have room;
the task and the channel as they are when it ends or throws. -/
def fill (retries : ℕ) (client : κ) (now : ℤ) :
    ℕ → Channel κ → Task → Channel κ × Task × Option ChecksumError
  | 0, channel, task => (channel, task, none)
  | n + 1, channel, task =>
    if task.packets.entries.length < task.window ∧ ¬isEnd task.file task.size then
      let begin' := task.file.position
      let end' := min (begin' + sBlockSize) task.size
      let (bytes, file) := task.file.read (end' - begin')
      -- the vector is zero where the read came short
      let data := bytes ++ List.replicate (end' - begin' - bytes.length) 0
      match task.checksum.update data with
      | .error e => (channel, { task with file }, some e)
      | .ok checksum =>
        let block := begin' / sBlockSize
        let protocol := Protocol.data task.path (.ofNat block) data
        let (channel, handle) := channel.send ⟨protocol.serialize, client⟩ task.timeout retries
        let packets :=
          if block ∈ task.packets then task.packets else task.packets.insert block ⟨handle, now⟩
        fill retries client now n channel { task with file, checksum, packets }
    else (channel, task, none)

/-- The lambda `work`: whether the task is complete. -/
def work (s : Server κ) (client : κ) (task : Task) (now : ℤ) :
    Server κ × Except ChecksumError Bool :=
  if task.packets.entries.length ≥ task.window then (s, .ok false)
  else
    let (mChannel, task, thrown) := fill s.mRetries client now (task.size + 1) s.mChannel task
    let store (task : Task) : Server κ :=
      { s with mChannel, mTasks := s.mTasks.insert client task }
    match thrown with
    | some e => (store task, .error e)
    | none =>
      if isEnd task.file task.size then
        let task := { task with checksum := task.checksum.finalize }
        match task.checksum.digest with
        | .error e => (store task, .error e)
        | .ok digest =>
          ((store task).insertDigest task.path digest, .ok task.packets.entries.isEmpty)
      else (store task, .ok false)

/-- One turn of the loop over `mTasks`, with the clients that are complete. -/
def visit (now : ℤ) (s : Server κ × List κ) (client : κ) : Server κ × List κ :=
  match s.1.mTasks.lookup client with
  | none => s
  | some task =>
    match s.1.work client task now with
    | (s', .ok true) => (s'.report (.finish client task.path), s.2 ++ [client])
    | (s', .ok false) => (s', s.2)
    | (s', .error e) => (s'.report (.processing client e.message), s.2 ++ [client])

/-- One pass of `worker` over `mTasks`, in the order of the map. -/
def worker (s : Server κ) (order : List κ) (now : ℤ) : Server κ :=
  let (s, complete) := order.foldl (visit now) (s, [])
  complete.foldl terminate s

/-- What a visit and the end of a task keep, a pass of the worker keeps. -/
theorem worker_rule {K : Server κ → Prop} {order : List κ} {now : ℤ}
    (hvisit : ∀ s complete client, K s → K (visit now (s, complete) client).1)
    (hterminate : ∀ s client, K s → K (s.terminate client)) {s : Server κ} (h : K s) :
    K (s.worker order now) := by
  have hfold : ∀ (order : List κ) (p : Server κ × List κ), K p.1 →
      K (order.foldl (visit now) p).1 := by
    intro order
    induction order with
    | nil => exact fun _ hp => hp
    | cons client order ih => exact fun p hp => ih _ (hvisit p.1 p.2 client hp)
  have hend : ∀ (complete : List κ) (s : Server κ), K s → K (complete.foldl terminate s) := by
    intro complete
    induction complete with
    | nil => exact fun _ hs => hs
    | cons client complete ih => exact fun s hs => ih _ (hterminate s client hs)
  exact hend _ _ (hfold order (s, []) h)

/-! ### Callbacks of the channel -/

def onRetry (s : Server κ) (task : Channel.Task κ) : Server κ :=
  match s.mTasks.lookup task.address with
  | none => s
  | some t =>
    { s with mTasks := s.mTasks.insert task.address { t with window := max (t.window / 2) 1 } }

def onTimeout (s : Server κ) (task : Channel.Task κ) : Server κ :=
  (s.terminate task.address).report (.timeout task.address)

/-! ### Messages -/

def fileDoesNotExist (path : Data) : Protocol := .error path (text "File does not exist")

def onQuery (files : Files) (s : Server κ) (client : κ) (path : Data) : Server κ :=
  match files.content path with
  | none =>
    let task := ⟨(fileDoesNotExist path).serialize, client⟩
    { s with mChannel := (s.mChannel.send task s.mTimeout s.mRetries).1 }
  | some data => s.reply client (.size path (.ofNat data.length))

def onGet (files : Files) (s : Server κ) (client : κ) (path : Data) : Server κ :=
  match files.content path with
  | none => s.reply client (fileDoesNotExist path)
  | some data =>
    let s := s.reply client (.start path)
    if client ∈ s.mTasks then s
    else
      let task := Task.new path data.length (ifstream data) 1 s.mTimeout
      { s with mTasks := s.mTasks.insert client task }.report (.task client path)

/-- `std::clamp`. -/
def clamp (v lo hi : ℤ) : ℤ := if v < lo then lo else if hi < v then hi else v

def onAcknowledge (s : Server κ) (client : κ) (block : ℕ) (now : ℤ) : Server κ :=
  match s.mTasks.lookup client with
  | none => s
  | some task =>
    match task.packets.lookup block with
    | none => s
    | some packet =>
      let window :=
        if task.window < sSlowStart then min (task.window * 2) sSlowStart
        else if task.window < sMaxWindow then task.window + 1
        else task.window
      let elapsed := now - packet.departure
      let average := (task.average * 7 + elapsed).tdiv 8
      let variance := (task.variance * 3 + |average - elapsed|).tdiv 4
      let timeout := clamp (average + variance * 4) 100 s.mTimeout
      let packets := task.packets.erase block
      { s with
        mChannel := s.mChannel.terminate packet.handle
        mTasks := s.mTasks.insert client { task with packets, window, average, variance, timeout } }

/-- The verdict, once the cache holds a digest of the file. -/
def verdict (s : Server κ) (client : κ) (path digest checksum : Data) : Server κ :=
  s.reply client
    (if digest = checksum then .confirm path else .error path (text "Checksum mismatch"))

def onChecksum (files : Files) (s : Server κ) (client : κ) (path checksum : Data) : Server κ :=
  let s := s.terminate client
  match s.mMD5Cache path with
  | some digest => s.verdict client path digest checksum
  | none =>
    match files.content path with
    | none => s.reply client (fileDoesNotExist path)
    | some data =>
      match MD5.new.computeStream (ifstream data) >>= MD5.digest with
      | .error _ => s.report (.receiving client)
      | .ok digest => (s.insertDigest path digest).verdict client path digest checksum

/-- A message of a client; `none` where reading it leaves the registry or the
buffer. -/
def onReceive (files : Files) (s : Server κ) (client : κ) (data : Data) (now : ℤ) :
    Option (Server κ) :=
  match Protocol.deserialize data with
  | .ok (.query path) => some (s.onQuery files client path)
  | .ok (.get path) => some (s.onGet files client path)
  | .ok (.acknowledge _ block) => some (s.onAcknowledge client block.toNat now)
  | .ok (.checksum path checksum) => some (s.onChecksum files client path checksum)
  | .ok _ => some s
  | .error (.protocolError _) => some (s.report (.receiving client))
  | .error _ => none

end Server

end Course.Rdt
