import Course.Socket.Client
import Course.Socket.Server

/-! Whole transfers: the tasks of a client go to the server over one TCP connection for each
host. The monitor is the one of `Client`, the loop of the server the one of `Server`, and the
bytes in flight arrive in chunks of any size. -/

open Course.Lib Distiller

namespace Course.Socket.Transfers

open Client (Task Connection)
open Server (Opened)

/-- The bytes of a `std::string`. -/
def toData (s : String) : Data := s.toList.map fun c => UInt8.ofNat c.toNat

def ofData (data : Data) : String := String.ofList (data.map fun b => Char.ofNat b.toNat)

/-- `what()`; the other fault is no exception. -/
def what : Fault → Option String
  | .protocolError message => some ("Protocol error: " ++ message)
  | .dereferenceEnd => none

/-- One connection: what the worker has sent and received, the bytes in flight to the server and
back, and what the server's loop has in its buffer. -/
structure Link where
  sent : Bool
  buffer : Data
  requests : Data
  responses : Data
  serverBuffer : Data
  serverError : Option Server.Thrown

/-- `writes` is what was written to local files, by path. -/
structure State (ι : Type) where
  client : Client.State ι
  links : ι → Link
  writes : ι → List (String × Data)

inductive Event (ι : Type)
  | request (host : ι) (task : Task)
  /-- The worker sends its request. -/
  | send (host : ι)
  /-- The server receives `n` bytes. -/
  | serve (host : ι) (n : ℕ)
  /-- The worker receives `n` bytes. -/
  | receive (host : ι) (n : ℕ)
  | notify (host : ι)
  | wait
  | monitor

/-- What the worker puts in `result` for a message, and what it writes to the local file. -/
def respond (writable : String → Bool) (task : Task) : Protocol → String × Option Data
  | .file data =>
    if writable task.localFilePath then ("Success", some data)
    else ("System error: Failed to open file: " ++ task.localFilePath, none)
  | .error message => (ofData message, none)
  | .get _ => ("Invalid response type", none)

/-- The server with its files; `::send` takes all that it is given. -/
def world (file : Data → Opened) : Server.World := ⟨file, fun _ data => data.length⟩

/-- The data of `send`. -/
def sendData : Server.Event → Data
  | .send data => data
  | _ => []

/-- The beginning of a worker's thread. -/
def Link.start (link : Link) : Link := { link with sent := false, buffer := [] }

variable {ι : Type}

def init : State ι := ⟨Client.init, fun _ => ⟨false, [], [], [], [], none⟩, fun _ => []⟩

/-- The monitor starts a worker, for a connection without one or after it has joined it. -/
def Starts (connection : Connection) : Prop :=
  (connection.worker = .idle ∨ connection.result ≠ "") ∧ connection.monitor.worker = .running

instance (connection : Connection) : Decidable (Starts connection) := instDecidableAnd

section Step

variable [DecidableEq ι] (file : Data → Opened) (writable : String → Bool)

def State.setLink (s : State ι) (host : ι) (link : Link) : State ι :=
  { s with links := Function.update s.links host link }

/-- The worker has its result. -/
def State.finish (s : State ι) (host : ι) (task : Task) (result : String × Option Data) :
    Option (State ι) :=
  (Client.step s.client (.respond host result.1)).map fun client =>
    { s with
      client
      writes := Function.update s.writes host
        (s.writes host ++ result.2.toList.map fun data => (task.localFilePath, data)) }

/-- There is no first task in an empty queue, and no byte of a closed connection. What a worker
does whose `send` throws, for a request of `2 ^ 31` bytes or more, is not followed. -/
def step (s : State ι) : Event ι → Option (State ι)
  | .request host task =>
    (Client.step s.client (.request host task)).map fun client => { s with client }
  | .send host =>
    let link := s.links host
    match (s.client.connections host).tasks with
    | [] => none
    | task :: _ =>
      let request := (Protocol.get (toData task.serverFilePath)).serialize
      if (s.client.connections host).worker = .running ∧ link.sent = false ∧
          Server.intSize request = request.length then
        some (s.setLink host { link with sent := true, requests := link.requests ++ request })
      else none
  | .serve host n =>
    let link := s.links host
    if 0 < n ∧ n ≤ link.requests.length ∧ link.serverError = none then
      let run := Server.client (world file) 0 link.serverBuffer [link.requests.take n]
      some (s.setLink host
        { link with
          requests := link.requests.drop n
          responses := link.responses ++ run.events.flatMap sendData
          serverBuffer := run.buffer
          serverError := run.error })
    else none
  | .receive host n =>
    let link := s.links host
    match (s.client.connections host).tasks with
    | [] => none
    | task :: _ =>
      if (s.client.connections host).worker = .running ∧ link.sent = true ∧ 0 < n ∧
          n ≤ link.responses.length then
        let (distilled, buffer) := Protocol.distill (link.buffer ++ link.responses.take n)
        let s := s.setLink host { link with buffer, responses := link.responses.drop n }
        if distilled.isEmpty then some s
        else match Protocol.deserialize distilled with
          | .ok message => s.finish host task (respond writable task message)
          | .error fault => (what fault).bind fun text => s.finish host task (text, none)
      else none
  | .notify host => (Client.step s.client (.notify host)).map fun client => { s with client }
  | .wait => (Client.step s.client .wait).map fun client => { s with client }
  | .monitor =>
    (Client.step s.client .monitor).map fun client =>
      { s with
        client
        links := fun host =>
          if Starts (s.client.connections host) then (s.links host).start else s.links host }

def machine : Machine (State ι) (Event ι) := ⟨step file writable⟩

end Step

/-! ### What a task comes to -/

section Spec

variable (file : Data → Opened) (writable : String → Bool)

/-- The path that the server reads from the request. -/
def pathOf (task : Task) : Data := Server.cString (toData task.serverFilePath)

/-- The message with which the server answers, unless there is a file that it cannot read. -/
def response (path : Data) : Protocol :=
  match file path with
  | .absent | .unreadable _ => Server.notFound
  | .content data => .file data

/-- The request can be sent, and the file is not there or can be read. -/
structure Servable (task : Task) : Prop where
  request : (Protocol.get (toData task.serverFilePath)).serialize.length < 2 ^ 31
  readable : ∀ what, file (pathOf task) ≠ .unreadable what

def outcome (task : Task) : String × Option Data :=
  respond writable task (response file (pathOf task))

/-- What a task writes, with the path. -/
def written (task : Task) : Option (String × Data) :=
  (outcome file writable task).2.map fun data => (task.localFilePath, data)

/-- The tasks that were requested of each host. -/
def requested [DecidableEq ι] (tasks : ι → List Task) : Event ι → ι → List Task
  | .request host task => Function.update tasks host (tasks host ++ [task])
  | _ => tasks

end Spec

/-- The task of the event can be served. -/
def Fits (file : Data → Opened) : Event ι → Prop
  | .request _ task => Servable file task
  | _ => True

instance (file : Data → Opened) (task : Task) : Decidable (Servable file task) :=
  decidable_of_iff
    ((Protocol.get (toData task.serverFilePath)).serialize.length < 2 ^ 31 ∧
      (match file (pathOf task) with
        | .unreadable _ => false
        | _ => true) = true)
    ⟨fun ⟨hrequest, hreadable⟩ => ⟨hrequest, fun what heq => by simp [heq] at hreadable⟩,
      fun ⟨hrequest, hreadable⟩ => ⟨hrequest, by split <;> simp_all⟩⟩

instance (file : Data → Opened) (e : Event ι) : Decidable (Fits file e) :=
  match e with
  | .request _ task => inferInstanceAs (Decidable (Servable file task))
  | .send _ | .serve _ _ | .receive _ _ | .notify _ | .wait | .monitor =>
    inferInstanceAs (Decidable True)

/-! ### One connection -/

section Connections

variable {file : Data → Opened} {writable : String → Bool}

theorem Servable.fits {task : Task} (h : Servable file task) :
    (Protocol.get (toData task.serverFilePath)).Fits :=
  h.request.trans (by decide)

theorem outcome_ne (task : Task) : (outcome file writable task).1 ≠ "" := by
  have herror : ofData "File not found".toUTF8.toList ≠ "" := by decide +kernel
  rw [outcome, response]
  cases file (pathOf task) with
  | absent | unreadable => exact herror
  | content data =>
    rw [respond]
    split <;> simp

/-- The request of the task is on its way to the server. -/
def Link.Requesting (link : Link) (task : Task) : Prop :=
  link.requests ≠ [] ∧
    link.serverBuffer ++ link.requests = Server.frame (toData task.serverFilePath) ∧
    link.responses = [] ∧ link.buffer = []

variable (file) in
/-- The response is on its way to the worker. -/
def Link.Responding (link : Link) (task : Task) : Prop :=
  link.requests = [] ∧ link.serverBuffer = [] ∧ link.responses ≠ [] ∧
    link.buffer ++ link.responses = (response file (pathOf task)).serialize

/-- Nothing is on its way. -/
def Link.Quiet (link : Link) : Prop :=
  link.requests = [] ∧ link.serverBuffer = [] ∧ link.responses = []

variable (file writable) in
/-- How far the transfer of the first task is. -/
def Phase (connection : Connection) (link : Link) : Prop :=
  match connection.worker with
  | .idle => connection.result = "" ∧ link.Quiet
  | .running => connection.result = "" ∧ ∃ task rest, connection.tasks = task :: rest ∧
      (link.sent = false ∧ link.buffer = [] ∧ link.Quiet ∨
        link.sent = true ∧ (link.Requesting task ∨ link.Responding file task))
  | .notifying | .returned => ∃ task rest, connection.tasks = task :: rest ∧
      connection.result = (outcome file writable task).1 ∧ link.Quiet

/-- The files are short enough for `send`. -/
def Short (file : Data → Opened) : Prop :=
  ∀ path data, file path = .content data → (Protocol.file data).serialize.length < 2 ^ 31

theorem notFound_valid : Server.notFound.Valid :=
  ⟨(by decide +kernel : (0 : UInt8) ∉ "File not found".toUTF8.toList), by decide +kernel⟩

theorem length_notFound : Server.notFound.serialize.length < 2 ^ 31 := by
  decide +kernel

theorem response_lt (hfile : Short file) (path : Data) :
    (response file path).serialize.length < 2 ^ 31 := by
  rw [response]
  cases hpath : file path with
  | absent | unreadable => exact length_notFound
  | content data => exact hfile path data hpath

theorem response_valid (hfile : Short file) (path : Data) : (response file path).Valid := by
  have hlt := response_lt hfile path
  rw [response] at hlt ⊢
  cases hpath : file path with
  | absent | unreadable => exact notFound_valid
  | content data => exact ⟨trivial, (hfile path data hpath).trans (by decide)⟩

theorem send_world {data : Data} (h : data.length < 2 ^ 31) (i : ℕ) :
    (world file).send i data = none := by
  have hsize : Server.intSize data = data.length := Int.bmod_eq_of_le (by omega) (by omega)
  rw [Server.World.send, hsize]
  exact if_neg (not_not.mpr rfl)

theorem flatMap_sendData (path data : Data) (text : String) :
    [Server.Event.request path, .send data, .response text].flatMap sendData = data := by
  simp [sendData]

theorem handle_world (hfile : Short file) {path : Data}
    (hreadable : ∀ what, file path ≠ .unreadable what) :
    ∃ events, Server.handle (world file) 0 path = (events, none) ∧
      events.flatMap sendData = (response file path).serialize := by
  cases hpath : file path with
  | unreadable what => exact absurd hpath (hreadable what)
  | absent =>
    refine ⟨_, Server.handle_absent hpath (send_world length_notFound 0), ?_⟩
    rw [response, hpath]
    exact flatMap_sendData ..
  | content data =>
    refine ⟨_, Server.handle_content hpath (send_world (hfile path data hpath) 0), ?_⟩
    rw [response, hpath]
    exact flatMap_sendData ..

/-- The first bytes of the rest of a request reach the server. -/
theorem Link.Requesting.serve (hfile : Short file) {link : Link} {task : Task}
    (h : link.Requesting task) (hservable : Servable file task) {n : ℕ} (hn : 0 < n) :
    let run := Server.client (world file) 0 link.serverBuffer [link.requests.take n]
    let link' : Link :=
      { link with
        requests := link.requests.drop n
        responses := link.responses ++ run.events.flatMap sendData
        serverBuffer := run.buffer
        serverError := run.error }
    run.error = none ∧ (link'.Requesting task ∨ link'.Responding file task) := by
  obtain ⟨hne, hframe, hresponses, hbuffer⟩ := h
  have hfits := hservable.fits
  have htake : link.requests.take n ≠ [] := by
    rw [Ne, List.take_eq_nil_iff]
    exact not_or.mpr ⟨by omega, hne⟩
  rcases hfits.distills.arrive hframe n with ⟨hdrop, -⟩ | ⟨hdrop, hpart⟩
  · have hwhole : link.requests.take n = link.requests :=
      List.take_of_length_le (List.drop_eq_nil_iff.mp hdrop)
    obtain ⟨events, hhandle, hsent⟩ := handle_world hfile hservable.readable
    have hrun : Server.client (world file) 0 link.serverBuffer [link.requests] =
        ⟨events, none, []⟩ := by
      rw [Server.client_whole hfits hne (hframe.trans (List.append_nil _).symm)]
      rw [pathOf] at hhandle
      simp [Server.client, hhandle]
    have hvalid : (response file (pathOf task)).serialize ≠ [] := by
      intro hnil
      have hlen := congrArg List.length hnil
      rw [serialize_eq, List.length_append, length_uint64_write] at hlen
      simp at hlen
    simp only [hwhole, hrun, hdrop, hresponses, List.nil_append, hsent]
    refine ⟨trivial, .inr ⟨rfl, rfl, hvalid, ?_⟩⟩
    rw [hbuffer, List.nil_append]
  · have hrun : Server.client (world file) 0 link.serverBuffer [link.requests.take n] =
        ⟨[], none, link.serverBuffer ++ link.requests.take n⟩ :=
      Server.client_part htake hpart
    simp only [hrun, List.flatMap_nil, List.append_nil]
    refine ⟨trivial, .inl ⟨hdrop, ?_, hresponses, hbuffer⟩⟩
    rw [List.append_assoc, List.take_append_drop, hframe]

/-- The first bytes of the rest of a response reach the worker. -/
theorem Link.Responding.receive {link : Link} {task : Task} (h : link.Responding file task)
    (hfits : (response file (pathOf task)).Fits) (n : ℕ) :
    link.responses.drop n = [] ∧
        Protocol.distill (link.buffer ++ link.responses.take n) =
          ((response file (pathOf task)).serialize, []) ∨
      Protocol.distill (link.buffer ++ link.responses.take n) =
          ([], link.buffer ++ link.responses.take n) ∧
        Link.Responding file
          { link with
            buffer := link.buffer ++ link.responses.take n
            responses := link.responses.drop n } task := by
  obtain ⟨hrequests, hserver, -, hframe⟩ := h
  rcases hfits.distills.arrive hframe n with hwhole | ⟨hdrop, hpart⟩
  · exact .inl hwhole
  · refine .inr ⟨hpart, hrequests, hserver, hdrop, ?_⟩
    rw [List.append_assoc, List.take_append_drop, hframe]

/-- The task whose result waits to be reported. -/
def current (connection : Connection) : List Task :=
  match connection.worker with
  | .notifying | .returned => connection.tasks.head?.toList
  | _ => []

variable (file writable) in
structure Holds (requested : List Task) (connection : Connection) (link : Link)
    (writes : List (String × Data)) : Prop where
  order : ∃ done, requested = done ++ connection.tasks ∧
    connection.completed = done.map (fun task => (task, (outcome file writable task).1)) ∧
    writes = (done ++ current connection).filterMap (written file writable)
  phase : Phase file writable connection link
  error : link.serverError = none
  servable : ∀ task ∈ connection.tasks, Servable file task

namespace Holds

variable {requested tasks : List Task} {result text : String} {completed : List (Task × String)}
  {link : Link} {writes : List (String × Data)}

theorem request {connection : Connection}
    (h : Holds file writable requested connection link writes) {task : Task}
    (hservable : Servable file task) :
    Holds file writable (requested ++ [task])
      { connection with tasks := connection.tasks ++ [task] } link writes := by
  obtain ⟨⟨done, hrequested, hcompleted, hwrites⟩, hphase, herror, hservable'⟩ := h
  have hphase' : Phase file writable { connection with tasks := connection.tasks ++ [task] } link ∧
      current { connection with tasks := connection.tasks ++ [task] } = current connection := by
    rw [Phase, current, current]
    rw [Phase] at hphase
    cases hworker : connection.worker with
    | idle =>
      rw [hworker] at hphase
      exact ⟨hphase, rfl⟩
    | running =>
      rw [hworker] at hphase
      obtain ⟨hresult, first, rest, htasks, hlink⟩ := hphase
      exact ⟨⟨hresult, first, rest ++ [task], by rw [htasks]; rfl, hlink⟩, rfl⟩
    | notifying | returned =>
      rw [hworker] at hphase
      obtain ⟨first, rest, htasks, hresult⟩ := hphase
      exact ⟨⟨first, rest ++ [task], by rw [htasks]; rfl, hresult⟩, by rw [htasks]; rfl⟩
  refine ⟨⟨done, ?_, hcompleted, ?_⟩, hphase'.1, herror, ?_⟩
  · rw [hrequested, List.append_assoc]
  · rw [hwrites, hphase'.2]
  · intro t ht
    rcases List.mem_append.mp ht with ht | ht
    · exact hservable' t ht
    · obtain rfl := List.mem_singleton.mp ht
      exact hservable

theorem running
    (h : Holds file writable requested ⟨tasks, .running, result, completed⟩ link writes) :
    result = "" ∧ ∃ task rest, tasks = task :: rest ∧
      (link.sent = false ∧ link.buffer = [] ∧ link.Quiet ∨
        link.sent = true ∧ (link.Requesting task ∨ link.Responding file task)) :=
  h.phase

/-- Of a running connection only the link changes. -/
theorem setLink {task : Task}
    (h : Holds file writable requested ⟨task :: tasks, .running, result, completed⟩ link writes)
    {link' : Link} (herror : link'.serverError = none) (hsent : link'.sent = true)
    (hphase : link'.Requesting task ∨ link'.Responding file task) :
    Holds file writable requested ⟨task :: tasks, .running, result, completed⟩ link' writes :=
  ⟨h.order, ⟨h.running.1, task, tasks, rfl, .inr ⟨hsent, hphase⟩⟩, herror, h.servable⟩

theorem send {task : Task}
    (h : Holds file writable requested ⟨task :: tasks, .running, result, completed⟩ link writes)
    (hsent : link.sent = false) :
    Holds file writable requested ⟨task :: tasks, .running, result, completed⟩
      { link with
        sent := true
        requests := link.requests ++ (Protocol.get (toData task.serverFilePath)).serialize }
      writes := by
  obtain ⟨-, first, rest, htasks, ⟨-, hbuffer, hrequests, hserver, hresponses⟩ | ⟨hsent', -⟩⟩ :=
    h.running
  · obtain ⟨rfl, rfl⟩ := List.cons.inj htasks
    have hne := (h.servable task List.mem_cons_self).fits.distills.ne_nil
    refine h.setLink h.error rfl (.inl ⟨?_, ?_, hresponses, hbuffer⟩)
    · rw [hrequests]
      exact hne
    · rw [hserver, hrequests]
      rfl
  · rw [hsent] at hsent'
    cases hsent'

theorem serve (hfile : Short file) {connection : Connection}
    (h : Holds file writable requested connection link writes) {n : ℕ} (hn : 0 < n)
    (hlen : n ≤ link.requests.length) :
    let run := Server.client (world file) 0 link.serverBuffer [link.requests.take n]
    Holds file writable requested connection
      { link with
        requests := link.requests.drop n
        responses := link.responses ++ run.events.flatMap sendData
        serverBuffer := run.buffer
        serverError := run.error }
      writes := by
  have hne : link.requests ≠ [] := List.ne_nil_of_length_pos (by omega)
  obtain ⟨tasks, worker, result, completed⟩ := connection
  cases worker with
  | idle => exact absurd h.phase.2.1 hne
  | notifying | returned =>
    obtain ⟨-, -, -, -, hquiet⟩ := h.phase
    exact absurd hquiet.1 hne
  | running =>
    obtain ⟨-, task, rest, rfl, ⟨-, -, hquiet⟩ | ⟨hsent, hlink⟩⟩ := h.running
    · exact absurd hquiet.1 hne
    · rcases hlink with hlink | hlink
      · obtain ⟨herror, hlink'⟩ :=
          hlink.serve hfile (h.servable task List.mem_cons_self) hn
        exact h.setLink herror hsent hlink'
      · exact absurd hlink.1 hne

theorem finish {task : Task}
    (h : Holds file writable requested ⟨task :: tasks, .running, result, completed⟩ link writes)
    {link' : Link} (herror : link'.serverError = none) (hquiet : link'.Quiet) :
    Holds file writable requested
      ⟨task :: tasks, .notifying, (outcome file writable task).1, completed⟩ link'
      (writes ++ (outcome file writable task).2.toList.map fun data =>
        (task.localFilePath, data)) := by
  obtain ⟨done, hrequested, hcompleted, hwrites⟩ := h.order
  refine ⟨⟨done, hrequested, hcompleted, ?_⟩, ⟨task, tasks, rfl, rfl, hquiet⟩, herror, h.servable⟩
  rw [hwrites]
  simp only [current, List.append_nil, List.head?_cons, Option.toList_some, List.filterMap_append]
  congr 1
  cases hdata : (outcome file writable task).2 <;> simp [written, hdata]

theorem notify
    (h : Holds file writable requested ⟨tasks, .notifying, result, completed⟩ link writes) :
    Holds file writable requested ⟨tasks, .returned, result, completed⟩ link writes :=
  ⟨h.order, h.phase, h.error, h.servable⟩

/-- The monitor starts the first task that is left. -/
theorem restart (h : Holds file writable requested ⟨tasks, .idle, result, completed⟩ link writes) :
    Holds file writable requested (Connection.monitor ⟨tasks, .idle, result, completed⟩)
      (if Starts ⟨tasks, .idle, result, completed⟩ then link.start else link) writes := by
  obtain ⟨rfl, hquiet⟩ := h.phase
  cases tasks with
  | nil => exact h
  | cons task tasks =>
    have hstarts : Starts ⟨task :: tasks, .idle, "", completed⟩ := ⟨.inl rfl, rfl⟩
    rw [if_pos hstarts]
    exact ⟨h.order, ⟨rfl, task, tasks, rfl, .inl ⟨rfl, rfl, hquiet⟩⟩, h.error, h.servable⟩

/-- The monitor reports the first task before. -/
theorem report {task : Task} {worker : Client.Worker}
    (hworker : worker = .notifying ∨ worker = .returned)
    (h : Holds file writable requested ⟨task :: tasks, worker, result, completed⟩ link writes) :
    Holds file writable requested ⟨tasks, .idle, "", completed ++ [(task, result)]⟩ link writes ∧
      result ≠ "" := by
  obtain ⟨done, hrequested, hcompleted, hwrites⟩ := h.order
  have hphase : result = (outcome file writable task).1 ∧ link.Quiet := by
    rcases hworker with rfl | rfl <;>
    · obtain ⟨_, _, htasks, hphase⟩ := h.phase
      obtain ⟨rfl, -⟩ := List.cons.inj htasks
      exact hphase
  have hcurrent : current ⟨task :: tasks, worker, result, completed⟩ = [task] := by
    rcases hworker with rfl | rfl <;> rfl
  refine ⟨⟨⟨done ++ [task], ?_, ?_, ?_⟩, ⟨rfl, hphase.2⟩, h.error, ?_⟩, ?_⟩
  · rw [hrequested, List.append_assoc]
    rfl
  · rw [List.map_append, ← hcompleted, hphase.1]
    rfl
  · rw [hwrites, hcurrent]
    exact congrArg _ (List.append_nil _).symm
  · exact fun t ht => h.servable t (List.mem_cons_of_mem _ ht)
  · rw [hphase.1]
    exact outcome_ne task

theorem monitor {connection : Connection}
    (h : Holds file writable requested connection link writes) :
    Holds file writable requested connection.monitor
      (if Starts connection then link.start else link) writes := by
  obtain ⟨tasks, worker, result, completed⟩ := connection
  cases worker with
  | idle => exact h.restart
  | running =>
    obtain ⟨rfl, -⟩ := h.running
    exact h
  | notifying | returned =>
    obtain ⟨task, tasks, rfl, -⟩ := h.phase
    obtain ⟨hreport, hresult⟩ := h.report (by simp)
    have hmonitor := hreport.restart
    simpa [Connection.monitor, Starts, hresult] using hmonitor

end Holds

end Connections

/-! ### All connections -/

section Runs

variable [DecidableEq ι] {file : Data → Opened} {writable : String → Bool}

variable (file writable) in
def Inv (s : State ι) (tasks : ι → List Task) : Prop :=
  ∀ host, Holds file writable (tasks host) (s.client.connections host) (s.links host)
    (s.writes host)

omit [DecidableEq ι] in
theorem init_inv : Inv file writable (init : State ι) fun _ => [] := by
  intro host
  refine ⟨⟨[], rfl, rfl, rfl⟩, ⟨rfl, rfl, rfl, rfl⟩, rfl, fun task htask => ?_⟩
  exact absurd htask List.not_mem_nil

variable {s s' : State ι} {tasks : ι → List Task}

/-- Only one connection is touched. -/
theorem Inv.update (h : Inv file writable s tasks) (host : ι) {requested : List Task}
    {connection : Connection}
    {link : Link} {writes : List (String × Data)}
    (hholds : Holds file writable requested connection link writes) :
    ∀ host', Holds file writable (Function.update tasks host requested host')
      (Function.update s.client.connections host connection host')
      (Function.update s.links host link host') (Function.update s.writes host writes host') := by
  intro host'
  by_cases hhost : host' = host
  · subst hhost
    simpa using hholds
  · simpa [Function.update_of_ne hhost] using h host'

theorem connection_eq {connection : Connection} {queue : List Task} {worker : Client.Worker}
    (htasks : connection.tasks = queue) (hworker : connection.worker = worker) :
    connection = ⟨queue, worker, connection.result, connection.completed⟩ := by
  subst htasks hworker
  rfl

/-- A running worker receives, and its task comes to an end with the response. -/
theorem Inv.receive (hfile : Short file)
    (h : Inv file writable s tasks) {host : ι} {n : ℕ}
    (hs : (machine file writable).step s (.receive host n) = some s') :
    Inv file writable s' tasks := by
  simp only [machine, Transfers.step] at hs
  split at hs
  next => cases hs
  next task rest htasks =>
    obtain ⟨⟨hworker, hsent, hn, hlen⟩, hs⟩ := Option.ite_none_right_eq_some.mp hs
    have hconnection := connection_eq htasks hworker
    have hholds := h host
    rw [hconnection] at hholds
    have hvalid := response_valid hfile (pathOf task)
    have hresponding : (s.links host).Responding file task := by
      have hne : (s.links host).responses ≠ [] := List.ne_nil_of_length_pos (by omega)
      obtain ⟨-, first, rest', hfirst, ⟨hunsent, -⟩ | ⟨-, hlink⟩⟩ := hholds.running
      · rw [hsent] at hunsent
        cases hunsent
      · obtain ⟨rfl, -⟩ := List.cons.inj hfirst
        exact hlink.resolve_left fun hrequesting => hne hrequesting.2.2.1
    rcases hresponding.receive hvalid.fits n with ⟨hdrop, hdistill⟩ | ⟨hdistill, hlink⟩
    · have hne : (response file (pathOf task)).serialize.isEmpty = false :=
        List.isEmpty_eq_false_iff.mpr hvalid.fits.distills.ne_nil
      simp only [hdistill, hne, hvalid.deserialize, Bool.false_eq_true, if_false] at hs
      obtain ⟨client, hclient, rfl⟩ := Option.map_eq_some_iff.mp hs
      obtain ⟨-, hclient⟩ := Option.ite_none_right_eq_some.mp hclient
      obtain rfl := Option.some.inj hclient
      have herror : Link.serverError { s.links host with buffer := [], responses := [] } = none :=
        hholds.error
      have hupdate := h.update host
        (hholds.finish herror ⟨hresponding.1, hresponding.2.1, rfl⟩)
      simpa [Inv, State.setLink, Client.State.set, hdrop, htasks, outcome] using hupdate
    · simp only [hdistill, List.isEmpty_nil, if_true] at hs
      obtain rfl := Option.some.inj hs
      have herror : Link.serverError { s.links host with
          buffer := (s.links host).buffer ++ (s.links host).responses.take n
          responses := (s.links host).responses.drop n } = none :=
        hholds.error
      have hupdate := h.update host (hholds.setLink herror hsent (.inr hlink))
      simpa [Inv, State.setLink, ← hconnection] using hupdate

theorem Inv.step (hfile : Short file)
    (h : Inv file writable s tasks) {e : Event ι} (he : Fits file e)
    (hs : (machine file writable).step s e = some s') :
    Inv file writable s' (requested tasks e) := by
  cases e with
  | request host task =>
    obtain rfl := Option.some.inj hs
    have hupdate := h.update host ((h host).request he)
    simpa [Inv, requested, Client.State.set] using hupdate
  | send host =>
    simp only [machine, Transfers.step] at hs
    split at hs
    next => cases hs
    next task rest htasks =>
      obtain ⟨⟨hworker, hsent, -⟩, hs⟩ := Option.ite_none_right_eq_some.mp hs
      obtain rfl := Option.some.inj hs
      have hconnection := connection_eq htasks hworker
      have hholds := h host
      rw [hconnection] at hholds
      have hupdate := h.update host (hholds.send hsent)
      simpa [Inv, requested, State.setLink, ← hconnection] using hupdate
  | serve host n =>
    obtain ⟨⟨hn, hlen, -⟩, hs⟩ := Option.ite_none_right_eq_some.mp hs
    obtain rfl := Option.some.inj hs
    have hupdate := h.update host ((h host).serve hfile hn hlen)
    simpa [Inv, requested, State.setLink] using hupdate
  | receive host n => exact h.receive hfile hs
  | notify host =>
    obtain ⟨client, hclient, rfl⟩ := Option.map_eq_some_iff.mp hs
    obtain ⟨hworker, hclient⟩ := Option.ite_none_right_eq_some.mp hclient
    obtain rfl := Option.some.inj hclient
    have hconnection := connection_eq rfl hworker
    have hholds := h host
    rw [hconnection] at hholds
    have hupdate := h.update host hholds.notify
    simpa [Inv, requested, Client.State.set] using hupdate
  | wait =>
    obtain ⟨client, hclient, rfl⟩ := Option.map_eq_some_iff.mp hs
    obtain ⟨-, hclient⟩ := Option.ite_none_right_eq_some.mp hclient
    obtain rfl := Option.some.inj hclient
    exact h
  | monitor =>
    obtain ⟨client, hclient, rfl⟩ := Option.map_eq_some_iff.mp hs
    obtain ⟨-, hclient⟩ := Option.ite_none_right_eq_some.mp hclient
    obtain rfl := Option.some.inj hclient
    exact fun host => (h host).monitor

/-- A file that is there and one that is not, in chunks. -/
def twoFiles : List (Event Unit) :=
  [.wait, .request () ⟨"a", "b"⟩, .request () ⟨"x", "y"⟩, .monitor, .send (), .serve () 5,
    .serve () 6, .wait, .receive () 4, .receive () 6, .notify (), .monitor, .send (),
    .serve () 11, .receive () 1, .wait, .receive () 23, .notify (), .monitor]

def oneFile : Data → Opened := Server.oneFile.file

end Runs

end Course.Socket.Transfers
