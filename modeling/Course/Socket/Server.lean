import Course.Socket.Protocol
import Mathlib.Data.List.TakeWhile

/-! The loop of the server for one client, on what it receives. -/

open Course.Lib Distiller

namespace Course.Socket.Server

/-- What the handling of a message does: `mOnRequest`, `send` and `mOnResponse`. -/
inductive Event
  | request (path : Data)
  | send (data : Data)
  | response (message : String)
  deriving DecidableEq

/-- What opening and reading the file of a path comes to. -/
inductive Opened
  | absent
  /-- It opens, and what follows throws: a directory tells a size of `2 ^ 63 - 1` bytes, for which
  there is no vector. -/
  | unreadable (what : String)
  | content (data : Data)
  deriving DecidableEq

/-- What ends the loop: a message that is not understood, a file that cannot be read, or a `send`
that does not take its frame. -/
inductive Thrown
  | fault (fault : Fault)
  | unreadable (what : String)
  | connectionError
  deriving DecidableEq

/-- The files, and what `::send` returns for its `i`-th frame. -/
structure World where
  file : Data → Opened
  sent : ℕ → Data → ℤ

/-- `static_cast<int>(data.size())` -/
def intSize (data : Data) : ℤ := (data.length : ℤ).bmod (2 ^ 32)

/-- The exception of `Socket::send`. -/
def World.send (w : World) (i : ℕ) (data : Data) : Option Thrown :=
  if w.sent i data ≠ intSize data then some .connectionError else none

def notFound : Protocol := .error "File not found".toUTF8.toList

/-- The `i`-th message is handled. -/
def handle (w : World) (i : ℕ) (path : Data) : List Event × Option Thrown :=
  match w.file path with
  | .absent =>
    let data := notFound.serialize
    match w.send i data with
    | some thrown => ([.request path, .send data], some thrown)
    | none => ([.request path, .send data, .response "File not found"], none)
  | .unreadable what => ([.request path], some (.unreadable what))
  | .content file =>
    let data := (Protocol.file file).serialize
    match w.send i data with
    | some thrown => ([.request path, .send data], some thrown)
    | none => ([.request path, .send data, .response "Success"], none)

/-- What happened until the end of the loop, what ended it, and the buffer. -/
structure Run where
  events : List Event
  error : Option Thrown
  buffer : Data

/-- `requests` are the results of `receive`, empty where nothing has come. -/
def client (w : World) : ℕ → Data → List Data → Run
  | _, buffer, [] => ⟨[], none, buffer⟩
  | i, buffer, request :: requests =>
    if request.isEmpty then client w i buffer requests
    else
      let (distilled, buffer) := Protocol.distill (buffer ++ request)
      if distilled.isEmpty then client w i buffer requests
      else match Protocol.deserialize distilled with
        | .ok (.get path) =>
          match handle w i path with
          | (events, some thrown) => ⟨events, some thrown, buffer⟩
          | (events, none) =>
            let run := client w (i + 1) buffer requests
            { run with events := events ++ run.events }
        | .ok _ => ⟨[], some (.fault (.protocolError "Invalid message type")), buffer⟩
        | .error e => ⟨[], some (.fault e), buffer⟩

/-- What the handling of messages does, from the `i`-th one on. -/
def handled (w : World) : ℕ → List Data → List Event
  | _, [] => []
  | i, path :: paths => (handle w i path).1 ++ handled w (i + 1) paths

/-- Every message was handled once, in their order, and none is left in the buffer. -/
structure Handles (w : World) (paths : List Data) (requests : List Data) : Prop where
  events : (client w 0 [] requests).events = handled w 0 paths
  error : (client w 0 [] requests).error = none
  buffer : (client w 0 [] requests).buffer = []

/-- The file is not there or can be read, and `::send` takes the frame. -/
def World.Serves (w : World) (i : ℕ) (path : Data) : Prop :=
  match w.file path with
  | .absent => w.send i notFound.serialize = none
  | .unreadable _ => False
  | .content file => w.send i (Protocol.file file).serialize = none

/-- So for all messages, from the `i`-th one on. -/
def World.ServesAll (w : World) : ℕ → List Data → Prop
  | _, [] => True
  | i, path :: paths => w.Serves i path ∧ w.ServesAll (i + 1) paths

/-! ### The frames that are handled -/

variable {w : World} {i : ℕ} {buffer : Data} {paths : List Data} {requests : List Data}

theorem handle_absent {path : Data} (h : w.file path = .absent)
    (hsend : w.send i notFound.serialize = none) :
    handle w i path =
      ([.request path, .send notFound.serialize, .response "File not found"], none) := by
  simp only [handle, h, hsend]

theorem handle_content {path file : Data} (h : w.file path = .content file)
    (hsend : w.send i (Protocol.file file).serialize = none) :
    handle w i path =
      ([.request path, .send (Protocol.file file).serialize, .response "Success"], none) := by
  simp only [handle, h, hsend]

theorem handle_eq_none {path : Data} : (handle w i path).2 = none ↔ w.Serves i path := by
  rw [handle, World.Serves]
  cases w.file path with
  | absent | content => dsimp only; split <;> simp [*]
  | unreadable what => simp

/-- `string` ends at the first NUL. -/
def cString (path : Data) : Data := path.takeWhile (· ≠ 0)

theorem client_skip : client w i buffer requests =
    client w i buffer (requests.filter fun request => !request.isEmpty) := by
  induction requests generalizing i buffer with
  | nil => rfl
  | cons request requests ih =>
    cases hempty : request.isEmpty with
    | true =>
      rw [client, if_pos hempty, ih, List.filter_cons_of_neg (by simp [hempty])]
    | false =>
      rw [List.filter_cons_of_pos (by simp [hempty]), client, client, hempty]
      simp only [ih]

/-- The frame of a message. -/
def frame (path : Data) : Data := (Protocol.get path).serialize

theorem string_read (path : Data) :
    ∃ rest, string.read (string.write path) = .ok (cString path, rest) := by
  show ∃ rest, Codec.readTerminated 0 Fault.dereferenceEnd (path ++ [0]) = _
  induction path with
  | nil => exact ⟨[], rfl⟩
  | cons b path ih =>
    obtain ⟨rest, hread⟩ := ih
    rw [List.cons_append, Codec.readTerminated, cString]
    by_cases hb : b = 0
    · subst hb
      exact ⟨path ++ [0], rfl⟩
    · refine ⟨rest, ?_⟩
      rw [if_neg hb, hread, List.takeWhile_cons_of_pos (by simp [hb])]
      rfl

theorem deserialize_frame {path : Data} (h : (Protocol.get path).Fits) :
    Protocol.deserialize (frame path) = .ok (.get (cString path)) := by
  obtain ⟨rest, hstring⟩ := string_read path
  have hread := Protocol.read_size (.get path) []
  rw [List.append_nil, List.append_nil] at hread
  have hit : Protocol.readSize (frame path) = .ok (Protocol.get path).body := by
    simp [frame, Protocol.readSize, hread, bind, Except.bind, h.frameSize, pure, Except.pure]
  simp only [Protocol.deserialize, hit, bind, Except.bind]
  simp [Protocol.readMessage, Protocol.body, readType, hstring, bind, Except.bind, pure,
    Except.pure]

theorem distills_frame (hfits : ∀ path ∈ paths, (Protocol.get path).Fits) :
    ∀ f ∈ paths.map frame, distiller.Distills f := by
  intro f hf
  obtain ⟨path, hpath, rfl⟩ := List.mem_map.mp hf
  exact (hfits path hpath).distills

theorem client_whole {path request tail : Data} (hfits : (Protocol.get path).Fits)
    (hrequest : request ≠ []) (h : buffer ++ request = frame path ++ tail) :
    client w i buffer (request :: requests) =
      match handle w i (cString path) with
      | (events, some thrown) => ⟨events, some thrown, tail⟩
      | (events, none) =>
        { client w (i + 1) tail requests with
          events := events ++ (client w (i + 1) tail requests).events } := by
  have hne : request.isEmpty = false := List.isEmpty_eq_false_iff.mpr hrequest
  have hframe : (frame path).isEmpty = false :=
    List.isEmpty_eq_false_iff.mpr hfits.distills.ne_nil
  have hdistill : Protocol.distill (buffer ++ request) = (frame path, tail) := by
    rw [h, frame, hfits.distill_whole]
  rw [client, hne, hdistill]
  simp only [hframe, deserialize_frame hfits, Bool.false_eq_true, if_false]

theorem client_part {request : Data} (hrequest : request ≠ [])
    (h : distiller.distill (buffer ++ request) = ([], buffer ++ request)) :
    client w i buffer (request :: requests) = client w i (buffer ++ request) requests := by
  have hne : request.isEmpty = false := List.isEmpty_eq_false_iff.mpr hrequest
  have hdistill : Protocol.distill (buffer ++ request) = ([], buffer ++ request) := h
  rw [client, hne, hdistill]
  rfl

/-- The messages are handled that the frames cut off one for each chunk hold, until one of them
cannot be served. -/
theorem client_once (hfits : ∀ path ∈ paths, (Protocol.get path).Fits)
    (hrequests : ∀ request ∈ requests, request ≠ [])
    (h : buffer ++ requests.flatten = (paths.map frame).flatten) :
    ∃ done todo, paths = done ++ todo ∧
      distiller.once buffer requests = (done.map frame, (todo.map frame).flatten) ∧
      (w.ServesAll i (done.map cString) ∧
          client w i buffer requests =
            ⟨handled w i (done.map cString), none, (todo.map frame).flatten⟩ ∨
        ¬w.ServesAll i (done.map cString) ∧ (client w i buffer requests).error ≠ none) := by
  induction requests generalizing i buffer paths with
  | nil =>
    rw [List.flatten_nil, List.append_nil] at h
    exact ⟨[], paths, rfl, by rw [h]; rfl, .inl ⟨trivial, by rw [h]; rfl⟩⟩
  | cons request requests ih =>
    have hrequest := hrequests request List.mem_cons_self
    have hrequests' : ∀ r ∈ requests, r ≠ [] := fun r hr => hrequests r (List.mem_cons_of_mem _ hr)
    rw [List.flatten_cons, ← List.append_assoc] at h
    cases paths with
    | nil =>
      have hnil := (List.append_eq_nil_iff.mp (List.append_eq_nil_iff.mp h).1).2
      exact absurd hnil hrequest
    | cons path paths =>
      have hpath := hfits path List.mem_cons_self
      have hframe := hpath.distills
      rw [List.map_cons, List.flatten_cons] at h
      rcases whole_or_part h with ⟨tail, htail, hrest⟩ | ⟨hpart, hne, -⟩
      · obtain ⟨done, todo, rfl, honce, hclient⟩ :=
          @ih (i + 1) _ _ (fun p hp => hfits p (List.mem_cons_of_mem _ hp)) hrequests' hrest
        refine ⟨path :: done, todo, rfl, ?_, ?_⟩
        · rw [once_cons_whole hframe htail, honce]
          rfl
        · rw [client_whole hpath hrequest htail]
          cases hhandle : handle w i (cString path) with | mk events thrown =>
          have hserves := @handle_eq_none w i (cString path)
          rw [hhandle] at hserves
          cases thrown with
          | some thrown =>
            right
            exact ⟨fun hall => Option.some_ne_none _ (hserves.mpr hall.1), Option.some_ne_none _⟩
          | none =>
            rcases hclient with ⟨hall, hrun⟩ | ⟨hnot, herror⟩
            · left
              refine ⟨⟨hserves.mp rfl, hall⟩, ?_⟩
              rw [hrun]
              simp [handled, hhandle]
            · right
              exact ⟨fun hall => hnot hall.2, herror⟩
      · have hdistill := hframe.part _ hpart hne
        rw [once_cons_part hdistill, client_part hrequest hdistill]
        exact ih hfits hrequests' h

/-! ### When all messages are handled -/

/-- The path of a request. -/
def Event.path? : Event → Option Data
  | .request path => some path
  | _ => none

theorem path_handle (path : Data) : (handle w i path).1.filterMap Event.path? = [path] := by
  rw [handle]
  cases w.file path with
  | absent | content => dsimp only; split <;> rfl
  | unreadable what => rfl

theorem path_handled (paths : List Data) :
    (handled w i paths).filterMap Event.path? = paths := by
  induction paths generalizing i with
  | nil => rfl
  | cons path paths ih => rw [handled, List.filterMap_append, path_handle, ih]; rfl

theorem cString_eq_iff {path : Data} : cString path = path ↔ 0 ∉ path := by
  rw [cString, List.takeWhile_eq_self_iff]
  simp only [ne_eq, decide_not, Bool.not_eq_eq_eq_not, Bool.not_true, decide_eq_false_iff_not]
  exact ⟨fun h hmem => h 0 hmem rfl, fun h b hb heq => h (heq ▸ hb)⟩

/-- The chunks with data in them. -/
def received (requests : List Data) : List Data := requests.filter fun request => !request.isEmpty

theorem flatten_received : (received requests).flatten = requests.flatten := by
  induction requests with
  | nil => rfl
  | cons request requests ih =>
    rw [received] at ih ⊢
    cases request with
    | nil => exact ih
    | cons b request => rw [List.filter_cons_of_pos rfl, List.flatten_cons, ih, List.flatten_cons]

theorem ne_nil_of_received {request : Data} (h : request ∈ received requests) : request ≠ [] := by
  have hfilter := (List.mem_filter.mp h).2
  rintro rfl
  exact absurd hfilter (by decide)

/-- All messages are handled if no path has a NUL in it, always at least as many chunks are to come
as messages that end in them, and every message can be served. -/
theorem handles_iff (hfits : ∀ path ∈ paths, (Protocol.get path).Fits)
    (h : requests.flatten = (paths.map frame).flatten) :
    Handles w paths requests ↔
      (∀ path ∈ paths, 0 ∉ path) ∧ Paced 0 (paths.map frame) (received requests) ∧
        w.ServesAll 0 paths := by
  rw [← flatten_received] at h
  obtain ⟨done, todo, hpaths, honce, hclient⟩ :=
    @client_once w 0 [] paths _ hfits (fun _ => ne_nil_of_received) h
  have hskip : client w 0 [] (received requests) = client w 0 [] requests := client_skip.symm
  rw [hskip] at hclient
  rw [← once_all_iff (distills_frame hfits) rfl h, honce]
  constructor
  · intro hhandles
    obtain ⟨hserves, hrun⟩ := hclient.resolve_right fun hnot => hnot.2 hhandles.error
    have hpath : done.map cString = paths := by
      have hevents := congrArg (List.filterMap Event.path?) hhandles.events
      rwa [hrun, path_handled, path_handled] at hevents
    have htodo : todo = [] := by
      have hlen := congrArg List.length hpath
      rw [hpaths, List.length_map, List.length_append] at hlen
      exact List.length_eq_zero_iff.mp (by omega)
    rw [hpath] at hserves
    rw [htodo, List.append_nil] at hpaths
    subst hpaths
    have hsame := List.map_inj_left.mp (hpath.trans (List.map_id _).symm)
    exact ⟨fun path hmem => cString_eq_iff.mp (hsame path hmem), rfl, hserves⟩
  · rintro ⟨hnoNul, hall, hserves⟩
    have hall : done.map frame = paths.map frame := hall
    have htodo : todo = [] := by
      have hlen := congrArg List.length hall
      rw [hpaths, List.length_map, List.length_map, List.length_append] at hlen
      exact List.length_eq_zero_iff.mp (by omega)
    rw [htodo, List.append_nil] at hpaths
    subst hpaths
    have hpath : paths.map cString = paths :=
      (List.map_congr_left fun path hmem => cString_eq_iff.mpr (hnoNul path hmem)).trans
        (List.map_id _)
    rw [hpath, htodo] at hclient
    obtain ⟨-, hrun⟩ := hclient.resolve_right fun hnot => hnot.1 hserves
    exact ⟨congrArg Run.events hrun, congrArg Run.error hrun, congrArg Run.buffer hrun⟩

/-- One file is there, one is a directory, and `::send` takes every frame. -/
def oneFile : World where
  file path :=
    if path = [97] then .content [7] else if path = [46] then .unreadable "std::bad_alloc"
    else .absent
  sent _ data := data.length

/-- Two messages in one chunk: the second one stays in the buffer. -/
theorem not_handles_joined : ¬∀ (w : World) (paths requests : List Data),
    (∀ path ∈ paths, (Protocol.get path).Valid) → requests.flatten = (paths.map frame).flatten →
    w.ServesAll 0 paths → Handles w paths requests := by
  intro h
  have hvalid : (Protocol.get [97]).Valid := ⟨by decide, by decide⟩
  have hhandles := h oneFile [[97], [97]] [frame [97] ++ frame [97]]
    (by simp [hvalid]) (by decide)
    ⟨(by decide +kernel : oneFile.send 0 _ = none), (by decide +kernel : oneFile.send 1 _ = none),
      trivial⟩
  exact absurd hhandles.buffer (by decide +kernel)

theorem handles_iff_split : Handles oneFile [[97], [98]]
    [[3, 0, 0, 0, 0, 0, 0, 0, 1], [97, 0, 3, 0, 0], [0, 0, 0, 0, 0, 1, 98, 0]] := by
  apply (handles_iff (by decide) (by decide)).mpr
  have hfits : ∀ path ∈ [[97], [98]], (Protocol.get path).Fits := by decide
  exact ⟨by decide, (once_all_iff (distills_frame hfits) rfl (by decide)).mp (by decide),
    (by decide +kernel : oneFile.send 0 _ = none), (by decide +kernel : oneFile.send 1 _ = none),
    trivial⟩

end Course.Socket.Server
