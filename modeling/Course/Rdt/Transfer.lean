import Course.Rdt.Download

/-! Which download an acknowledgement was sent in, and which download the task
was created for whose packet it removes. -/

open Course.Lib

namespace Course.Rdt

variable {κ : Type}

/-- The download in which the client made the task of a handle, counted from
one; `starts` are the handles at which its downloads started. -/
def downloadOf (starts : List ℕ) (handle : ℕ) : ℕ := (starts.filter (· ≤ handle)).length

theorem downloadOf_append {starts : List ℕ} {start handle : ℕ} (h : handle < start) :
    downloadOf (starts ++ [start]) handle = downloadOf starts handle := by
  simp [downloadOf, h]

theorem downloadOf_eq_length {starts : List ℕ} {handle : ℕ} (h : ∀ n ∈ starts, n ≤ handle) :
    downloadOf starts handle = starts.length := by
  rw [downloadOf, List.filter_eq_self.mpr (by simpa using h)]

namespace Client

/-- Every acknowledgement the client ever sent is of a block that it received
in the download in which it sent it. -/
structure AcksAt (starts : List ℕ) (received : List (ℕ × ℕ)) (channel : Channel κ) (file : Data)
    (state : State) (block : ℕ) : Prop where
  nulFree : 0 ∉ file
  started : ∀ n ∈ starts, n ≤ channel.mHandle
  frames : channel.Carries fun handle task => handle < channel.mHandle ∧
    ∀ path block, Protocol.deserialize task.data = .ok (.acknowledge path block) →
      (downloadOf starts handle, block.toNat) ∈ received
  taken : state = .acknowledge → block < 2 ^ 64 ∧ (starts.length, block) ∈ received

abbrev Acks (starts : List ℕ) (received : List (ℕ × ℕ)) (c : Client κ) : Prop :=
  AcksAt starts received c.mChannel c.mFile c.mState c.mBlock

variable {starts : List ℕ} {received : List (ℕ × ℕ)} {channel : Channel κ} {file : Data}
  {state : State} {block : ℕ}

theorem AcksAt.goto (h : AcksAt starts received channel file state block) {state' : State}
    {block' : ℕ} (hs : state' ≠ .acknowledge) :
    AcksAt starts received channel file state' block' :=
  ⟨h.nulFree, h.started, h.frames, fun hack => absurd hack hs⟩

theorem AcksAt.terminate (h : AcksAt starts received channel file state block) (handle : ℕ) :
    AcksAt starts received (channel.terminate handle) file state block :=
  ⟨h.nulFree, h.started, h.frames.terminate handle, h.taken⟩

theorem AcksAt.timer (h : AcksAt starts received channel file state block) (handle : ℕ) :
    AcksAt starts received (channel.timer handle).1 file state block := by
  have hHandle : (channel.timer handle).1.mHandle = channel.mHandle := channel.timer_mHandle handle
  refine ⟨h.nulFree, ?_, ?_, h.taken⟩
  · rw [hHandle]
    exact h.started
  · rw [hHandle]
    exact h.frames.timer handle

theorem AcksAt.send (h : AcksAt starts received channel file state block) {m : Protocol}
    (hm : m.strings = [file])
    (hack : ∀ path block, m = .acknowledge path block → (starts.length, block.toNat) ∈ received)
    (address : κ) (timeout : ℤ) (retries : ℕ) :
    AcksAt starts received (channel.send ⟨m.serialize, address⟩ timeout retries).1 file state block := by
  have hnul : m.NulFree := fun s hs => by
    rw [hm, List.mem_singleton] at hs
    exact hs ▸ h.nulFree
  refine ⟨h.nulFree, fun n hn => ?_, ?_, h.taken⟩
  · rw [Channel.send_mHandle]
    exact (h.started n hn).trans (Nat.le_succ _)
  · rw [Channel.send_mHandle]
    refine (h.frames.mono fun handle task ht => ⟨ht.1.trans (Nat.lt_succ_self _), ht.2⟩).send
      ⟨Nat.lt_succ_self _, fun path block hd => ?_⟩ timeout retries
    rw [deserialize_serialize hnul] at hd
    cases hd
    rw [downloadOf_eq_length h.started]
    exact hack path block rfl

/-- Receiving a block before it is acknowledged. -/
theorem AcksAt.receive (h : AcksAt starts received channel file state block) {block' : ℕ}
    (hblock : block' < 2 ^ 64) :
    AcksAt starts ((starts.length, block') :: received) channel file .acknowledge block' :=
  ⟨h.nulFree, h.started,
    h.frames.mono fun _ _ ht => ⟨ht.1, fun path b hd => List.mem_cons_of_mem _ (ht.2 path b hd)⟩,
    fun _ => ⟨hblock, List.mem_cons_self⟩⟩

theorem AcksAt.download (h : AcksAt starts received channel file state block) {file' : Data}
    (hfile : 0 ∉ file') :
    AcksAt (starts ++ [channel.mHandle]) received channel file' .query block := by
  refine ⟨hfile, fun n hn => ?_, h.frames.mono fun handle task ht => ⟨ht.1, fun path b hd => ?_⟩,
    State.noConfusion⟩
  · rcases List.mem_append.mp hn with hn | hn
    · exact h.started n hn
    · exact (List.mem_singleton.mp hn).le
  · rw [downloadOf_append ht.1]
    exact ht.2 path b hd

theorem AcksAt.mono (h : AcksAt starts received channel file state block)
    {received' : List (ℕ × ℕ)} (hsub : received ⊆ received') :
    AcksAt starts received' channel file state block :=
  ⟨h.nulFree, h.started, h.frames.mono fun _ _ ht => ⟨ht.1, fun path b hd => hsub (ht.2 path b hd)⟩,
    fun hack => ⟨(h.taken hack).1, hsub (h.taken hack).2⟩⟩

/-- The history after a turn of `dispatch`: the block it takes is received. -/
def receives (download : ℕ) (received : List (ℕ × ℕ)) (c : Client κ) : List (ℕ × ℕ) :=
  match c.taken with
  | some (.data _ block _) => (download, block.toNat) :: received
  | _ => received

theorem subset_receives (download : ℕ) (received : List (ℕ × ℕ)) (c : Client κ) :
    received ⊆ c.receives download received := by
  unfold receives
  split
  · exact List.subset_cons_self _ _
  · exact List.Subset.refl _

theorem drain_same (n : ℕ) (c : Client κ) (complete : List ℕ) :
    (drain n c complete).1.mChannel = c.mChannel ∧ (drain n c complete).1.mFile = c.mFile ∧
      (drain n c complete).1.mBlock = c.mBlock := by
  induction n generalizing c complete with
  | zero => exact ⟨rfl, rfl, rfl⟩
  | succ n ih =>
    unfold drain
    split
    · exact ⟨rfl, rfl, rfl⟩
    · split
      · exact ⟨rfl, rfl, rfl⟩
      · exact ih _ _

/-- The handler of a block ends by acknowledging it or in an exception. -/
theorem receiveBlock_same (c : Client κ) (block : ℕ) (data : Data) :
    (caught (c.receiveBlock block data)).mChannel = c.mChannel ∧
      (caught (c.receiveBlock block data)).mFile = c.mFile ∧
      (caught (c.receiveBlock block data)).mBlock = block ∧
      ((caught (c.receiveBlock block data)).mState = .acknowledge ∨
        (caught (c.receiveBlock block data)).mState = .idle) := by
  unfold receiveBlock
  split
  · exact ⟨rfl, rfl, rfl, .inl rfl⟩
  · simp only
    generalize hstored : { c with mCache := c.mCache.insert block data, mBlock := block } = stored
    have hsame := drain_same (stored.mCache.entries.length + 1) stored []
    rw [← hstored] at hsame
    subst hstored
    split
    next hdrain =>
      rw [hdrain] at hsame
      exact ⟨hsame.1, hsame.2.1, hsame.2.2, .inr rfl⟩
    next hdrain =>
      rw [hdrain] at hsame
      exact ⟨hsame.1, hsame.2.1, hsame.2.2, .inl rfl⟩

/-- `wait` ends a request or leaves the channel alone. -/
theorem Acks.wait {c : Client κ} (h : c.Acks starts received) (hstate : c.mState ≠ .idle)
    (type : ProtocolType) :
    (c.wait type).1.Acks starts received := by
  rcases wait_cases c type hstate with hwait | ⟨m, rest, -, ⟨-, hwait⟩ | ⟨-, hwait⟩⟩
  · rw [hwait]
    exact h
  · rw [hwait]
    exact (h.terminate _).goto State.noConfusion
  · rw [hwait]
    exact h.terminate _

theorem Acks.size {c : Client κ} (h : c.Acks starts received) (hstate : c.mState ≠ .idle) :
    c.size.Acks starts received := by
  have hwait := h.wait hstate .size
  unfold Client.size
  split
  next hw =>
    rw [hw] at hwait
    split
    · exact hwait.goto State.noConfusion
    · exact hwait
  next hw =>
    rw [hw] at hwait
    exact hwait

theorem Acks.start {c : Client κ} (h : c.Acks starts received) (hstate : c.mState ≠ .idle)
    (opened : Bool) : (c.start opened).Acks starts received := by
  have hwait := h.wait hstate .start
  unfold Client.start
  split
  next hw =>
    rw [hw] at hwait
    simp only
    split
    · exact hwait.goto State.noConfusion
    · exact hwait.goto State.noConfusion
  next hw =>
    rw [hw] at hwait
    exact hwait

theorem Acks.data {c : Client κ} (h : c.Acks starts received) (hstate : c.mState = .data) :
    c.data.Acks starts (c.receives starts.length received) := by
  have hidle : c.mState ≠ .idle := by rw [hstate]; decide
  have hsub := c.subset_receives starts.length received
  rcases wait_cases c .data hidle with hwait | ⟨m, rest, hqueue, ⟨-, hwait⟩ | ⟨htype, hwait⟩⟩
  · rw [Client.data, hwait]
    exact h.mono hsub
  · rw [Client.data, hwait]
    exact ((h.terminate _).goto State.noConfusion).mono hsub
  · rw [Client.data, hwait]
    cases m
    case data path block data =>
      have htaken := taken_data hstate hqueue htype
      have hreceives : c.receives starts.length received =
          (starts.length, block.toNat) :: received := by rw [receives, htaken]
      obtain ⟨hchannel, hfile, hblock, hend⟩ := receiveBlock_same
        { c with mProtocols := rest, mChannel := c.mChannel.terminate c.mHandle } block.toNat data
      simp only [Acks, hreceives, hchannel, hfile, hblock]
      have hreceive := (h.terminate c.mHandle).receive block.toNat_lt
      rcases hend with hend | hend
      · rw [hend]
        exact hreceive
      · rw [hend]
        exact hreceive.goto State.noConfusion
    all_goals cases htype

theorem Acks.request {c : Client κ} (h : c.Acks starts received) {m : Protocol}
    (hm : m.strings = [c.mFile])
    (hack : ∀ path block, m = .acknowledge path block → (starts.length, block.toNat) ∈ received)
    {state : State} (hs : state ≠ .acknowledge) :
    Acks starts received { c.request m with mState := state } :=
  (h.send hm hack _ _ _).goto hs

theorem Acks.acknowledge {c : Client κ} (h : c.Acks starts received)
    (hstate : c.mState = .acknowledge) : c.acknowledge.Acks starts received := by
  obtain ⟨hlt, hmem⟩ := h.taken hstate
  have hblock : (UInt64.ofNat c.mBlock).toNat = c.mBlock := by
    rw [UInt64.toNat_ofNat', Nat.mod_eq_of_lt hlt]
  have hsend := h.send (m := .acknowledge c.mFile (.ofNat c.mBlock)) rfl
    (fun path block heq => by
      obtain ⟨-, hb⟩ := Protocol.acknowledge.inj heq
      rwa [← hb, hblock])
    c.mAddress 1 0
  refine hsend.goto ?_
  simp only [Client.acknowledge]
  split <;> exact State.noConfusion

theorem Acks.caught {c : Client κ} (h : c.Acks starts received) (e : ChecksumError) :
    (caught (c, some e)).Acks starts received := by
  have hidle : AcksAt starts received c.mChannel c.mFile .idle c.mBlock :=
    h.goto State.noConfusion
  exact hidle

theorem Acks.checksum {c : Client κ} (h : c.Acks starts received) :
    c.checksum.Acks starts received := by
  have hfinal : Acks starts received { c with mChecksum := c.mChecksum.finalize } := h
  unfold Client.checksum
  simp only
  split
  next e _ => exact Acks.caught hfinal e
  next digest _ =>
    exact Acks.request hfinal (m := .checksum c.mFile digest) rfl (fun _ _ heq => by cases heq)
      State.noConfusion

theorem Acks.confirm {c : Client κ} (h : c.Acks starts received) (hstate : c.mState ≠ .idle) :
    c.confirm.Acks starts received := by
  have hwait := Acks.wait h hstate .confirm
  unfold Client.confirm
  split
  next hw =>
    rw [hw] at hwait
    exact hwait.goto State.noConfusion
  next hw =>
    rw [hw] at hwait
    exact hwait

theorem Acks.error {c : Client κ} (h : c.Acks starts received) : c.error.Acks starts received := by
  unfold Client.error
  split
  · exact h.goto State.noConfusion
  · exact h

theorem Acks.dispatch {c : Client κ} (h : c.Acks starts received) (opened : Bool) :
    (c.dispatch opened).Acks starts (c.receives starts.length received) := by
  have hsub := c.subset_receives starts.length received
  unfold Client.dispatch
  split
  next => exact h.mono hsub
  next =>
    exact (Acks.request h (m := .query c.mFile) rfl (fun _ _ heq => by cases heq)
      State.noConfusion).mono hsub
  next hstate => exact (Acks.size h (by rw [hstate]; decide)).mono hsub
  next =>
    exact (Acks.request h (m := .get c.mFile) rfl (fun _ _ heq => by cases heq)
      State.noConfusion).mono hsub
  next hstate => exact (Acks.start h (by rw [hstate]; decide) opened).mono hsub
  next hstate => exact Acks.data h hstate
  next hstate => exact (Acks.acknowledge h hstate).mono hsub
  next => exact (Acks.checksum h).mono hsub
  next hstate => exact (Acks.confirm h (by rw [hstate]; decide)).mono hsub
  next => exact (Acks.error h).mono hsub

theorem Acks.becomeIdle {c : Client κ} (h : c.Acks starts received) (lost : Bool) :
    (c.becomeIdle lost).Acks starts received := by
  unfold Client.becomeIdle
  split
  · exact h
  · exact h.goto State.noConfusion

theorem Acks.onReceive {c c' : Client κ} (h : c.Acks starts received) {data : Data} {lost : Bool}
    (hc : c.onReceive data lost = some c') : c'.Acks starts received := by
  unfold Client.onReceive at hc
  split at hc
  · cases hc
    exact h
  next what _ =>
    cases hc
    have hreport : (c.report (.error what)).Acks starts received := h
    exact Acks.becomeIdle hreport lost
  · cases hc

end Client

/-! ### The history of a run -/

/-- A run of the system with its history: the handles at which the downloads
started, the download whose `Get` created the client's task, and the blocks
that the client received, each with the download it received it in. -/
structure Traced (κ : Type) where
  system : System κ
  starts : List ℕ
  creator : ℕ
  received : List (ℕ × ℕ)

namespace Traced

variable [DecidableEq κ] {files : Files} {host home : κ}

def new (memory : Client.Uninitialized) (serverTimeout : ℤ) (serverRetries : ℕ)
    (clientTimeout : ℤ) (clientRetries : ℕ) (host : κ) : Traced κ where
  system := .new memory serverTimeout serverRetries clientTimeout clientRetries host
  starts := []
  creator := 0
  received := []

/-- The history grows beside the system and does not act on it. -/
def step (files : Files) (host home : κ) (s : Traced κ) (e : System.Event κ) :
    Option (Traced κ) :=
  (s.system.step files host home e).map fun system =>
    match e with
    | .download .. =>
      if s.system.client.client.mState = .idle then
        { s with system, starts := s.starts ++ [s.system.client.client.mChannel.mHandle] }
      else { s with system }
    | .client (.dispatch _) =>
      { s with
        system
        received := s.system.client.client.receives s.starts.length s.received }
    | .toServer i _ =>
      match s.system.client.client.mChannel.sent[i]? with
      | none => { s with system }
      | some frame =>
        if home ∉ s.system.server.server.mTasks ∧ home ∈ system.server.server.mTasks then
          { s with system, creator := downloadOf s.starts frame.handle }
        else { s with system }
    | _ => { s with system }

def machine (files : Files) (host home : κ) : Machine (Traced κ) (System.Event κ) :=
  ⟨step files host home⟩

def Acks (s : Traced κ) : Prop := s.system.client.client.Acks s.starts s.received

omit [DecidableEq κ] in
theorem acks_new (memory : Client.Uninitialized) (serverTimeout : ℤ) (serverRetries : ℕ)
    (clientTimeout : ℤ) (clientRetries : ℕ) (host : κ) :
    (new memory serverTimeout serverRetries clientTimeout clientRetries host).Acks where
  nulFree := List.not_mem_nil
  started := by simp [new]
  frames := Channel.carries_new
  taken := Client.State.noConfusion

theorem Acks.step {s t : Traced κ} {e : System.Event κ} (h : s.Acks)
    (hstep : s.step files host home e = some t) : t.Acks := by
  obtain ⟨system, hsystem, rfl⟩ := Option.map_eq_some_iff.mp hstep
  cases e with
  | download file destination =>
    rw [System.step] at hsystem
    simp only
    split
    next hidle =>
      rw [if_pos hidle] at hsystem
      cases hsystem
      exact Client.AcksAt.download h file.2
    next hidle =>
      rw [if_neg hidle] at hsystem
      cases hsystem
      exact h
  | toServer i now =>
    have hclient : system.client = s.system.client := by
      rw [System.step] at hsystem
      split at hsystem
      · cases hsystem
        rfl
      · split at hsystem
        · obtain ⟨_, _, rfl⟩ := Option.map_eq_some_iff.mp hsystem
          rfl
        · cases hsystem
          rfl
    have hacks : system.client.client.Acks s.starts s.received := by
      rw [hclient]
      exact h
    simp only
    split
    · exact hacks
    · split
      · exact hacks
      · exact hacks
  | toClient i lost =>
    rw [System.step] at hsystem
    split at hsystem
    · cases hsystem
      exact h
    · split at hsystem
      · obtain ⟨client, hclient, rfl⟩ := Option.map_eq_some_iff.mp hsystem
        exact Client.Acks.onReceive h hclient
      · cases hsystem
        exact h
  | server turn =>
    cases hsystem
    exact h
  | client turn =>
    cases hsystem
    cases turn with
    | dispatch opened => exact Client.Acks.dispatch h opened
    | timer handle => exact Client.AcksAt.timer h handle
    | callback i lost =>
      change (s.system.client.turn (.callback i lost)).client.Acks s.starts s.received
      rw [Client.Running.turn]
      split
      · exact h
      next callback _ =>
        cases callback with
        | retry task => exact h
        | timeout task => exact Client.Acks.becomeIdle (Client.AcksAt.terminate h _) lost

/-! ### Removed packets -/

/-- Delivering frame `i` of the client to the server removes block `k` from the
packets of the client's task. -/
def Removes (home : κ) (s t : System κ) (i k : ℕ) : Prop :=
  (∃ frame path block, s.client.client.mChannel.sent[i]? = some frame ∧
    Protocol.deserialize frame.task.data = .ok (.acknowledge path block)) ∧
  (∃ task, s.server.server.mTasks.lookup home = some task ∧ k ∈ task.packets) ∧
  ∃ task, t.server.server.mTasks.lookup home = some task ∧ k ∉ task.packets

/-- An acknowledgement that reaches a live task was sent in the download whose
`Get` created that task. -/
def AcksOwn (home : κ) (s : Traced κ) : System.Event κ → Prop
  | .toServer i _ =>
    ∀ frame path block, s.system.client.client.mChannel.sent[i]? = some frame →
      Protocol.deserialize frame.task.data = .ok (.acknowledge path block) →
      home ∈ s.system.server.server.mTasks → downloadOf s.starts frame.handle = s.creator
  | _ => True

/-- The block that `onAcknowledge` removes is the one that is acknowledged. -/
theorem onAcknowledge_removes {s : Server κ} {client : κ} {block k : ℕ} {now : ℤ}
    {task task' : Server.Task} (htask : s.mTasks.lookup client = some task)
    (hk : k ∈ task.packets) (htask' : (s.onAcknowledge client block now).mTasks.lookup client = some task')
    (hk' : k ∉ task'.packets) : block = k := by
  unfold Server.onAcknowledge at htask'
  rw [htask] at htask'
  simp only at htask'
  split at htask'
  · rw [htask] at htask'
    cases htask'
    exact absurd hk hk'
  · rw [AList.lookup_insert, Option.some.injEq] at htask'
    subst htask'
    by_contra hne
    exact hk' (AList.mem_erase.mpr ⟨Ne.symm hne, hk⟩)

/-- In a run whose acknowledgements reach their own task, a block that is
removed from the packets of a task was received in the download of the task. -/
theorem run_removed_received (files : Files) (host home : κ) (memory : Client.Uninitialized)
    (serverTimeout : ℤ) (serverRetries : ℕ) (clientTimeout : ℤ) (clientRetries : ℕ)
    (es : List (System.Event κ)) (s t : Traced κ) (i : ℕ) (now : ℤ) (k : ℕ)
    (hrun : Machine.Run (machine files host home) (AcksOwn home)
      (new memory serverTimeout serverRetries clientTimeout clientRetries host) es s)
    (hown : AcksOwn home s (.toServer i now))
    (hstep : s.step files host home (.toServer i now) = some t)
    (hremoves : Removes home s.system t.system i k) : (s.creator, k) ∈ s.received := by
  have hacks : s.Acks :=
    hrun.invariant (I := Acks) (fun _ _ _ hs _ hstep => hs.step hstep) (acks_new _ _ _ _ _ _)
  obtain ⟨⟨frame, path, block, hframe, hdata⟩, ⟨task, htask, hk⟩, task', htask', hk'⟩ := hremoves
  have hhome : home ∈ s.system.server.server.mTasks := AList.lookup_isSome.mp (by rw [htask]; rfl)
  have hreceived := (hacks.frames.sent frame (List.mem_of_getElem? hframe)).2 path block hdata
  rw [hown frame path block hframe hdata hhome] at hreceived
  obtain ⟨system, hsystem, rfl⟩ := Option.map_eq_some_iff.mp hstep
  have hserver : system.server.server.mTasks.lookup home = some task' := by
    simp only [hframe] at htask'
    split at htask' <;> exact htask'
  rw [System.step, hframe] at hsystem
  simp only at hsystem
  split at hsystem
  · obtain ⟨server, hreceive, rfl⟩ := Option.map_eq_some_iff.mp hsystem
    rw [Server.onReceive, hdata] at hreceive
    cases hreceive
    rwa [onAcknowledge_removes htask hk hserver hk'] at hreceived
  · cases hsystem
    rw [htask] at hserver
    cases hserver
    exact absurd hk hk'

instance decidableAcksOwn (home : κ) (s : Traced κ) : DecidablePred (AcksOwn home s)
  | .toServer i _ =>
    match hframe : s.system.client.client.mChannel.sent[i]? with
    | none => isTrue fun _ _ _ h => by rw [hframe] at h; cases h
    | some frame =>
      match hdata : Protocol.deserialize frame.task.data with
      | .ok (.acknowledge path block) =>
        decidable_of_iff (home ∈ s.system.server.server.mTasks →
            downloadOf s.starts frame.handle = s.creator)
          ⟨fun h _ _ _ hf _ => by rw [hframe] at hf; cases hf; exact h,
            fun h => h frame path block hframe hdata⟩
      | .error _ | .ok (.query _) | .ok (.size ..) | .ok (.get _) | .ok (.start _) | .ok (.data ..)
      | .ok (.checksum ..) | .ok (.confirm _) | .ok (.error ..) =>
        isTrue fun _ _ _ hf hd => by rw [hframe] at hf; cases hf; rw [hdata] at hd; cases hd
  | .download .. | .toClient .. | .server _ | .client _ => isTrue trivial

theorem removes_of_any {s t : System κ} {i k : ℕ} (path : Data) (block : UInt64)
    (hframe : (s.client.client.mChannel.sent[i]?).any (fun frame =>
      decide (Protocol.deserialize frame.task.data = .ok (.acknowledge path block))) = true)
    (hbefore : (s.server.server.mTasks.lookup home).any (fun task => decide (k ∈ task.packets)) = true)
    (hafter : (t.server.server.mTasks.lookup home).any (fun task => decide (k ∉ task.packets)) = true) :
    Removes home s t i k := by
  obtain ⟨frame, hframe, hdata⟩ := (Option.any_eq_true _ _).mp hframe
  obtain ⟨task, htask, hk⟩ := (Option.any_eq_true _ _).mp hbefore
  obtain ⟨task', htask', hk'⟩ := (Option.any_eq_true _ _).mp hafter
  exact ⟨⟨frame, path, block, hframe, of_decide_eq_true hdata⟩,
    ⟨task, htask, of_decide_eq_true hk⟩, task', htask', of_decide_eq_true hk'⟩

/-- The acknowledgement of the one block reaches the task that sent it. -/
theorem run_removed_received_oneBlock :
    ∃ s t : Traced ℕ,
      (machine System.twoFiles 0 1).exec (new System.leftover 1000 5 1000 5 0) System.downloadA =
          some s ∧
        s.step System.twoFiles 0 1 (.toServer 2 0) = some t ∧ Removes 1 s.system t.system 2 0 ∧
        (s.creator, 0) ∈ s.received := by
  let s := ((machine System.twoFiles 0 1).execWhile (AcksOwn 1)
    (new System.leftover 1000 5 1000 5 0) System.downloadA).get (by decide +kernel)
  let t := (s.step System.twoFiles 0 1 (.toServer 2 0)).get (by decide +kernel)
  have hrun : Machine.Run (machine System.twoFiles 0 1) (AcksOwn 1)
      (new System.leftover 1000 5 1000 5 0) System.downloadA s :=
    Machine.run_iff_execWhile.mpr (Option.some_get _).symm
  have hstep : s.step System.twoFiles 0 1 (.toServer 2 0) = some t := (Option.some_get _).symm
  have hremoves : Removes 1 s.system t.system 2 0 :=
    removes_of_any System.fileA.1 0 (by decide +kernel) (by decide +kernel) (by decide +kernel)
  exact ⟨s, t, Machine.run_iff_exec.mp (hrun.mono fun _ _ _ => trivial), hstep, hremoves,
    run_removed_received System.twoFiles 0 1 System.leftover 1000 5 1000 5 _ s t 2 0 0 hrun
      (by decide +kernel) hstep hremoves⟩

/-- The file is downloaded again, up to the server's first block. -/
def downloadAgain : List (System.Event ℕ) :=
  [.download System.fileA [], .client (.dispatch true), .toServer 4 0, .toClient 4 false,
    .client (.dispatch true), .client (.dispatch true), .toServer 5 0, .server (.worker [1] 0)]

/-- The acknowledgement of the first download removes the block of the second,
which the client has not received. -/
theorem exec_removed_not_received :
    ¬∀ (files : Files) (host home : ℕ) (memory : Client.Uninitialized) (serverTimeout : ℤ)
      (serverRetries : ℕ) (clientTimeout : ℤ) (clientRetries : ℕ) (es : List (System.Event ℕ))
      (s t : Traced ℕ) (i : ℕ) (now : ℤ) (k : ℕ),
      (machine files host home).exec
        (new memory serverTimeout serverRetries clientTimeout clientRetries host) es = some s →
      s.step files host home (.toServer i now) = some t →
      Removes home s.system t.system i k → (s.creator, k) ∈ s.received := by
  intro h
  let s := ((machine System.twoFiles 0 1).exec (new System.leftover 1000 5 1000 5 0)
    (System.downloadA ++ System.confirmA ++ downloadAgain)).get (by decide +kernel)
  let t := (s.step System.twoFiles 0 1 (.toServer 2 0)).get (by decide +kernel)
  have hremoves : Removes 1 s.system t.system 2 0 :=
    removes_of_any System.fileA.1 0 (by decide +kernel) (by decide +kernel) (by decide +kernel)
  have hreceived := h System.twoFiles 0 1 System.leftover 1000 5 1000 5 _ s t 2 0 0
    (Option.some_get _).symm (Option.some_get _).symm hremoves
  exact absurd hreceived (by decide +kernel)

end Traced

end Course.Rdt
