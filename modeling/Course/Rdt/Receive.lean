import Course.Rdt.Client
import Course.Rdt.Truthful

/-! What the client has written while it takes true messages about the file it
asked for, in every state of its download. -/

open Course.Lib

namespace Course.Rdt

variable {κ : Type} {files : Files} {paths : Set Data} {started : Prop} {content : Data}

theorem length_take_fileBlock (content : Data) {k : ℕ} (h : k * Server.sBlockSize < content.length) :
    (content.take (k * Server.sBlockSize)).length = k * Server.sBlockSize := by
  rw [List.length_take, Nat.min_eq_left h.le]

theorem take_append_fileBlock (content : Data) (k : ℕ) :
    content.take (k * Server.sBlockSize) ++ fileBlock content k =
      content.take ((k + 1) * Server.sBlockSize) := by
  rw [fileBlock, ← List.take_add, Nat.succ_mul]

namespace Client

/-- A block that the file has, with its bytes. -/
def IsBlock (content : Data) (k : ℕ) (data : Data) : Prop :=
  k * Server.sBlockSize < content.length ∧ data = fileBlock content k

/-- The output is a prefix of the file, and the cache holds blocks behind it. -/
structure HoldsPrefix (content written : Data) (next : ℕ) (cache : AList fun _ : ℕ => Data) :
    Prop where
  written : written = content.take (next * Server.sBlockSize)
  cache : ∀ k data, cache.lookup k = some data → next < k ∧ IsBlock content k data

abbrev Holds (content : Data) (c : Client κ) : Prop :=
  HoldsPrefix content c.mOutput.written c.mNext c.mCache

/-! ### The loop that writes the blocks in order -/

/-- `Holds` inside the loop: blocks already written are in the cache still. -/
structure Draining (content : Data) (c : Client κ) (complete : List ℕ) : Prop where
  isOpen : c.mOutput.isOpen = true
  written : c.mOutput.written = content.take (c.mNext * Server.sBlockSize)
  checksum : c.mChecksum.Represents c.mOutput.written
  cache : ∀ k data, c.mCache.lookup k = some data → IsBlock content k data
  done : ∀ k ∈ c.mCache, k < c.mNext → k ∈ complete

/-- One turn: the block `mNext` goes from the cache to the output. -/
theorem Draining.step {c : Client κ} {complete : List ℕ} (h : c.Draining content complete)
    {data : Data} (hdata : c.mCache.lookup c.mNext = some data) :
    ∃ mChecksum, c.mChecksum.update data = .ok mChecksum ∧ ∀ output,
      ({ c with
          mOutput := c.mOutput.write data
          mChecksum
          mNext := c.mNext + 1 }.report output).Draining content (complete ++ [c.mNext]) := by
  obtain ⟨hlt, rfl⟩ := h.cache _ _ hdata
  have hlen : c.mOutput.written.length = c.mNext * Server.sBlockSize := by
    rw [h.written, length_take_fileBlock content hlt]
  obtain ⟨mChecksum, hupdate, hrep⟩ := h.checksum.update (fileBlock content c.mNext)
    (.inl (by rw [hlen]; exact (show 64 ∣ Server.sBlockSize by decide).mul_left _))
  refine ⟨mChecksum, hupdate, fun output => ⟨h.isOpen, ?_, hrep, h.cache, fun k hk hlt => ?_⟩⟩
  · change c.mOutput.written ++ _ = _
    rw [h.written, take_append_fileBlock]
    rfl
  · rcases Nat.lt_succ_iff_lt_or_eq.mp hlt with hlt | rfl
    · exact List.mem_append_left _ (h.done k hk hlt)
    · exact List.mem_append_right _ (List.mem_singleton_self _)

/-- What the loop does not touch. -/
structure SameDownload (c c' : Client κ) : Prop where
  state : c'.mState = c.mState
  channel : c'.mChannel = c.mChannel
  protocols : c'.mProtocols = c.mProtocols
  file : c'.mFile = c.mFile
  size : c'.mSize = c.mSize
  block : c'.mBlock = c.mBlock
  cache : c'.mCache = c.mCache
  log : ∃ l, c'.log = c.log ++ l ∧ ∀ file size written, .finish file size written ∉ l

theorem SameDownload.refl (c : Client κ) : SameDownload c c :=
  ⟨rfl, rfl, rfl, rfl, rfl, rfl, rfl, [], by simp, by simp⟩

theorem SameDownload.trans {a b c : Client κ} (hab : SameDownload a b) (hbc : SameDownload b c) :
    SameDownload a c := by
  obtain ⟨l, hl, hl'⟩ := hab.log
  obtain ⟨r, hr, hr'⟩ := hbc.log
  refine ⟨hbc.state.trans hab.state, hbc.channel.trans hab.channel,
    hbc.protocols.trans hab.protocols, hbc.file.trans hab.file, hbc.size.trans hab.size,
    hbc.block.trans hab.block, hbc.cache.trans hab.cache, l ++ r, ?_, fun file size written => ?_⟩
  · rw [hr, hl, List.append_assoc]
  · simp [hl', hr']

/-- The blocks in the cache from `n` on. -/
def blocksFrom (cache : AList fun _ : ℕ => Data) (n : ℕ) : ℕ :=
  (cache.keys.filter (n ≤ ·)).length

theorem blocksFrom_le (cache : AList fun _ : ℕ => Data) (n : ℕ) :
    blocksFrom cache n ≤ cache.entries.length := by
  refine (List.length_filter_le _ _).trans (le_of_eq ?_)
  simp [AList.keys, List.keys]

theorem blocksFrom_succ_lt {cache : AList fun _ : ℕ => Data} {n : ℕ} (h : n ∈ cache) :
    blocksFrom cache (n + 1) < blocksFrom cache n := by
  have hfilter : cache.keys.filter (n + 1 ≤ ·) =
      (cache.keys.filter (n ≤ ·)).filter (n + 1 ≤ ·) := by
    rw [List.filter_filter]
    apply List.filter_congr
    intro k _
    simp only [← Bool.decide_and]
    exact decide_eq_decide.mpr ⟨fun h => ⟨h, by omega⟩, fun h => h.1⟩
  rw [blocksFrom, hfilter]
  apply List.length_filter_lt_length_iff_exists.mpr
  exact ⟨n, List.mem_filter.mpr ⟨AList.mem_keys.mp h, by simp⟩, by simp⟩

/-- With a turn for every block of the cache the loop ends at a missing one. -/
theorem Draining.drain {n : ℕ} {c : Client κ} {complete : List ℕ}
    (h : c.Draining content complete) (hn : blocksFrom c.mCache c.mNext < n) :
    ∃ c' complete', drain n c complete = (c', complete', none) ∧
      c'.Draining content complete' ∧ SameDownload c c' ∧ c'.mNext ∉ c'.mCache ∧
      c.mNext ≤ c'.mNext ∧ ∀ k ∈ complete', k ∈ complete ∨ k < c'.mNext := by
  induction n generalizing c complete with
  | zero => omega
  | succ n ih =>
    rw [Client.drain]
    cases hlookup : c.mCache.lookup c.mNext with
    | none =>
      exact ⟨c, complete, rfl, h, .refl c, AList.lookup_eq_none.mp hlookup, le_rfl,
        fun k hk => .inl hk⟩
    | some data =>
      have hmem : c.mNext ∈ c.mCache := AList.lookup_isSome.mp (by rw [hlookup]; rfl)
      obtain ⟨mChecksum, hupdate, hstep⟩ := h.step hlookup
      have hlt := blocksFrom_succ_lt hmem
      simp only [hupdate]
      obtain ⟨c', complete', hdrain, hd, hsame, hnext, hle, hnew⟩ := ih
        (hstep (.progress c.mSize (c.mOutput.write data).tellp)) (by
          change blocksFrom c.mCache (c.mNext + 1) < n
          omega)
      change c.mNext + 1 ≤ c'.mNext at hle
      refine ⟨c', complete', hdrain, hd, .trans ?_ hsame, hnext, by omega, fun k hk => ?_⟩
      · exact ⟨rfl, rfl, rfl, rfl, rfl, rfl, rfl, [_], rfl, by simp⟩
      · rcases hnew k hk with hk | hk
        · rcases List.mem_append.mp hk with hk | hk
          · exact .inl hk
          · obtain rfl := List.mem_singleton.mp hk
            exact .inr (by omega)
        · exact .inr hk

theorem lookup_foldl_erase (complete : List ℕ) (cache : AList fun _ : ℕ => Data) (k : ℕ) :
    (complete.foldl (fun cache block => cache.erase block) cache).lookup k =
      if k ∈ complete then none else cache.lookup k := by
  induction complete generalizing cache with
  | nil => simp
  | cons block complete ih =>
    rw [List.foldl_cons, ih]
    rcases eq_or_ne k block with rfl | hne
    · simp
    · simp [AList.lookup_erase_ne hne, hne]

/-- What the handler of a block leaves, for a true block of the file. -/
theorem receiveBlock_spec {c : Client κ} (hopen : c.mOutput.isOpen = true)
    (hholds : c.Holds content) (hchecksum : c.mChecksum.Represents c.mOutput.written) {k : ℕ}
    {data : Data} (hblock : IsBlock content k data) :
    ∃ c', c.receiveBlock k data = (c', none) ∧ c'.mState = .acknowledge ∧
      c'.mOutput.isOpen = true ∧ c'.Holds content ∧
      c'.mChecksum.Represents c'.mOutput.written ∧ c'.mBlock = k ∧
      c'.mChannel = c.mChannel ∧ c'.mProtocols = c.mProtocols ∧ c'.mFile = c.mFile ∧
      c'.mSize = c.mSize ∧
      ∃ l, c'.log = c.log ++ l ∧ ∀ file size written, .finish file size written ∉ l := by
  unfold receiveBlock
  split
  · exact ⟨_, rfl, rfl, hopen, ⟨hholds.written, hholds.cache⟩, hchecksum, rfl, rfl, rfl, rfl, rfl,
      [], by simp, by simp⟩
  next hnew =>
    push Not at hnew
    have hdraining : Draining content { c with mCache := c.mCache.insert k data, mBlock := k } [] := by
      refine ⟨hopen, hholds.written, hchecksum, fun k' data' hlookup => ?_, fun k' hk' hlt => ?_⟩
      · rcases eq_or_ne k' k with rfl | hne
        · rw [AList.lookup_insert, Option.some.injEq] at hlookup
          exact hlookup ▸ hblock
        · rw [AList.lookup_insert_ne hne] at hlookup
          exact (hholds.cache k' data' hlookup).2
      · -- nothing in the cache is behind `mNext`
        change k' < c.mNext at hlt
        rcases (AList.mem_insert _).mp hk' with rfl | hk'
        · exact absurd hlt hnew.1.not_gt
        · obtain ⟨data', hdata'⟩ := Option.isSome_iff_exists.mp (AList.lookup_isSome.mpr hk')
          exact absurd hlt (hholds.cache k' data' hdata').1.not_gt
    obtain ⟨c', complete, hdrain, hd, hsame, hnext, -, hcomplete⟩ :=
      hdraining.drain (Nat.lt_succ_of_le (blocksFrom_le _ _))
    simp only [hdrain]
    refine ⟨_, rfl, rfl, hd.isOpen, ⟨hd.written, fun k' data' hlookup => ?_⟩, hd.checksum,
      hsame.block, hsame.channel, hsame.protocols, hsame.file, hsame.size, hsame.log⟩
    rw [lookup_foldl_erase] at hlookup
    split at hlookup
    · cases hlookup
    next hk' =>
      have hmem : k' ∈ c'.mCache := AList.lookup_isSome.mp (by rw [hlookup]; rfl)
      refine ⟨Nat.lt_of_le_of_ne ?_ fun h => hnext (h ▸ hmem), hd.cache k' data' hlookup⟩
      exact Nat.le_of_not_lt fun hlt => hk' (hd.done k' hmem hlt)

/-! ### The states -/

/-- The message that the handler of the state takes from the queue, where it is
one that carries part of the file. -/
def taken (c : Client κ) : Option Protocol :=
  match c.mState with
  | .size => (awaited .size c.mProtocols).head?.filter (·.type = .size)
  | .data => (awaited .data c.mProtocols).head?.filter (·.type = .data)
  | _ => none

/-- The message taken is about the file of the current download. -/
def OnPath (c : Client κ) : Prop := ∀ m, c.taken = some m → m.path = c.mFile

/-- `size` has taken the size of the file. -/
def Sized (files : Files) (content : Data) (c : Client κ) : Prop :=
  files.content c.mFile = some content ∧ c.mSize = content.length

/-- What each state promises of the download. -/
def Phase (files : Files) (c : Client κ) : Prop :=
  match c.mState with
  | .idle | .error => True
  | .query | .size => c.mCache = ∅ ∧ c.mOutput.isOpen = false
  | .get | .start =>
    (c.mCache = ∅ ∧ c.mOutput.isOpen = false) ∧ ∃ content, c.Sized files content
  | .data | .acknowledge => ∃ content, c.Sized files content ∧ c.mOutput.isOpen = true ∧
      c.Holds content ∧ c.mChecksum.Represents c.mOutput.written
  | .checksum => ∃ content, c.Sized files content ∧ c.mOutput.written = content ∧
      c.mChecksum.Represents content
  | .confirm => ∃ content, c.Sized files content ∧ c.mOutput.written = content

/-- The states up to the first `start`. -/
def State.early : State → Bool
  | .data | .acknowledge | .checksum | .confirm => false
  | .idle | .query | .size | .get | .start | .error => true

/-- Nothing was received yet. -/
structure UnstartedAt (written : Data) (cache : AList fun _ : ℕ => Data) (state : State) :
    Prop where
  written : written = []
  cache : cache = ∅
  early : state.early = true

abbrev Unstarted (c : Client κ) : Prop := UnstartedAt c.mOutput.written c.mCache c.mState

/-- In this turn `start` takes its message, and sets `mNext`. -/
def Starts (c : Client κ) : Prop := c.mState = .start ∧ (c.wait .start).2 = some true

/-- `started` tells whether `start` has taken its message in some turn. -/
structure Sound (files : Files) (paths : Set Data) (started : Prop) (c : Client κ) : Prop where
  queue : ∀ m ∈ c.mProtocols, m.path ∈ paths ∧ Truthful files m
  named : c.mState ≠ .idle → Named paths c.mFile
  channel : c.mChannel.Carries fun _ task => Says files paths task.data
  buffer : c.mChecksum.buffer.length = 64
  finished : ∀ file size written, .finish file size written ∈ c.log →
    files.content file = some written
  single : started → ∀ content, (∀ path ∈ paths, files.content path = some content) →
    c.Holds content
  unstarted : ¬started → c.Unstarted
  phase : c.Phase files

theorem mem_of_mem_awaited {type : ProtocolType} {queue : List Protocol} {m : Protocol}
    (h : m ∈ awaited type queue) : m ∈ queue := (List.dropWhile_sublist _).subset h

theorem awaited_type {type : ProtocolType} {queue rest : List Protocol} {m : Protocol}
    (h : awaited type queue = m :: rest) : m.type = type ∨ m.type = .error := by
  have hhead := List.head?_dropWhile_not
    (fun m : Protocol => decide (m.type ≠ type ∧ m.type ≠ .error)) queue
  rw [awaited] at h
  rw [h] at hhead
  simp only [List.head?_cons, ne_eq, decide_eq_false_iff_not, not_and, not_not] at hhead
  exact or_iff_not_imp_left.mpr hhead

/-- How `wait` ends outside `State::Idle`. -/
theorem wait_cases (c : Client κ) (type : ProtocolType) (h : c.mState ≠ .idle) :
    c.wait type = ({ c with mProtocols := [] }, none) ∨
    ∃ m rest, awaited type c.mProtocols = m :: rest ∧
      (m.type = .error ∧ c.wait type =
          ({ c with
              mProtocols := m :: rest
              mChannel := c.mChannel.terminate c.mHandle
              mState := .error }, some false) ∨
        m.type = type ∧ c.wait type =
          ({ c with
              mProtocols := m :: rest
              mChannel := c.mChannel.terminate c.mHandle }, some true)) := by
  unfold wait
  rw [if_neg h]
  cases hqueue : awaited type c.mProtocols with
  | nil => exact .inl rfl
  | cons m rest =>
    refine .inr ⟨m, rest, rfl, ?_⟩
    by_cases herror : m.type = .error
    · exact .inl ⟨herror, if_pos herror⟩
    · exact .inr ⟨(awaited_type hqueue).resolve_right herror, if_neg herror⟩

/-- The queue shrinks and the request is answered. -/
theorem Sound.answer {c : Client κ} (h : c.Sound files paths started) (queue : List Protocol)
    (hq : ∀ m ∈ queue, m ∈ c.mProtocols) (handle : ℕ) :
    Sound files paths started
      { c with mProtocols := queue, mChannel := c.mChannel.terminate handle } where
  queue m hm := h.queue m (hq m hm)
  named := h.named
  channel := h.channel.terminate handle
  buffer := h.buffer
  finished := h.finished
  single := h.single
  unstarted := h.unstarted
  phase := h.phase

theorem Sound.report {c : Client κ} (h : c.Sound files paths started) (output : Output κ)
    (ho : ∀ file size written, output = .finish file size written →
      files.content file = some written) : (c.report output).Sound files paths started where
  queue := h.queue
  named := h.named
  channel := h.channel
  buffer := h.buffer
  finished file size written hmem := by
    rcases List.mem_append.mp hmem with hmem | hmem
    · exact h.finished file size written hmem
    · exact ho file size written (List.mem_singleton.mp hmem).symm
  single := h.single
  unstarted := h.unstarted
  phase := h.phase

/-- Leaving the download, to `State::Idle` or `State::Error`. -/
theorem Sound.leave {c : Client κ} (h : c.Sound files paths started) {state : State}
    (hs : state = .idle ∨ state = .error ∧ c.mState ≠ .idle) :
    Sound files paths started { c with mState := state } where
  queue := h.queue
  named hstate := by
    rcases hs with rfl | ⟨rfl, hc⟩
    · exact absurd rfl hstate
    · exact h.named hc
  channel := h.channel
  buffer := h.buffer
  finished := h.finished
  single := h.single
  unstarted hn := by
    refine ⟨(h.unstarted hn).written, (h.unstarted hn).cache, ?_⟩
    rcases hs with rfl | ⟨rfl, -⟩ <;> rfl
  phase := by rcases hs with rfl | ⟨rfl, _⟩ <;> trivial

/-- Sending a message about the file, and going on to the next state. -/
theorem Sound.send {c : Client κ} (h : c.Sound files paths started) (hstate : c.mState ≠ .idle)
    {m : Protocol} (hm : m.strings = [c.mFile]) (ht : Truthful files m) {address : κ}
    {timeout : ℤ} {retries : ℕ} {state : State} (hearly : ¬started → state.early = true)
    (hphase : Phase files { c with mState := state }) :
    Sound files paths started { c with
      mChannel := (c.mChannel.send ⟨m.serialize, address⟩ timeout retries).1
      mHandle := (c.mChannel.send ⟨m.serialize, address⟩ timeout retries).2
      mState := state } where
  queue := h.queue
  named _ := h.named hstate
  channel := by
    have hnamed := h.named hstate
    have hpath : m.path = c.mFile := by simpa [hm] using m.path_mem_strings
    exact h.channel.send (says_serialize (hnamed.nulFree hm) (hpath ▸ hnamed.2) ht) timeout retries
  buffer := h.buffer
  finished := h.finished
  single := h.single
  unstarted hn := ⟨(h.unstarted hn).written, (h.unstarted hn).cache, hearly hn⟩
  phase := hphase

theorem Sound.query {c : Client κ} (h : c.Sound files paths started) (hstate : c.mState = .query) :
    c.query.Sound files paths started := by
  have hphase := h.phase
  rw [Phase, hstate] at hphase
  exact h.send (by rw [hstate]; decide) (m := .query c.mFile) rfl trivial (fun _ => rfl) hphase

theorem Sound.get {c : Client κ} (h : c.Sound files paths started) (hstate : c.mState = .get) :
    c.get.Sound files paths started := by
  have hphase := h.phase
  rw [Phase, hstate] at hphase
  exact h.send (by rw [hstate]; decide) (m := .get c.mFile) rfl trivial (fun _ => rfl) hphase

/-- The three ways out of `wait`: still waiting, an error message, or the
handler's own message. -/
theorem Sound.wait {c : Client κ} (h : c.Sound files paths started) (hstate : c.mState ≠ .idle)
    (type : ProtocolType) :
    ∃ c', c'.Sound files paths started ∧
      (c.wait type = (c', none) ∨ c.wait type = (c', some false) ∨
        ∃ m rest, awaited type c.mProtocols = m :: rest ∧ m.type = type ∧ c' =
          { c with mProtocols := m :: rest, mChannel := c.mChannel.terminate c.mHandle } ∧
          c.wait type = (c', some true)) := by
  rcases wait_cases c type hstate with hwait | ⟨m, rest, hqueue, ⟨-, hwait⟩ | ⟨htype, hwait⟩⟩
  · refine ⟨_, ?_, .inl hwait⟩
    exact ⟨fun m hm => absurd hm List.not_mem_nil, h.named, h.channel, h.buffer, h.finished,
      h.single, h.unstarted, h.phase⟩
  · have hanswer := h.answer (m :: rest)
      (fun m' hm' => mem_of_mem_awaited (hqueue ▸ hm')) c.mHandle
    exact ⟨_, hanswer.leave (.inr ⟨rfl, hstate⟩), .inr (.inl hwait)⟩
  · have hanswer := h.answer (m :: rest)
      (fun m' hm' => mem_of_mem_awaited (hqueue ▸ hm')) c.mHandle
    exact ⟨_, hanswer, .inr (.inr ⟨m, rest, hqueue, htype, rfl, hwait⟩)⟩

theorem taken_size {c : Client κ} (hstate : c.mState = .size) {m : Protocol} {rest : List Protocol}
    (hqueue : awaited .size c.mProtocols = m :: rest) (htype : m.type = .size) :
    c.taken = some m := by
  simp [taken, hstate, hqueue, htype]

theorem taken_data {c : Client κ} (hstate : c.mState = .data) {m : Protocol} {rest : List Protocol}
    (hqueue : awaited .data c.mProtocols = m :: rest) (htype : m.type = .data) :
    c.taken = some m := by
  simp [taken, hstate, hqueue, htype]

theorem Sound.size {c : Client κ} (h : c.Sound files paths started) (hstate : c.mState = .size)
    (hpath : c.OnPath) : c.size.Sound files paths started := by
  obtain ⟨c', hc', hwait | hwait | ⟨m, rest, hqueue, htype, rfl, hwait⟩⟩ :=
    h.wait (by rw [hstate]; decide) .size
  · rw [Client.size, hwait]
    exact hc'
  · rw [Client.size, hwait]
    exact hc'
  have hmem : m ∈ c.mProtocols := mem_of_mem_awaited (hqueue ▸ List.mem_cons_self)
  have hfile : m.path = c.mFile := hpath m (taken_size hstate hqueue htype)
  cases m
  case size path size =>
    obtain rfl : path = c.mFile := hfile
    obtain ⟨content, hcontent, hsize⟩ := (h.queue _ hmem).2
    have hphase := h.phase
    rw [Phase, hstate] at hphase
    rw [Client.size, hwait]
    exact { hc' with
      queue := fun m' hm' => hc'.queue m' (List.mem_cons_of_mem _ hm')
      named := fun _ => h.named (by rw [hstate]; decide)
      single := h.single
      unstarted := fun hn => ⟨(h.unstarted hn).written, (h.unstarted hn).cache, rfl⟩
      phase := ⟨hphase, content, hcontent, hsize⟩ }
  all_goals cases htype

theorem Sound.or_starts {c c' : Client κ} (h : c'.Sound files paths started) (hn : ¬c.Starts) :
    c'.Sound files paths (started ∨ c.Starts) := by
  simpa [hn] using h

theorem Sound.start {c : Client κ} (h : c.Sound files paths started) (hstate : c.mState = .start)
    (opened : Bool) : (c.start opened).Sound files paths (started ∨ c.Starts) := by
  obtain ⟨c', hc', hwait | hwait | ⟨m, rest, hqueue, htype, rfl, hwait⟩⟩ :=
    h.wait (by rw [hstate]; decide) .start
  · rw [Client.start, hwait]
    exact hc'.or_starts fun hstarts => by simp [Starts, hwait] at hstarts
  · rw [Client.start, hwait]
    exact hc'.or_starts fun hstarts => by simp [Starts, hwait] at hstarts
  have hstarts : started ∨ c.Starts := .inr ⟨hstate, by rw [hwait]⟩
  have hphase := h.phase
  rw [Phase, hstate] at hphase
  obtain ⟨⟨hcache, hclosed⟩, content, hsized⟩ := hphase
  have hreset : c.mChecksum.reset.Represents [] := MD5.represents_reset h.buffer
  have hholds : ∀ content : Data, HoldsPrefix content [] 0 c.mCache := by
    refine fun content => ⟨by simp, fun k data hlookup => ?_⟩
    rw [hcache, AList.lookup_empty] at hlookup
    cases hlookup
  have hmem : ∀ m' ∈ rest, m' ∈ c.mProtocols := fun m' hm' =>
    mem_of_mem_awaited (hqueue ▸ List.mem_cons_of_mem m hm')
  rw [Client.start, hwait]
  simp only [Ofstream.open, hclosed, Bool.false_eq_true, if_false]
  cases opened
  case true =>
    exact {
      queue := fun m' hm' => h.queue m' (hmem m' hm')
      named := fun _ => h.named (by rw [hstate]; decide)
      channel := hc'.channel
      buffer := hreset.buffer_length
      finished := h.finished
      single := fun _ content _ => hholds content
      unstarted := fun hn => absurd hstarts hn
      phase := ⟨content, hsized, rfl, hholds content, hreset⟩ }
  case false =>
    have hopen : Sound files paths (started ∨ c.Starts) { c with
        mProtocols := rest
        mChannel := c.mChannel.terminate c.mHandle
        mOutput := ⟨false, []⟩
        mBlock := 0
        mNext := 0
        mChecksum := c.mChecksum.reset
        mState := .idle } := {
      queue := fun m' hm' => h.queue m' (hmem m' hm')
      named := fun hidle => absurd rfl hidle
      channel := hc'.channel
      buffer := hreset.buffer_length
      finished := h.finished
      single := fun _ content _ => hholds content
      unstarted := fun hn => absurd hstarts hn
      phase := trivial }
    exact hopen.report (.openError c.mDestination) (by simp)

theorem Sound.of_late {c : Client κ} (h : c.Sound files paths started)
    (hlate : c.mState.early = false) : started := by
  by_contra hn
  have hearly := (h.unstarted hn).early
  rw [hlate] at hearly
  cases hearly

theorem Sound.data {c : Client κ} (h : c.Sound files paths started) (hstate : c.mState = .data)
    (hpath : c.OnPath) : c.data.Sound files paths started := by
  obtain ⟨c', hc', hwait | hwait | ⟨m, rest, hqueue, htype, rfl, hwait⟩⟩ :=
    h.wait (by rw [hstate]; decide) .data
  · rw [Client.data, hwait]
    exact hc'
  · rw [Client.data, hwait]
    exact hc'
  have hmem : m ∈ c.mProtocols := mem_of_mem_awaited (hqueue ▸ List.mem_cons_self)
  have hfile : m.path = c.mFile := hpath m (taken_data hstate hqueue htype)
  cases m
  case data path block data =>
    obtain rfl : path = c.mFile := hfile
    obtain ⟨content, hcontent, hblock⟩ := (h.queue _ hmem).2
    have hphase := h.phase
    rw [Phase, hstate] at hphase
    obtain ⟨content', ⟨hcontent', hsize⟩, hopen, hholds, hchecksum⟩ := hphase
    obtain rfl : content = content' := by
      rw [hcontent] at hcontent'
      exact Option.some.inj hcontent'
    let taken := { c with mProtocols := rest, mChannel := c.mChannel.terminate c.mHandle }
    obtain ⟨c', hreceive, hstate', hopen', hholds', hchecksum', -, hchannel', hprotocols', hfile',
      hsize', l, hlog, hl⟩ := receiveBlock_spec (c := taken) hopen hholds hchecksum hblock
    rw [Client.data, hwait]
    change (caught (taken.receiveBlock block.toNat data)).Sound files paths started
    rw [hreceive, caught]
    have hnamed := h.named (by rw [hstate]; decide)
    refine ⟨?_, fun _ => hfile' ▸ hnamed, hchannel' ▸ hc'.channel, hchecksum'.buffer_length, ?_,
      fun _ content'' hc'' => ?_, fun hn => absurd (h.of_late (by rw [hstate]; rfl)) hn, ?_⟩
    · rw [hprotocols']
      exact fun m' hm' => hc'.queue m' (List.mem_cons_of_mem _ hm')
    · intro file size written hmem
      rw [hlog] at hmem
      exact h.finished file size written ((List.mem_append.mp hmem).resolve_right (hl _ _ _))
    · -- with one content for all paths it is this one
      obtain rfl : content = content'' := by
        have hc := hc'' _ hnamed.2
        rw [hcontent] at hc
        exact Option.some.inj hc
      exact hholds'
    · rw [Phase, hstate']
      exact ⟨content, ⟨hfile' ▸ hcontent, hsize' ▸ hsize⟩, hopen', hholds', hchecksum'⟩
  all_goals cases htype

theorem tellp_eq {file : Ofstream} (h : file.isOpen = true) : file.tellp = file.written.length := by
  rw [Ofstream.tellp, if_pos h]

theorem Sound.acknowledge {c : Client κ} (h : c.Sound files paths started)
    (hstate : c.mState = .acknowledge) : c.acknowledge.Sound files paths started := by
  have hphase := h.phase
  rw [Phase, hstate] at hphase
  obtain ⟨content, hsized, hopen, hholds, hchecksum⟩ := hphase
  refine h.send (by rw [hstate]; decide) (m := .acknowledge c.mFile (.ofNat c.mBlock)) rfl trivial
    (fun hn => absurd (h.of_late (by rw [hstate]; rfl)) hn) ?_
  split
  next htellp =>
    -- as many bytes as the file has: all of it
    have hwritten : c.mOutput.written = content := by
      rw [tellp_eq hopen, hsized.2, hholds.written, List.length_take] at htellp
      rw [hholds.written, List.take_of_length_le (by omega)]
    exact ⟨content, hsized, hwritten, hwritten ▸ hchecksum⟩
  next => exact ⟨content, hsized, hopen, hholds, hchecksum⟩

theorem Sound.checksum {c : Client κ} (h : c.Sound files paths started)
    (hstate : c.mState = .checksum) : c.checksum.Sound files paths started := by
  have hphase := h.phase
  rw [Phase, hstate] at hphase
  obtain ⟨content, hsized, hwritten, hchecksum⟩ := hphase
  have hstarted : started := h.of_late (by rw [hstate]; rfl)
  have hfinal : Sound files paths started
      { c with mChecksum := c.mChecksum.finalize, mState := .confirm } := {
    queue := h.queue
    named := fun _ => h.named (by rw [hstate]; decide)
    channel := h.channel
    buffer := hchecksum.finalize_buffer
    finished := h.finished
    single := h.single
    unstarted := fun hn => absurd hstarted hn
    phase := ⟨content, hsized, hwritten⟩ }
  rw [Client.checksum, hchecksum.finalize]
  exact hfinal.send State.noConfusion (m := .checksum c.mFile (md5 content)) rfl trivial
    (fun hn => absurd hstarted hn) hfinal.phase

theorem Sound.confirm {c : Client κ} (h : c.Sound files paths started)
    (hstate : c.mState = .confirm) : c.confirm.Sound files paths started := by
  have hphase := h.phase
  rw [Phase, hstate] at hphase
  obtain ⟨content, hsized, hwritten⟩ := hphase
  obtain ⟨c', hc', hwait | hwait | ⟨m, rest, hqueue, htype, rfl, hwait⟩⟩ :=
    h.wait (by rw [hstate]; decide) .confirm
  · rw [Client.confirm, hwait]
    exact hc'
  · rw [Client.confirm, hwait]
    exact hc'
  rw [Client.confirm, hwait]
  have hreport := hc'.report (.finish c.mFile c.mSize c.mOutput.written) (by
    rintro _ _ _ ⟨⟩
    rw [hwritten]
    exact hsized.1)
  exact ⟨hreport.queue, fun hidle => absurd rfl hidle, hreport.channel, hreport.buffer,
    hreport.finished, hreport.single,
    fun hn => absurd (h.of_late (by rw [hstate]; rfl)) hn, trivial⟩

theorem Sound.error {c : Client κ} (h : c.Sound files paths started) :
    c.error.Sound files paths started := by
  unfold Client.error
  split
  next path message queue hqueue =>
    have hpop : Sound files paths started { c with mProtocols := queue, mState := .idle } := {
      queue := fun m hm => h.queue m (hqueue ▸ List.mem_cons_of_mem _ hm)
      named := fun hidle => absurd rfl hidle
      channel := h.channel
      buffer := h.buffer
      finished := h.finished
      single := h.single
      unstarted := fun hn => ⟨(h.unstarted hn).written, (h.unstarted hn).cache, rfl⟩
      phase := trivial }
    exact hpop.report (.serverError message) (by simp)
  · exact h

theorem not_starts {c : Client κ} (hstate : c.mState ≠ .start) : ¬c.Starts :=
  fun hstarts => hstate hstarts.1

theorem Sound.dispatch {c : Client κ} (h : c.Sound files paths started) (hpath : c.OnPath)
    (opened : Bool) : (c.dispatch opened).Sound files paths (started ∨ c.Starts) := by
  by_cases hstart : c.mState = .start
  · rw [Client.dispatch, hstart]
    exact h.start hstart opened
  · refine Sound.or_starts ?_ (not_starts hstart)
    unfold Client.dispatch
    split
    next => exact h
    next hstate => exact h.query hstate
    next hstate => exact h.size hstate hpath
    next hstate => exact h.get hstate
    next hstate => exact absurd hstate hstart
    next hstate => exact h.data hstate hpath
    next hstate => exact h.acknowledge hstate
    next hstate => exact h.checksum hstate
    next hstate => exact h.confirm hstate
    next => exact h.error

theorem Sound.download {c : Client κ} (h : c.Sound files paths started) (address : κ) {file : Data}
    (hfile : Named paths file) (destination : Data) :
    (c.download address file destination).Sound files paths started where
  queue := by simp [Client.download]
  named _ := hfile
  channel := h.channel
  buffer := h.buffer
  finished := h.finished
  single hs content hc := ⟨(h.single hs content hc).written, by simp [Client.download]⟩
  unstarted hn := ⟨(h.unstarted hn).written, rfl, rfl⟩
  phase := ⟨rfl, rfl⟩

theorem Sound.becomeIdle {c : Client κ} (h : c.Sound files paths started) (lost : Bool) :
    (c.becomeIdle lost).Sound files paths started := by
  unfold Client.becomeIdle
  split
  · exact h
  · exact h.leave (.inl rfl)

theorem Sound.onTimeout {c : Client κ} (h : c.Sound files paths started) (task : Channel.Task κ)
    (lost : Bool) : (c.onTimeout task lost).Sound files paths started := by
  have hreport := h.report (.sendError task.address) (by simp)
  exact (hreport.answer c.mProtocols (fun m hm => hm) c.mHandle).becomeIdle lost

/-- A true message is queued. -/
theorem Sound.onReceive {c c' : Client κ} (h : c.Sound files paths started) {data : Data}
    {lost : Bool} (hsaid : Says files paths data) (hc : c.onReceive data lost = some c') :
    c'.Sound files paths started := by
  obtain ⟨m, hm, hpath, htruthful⟩ := hsaid.deserialize
  rw [Client.onReceive, hm] at hc
  cases hc
  refine ⟨fun m' hm' => ?_, h.named, h.channel, h.buffer, h.finished, h.single, h.unstarted,
    h.phase⟩
  rcases List.mem_append.mp hm' with hm' | hm'
  · exact h.queue m' hm'
  · obtain rfl := List.mem_singleton.mp hm'
    exact ⟨hpath, htruthful⟩

theorem sound_new (memory : Uninitialized) (timeout : ℤ) (retries : ℕ) (address : κ) :
    (new memory timeout retries address).Sound files paths False where
  queue := by simp [new]
  named h := absurd rfl h
  channel := Channel.carries_new
  buffer := rfl
  finished := by simp [new]
  single := False.elim
  unstarted _ := ⟨rfl, rfl, rfl⟩
  phase := trivial

end Client

end Course.Rdt
