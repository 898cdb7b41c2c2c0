import Course.Rdt.Download
import Course.Rdt.Framing

/-! The statistics of the client: the frames its channel counts, the blocks the
client counts as duplicates, and the difference that it reports as lost. -/

open Course.Lib

namespace Course.Rdt

variable {κ : Type}

namespace Client

/-- What a download still waits for. -/
inductive Stage
  | size | start | data | done
  deriving DecidableEq

def Stage.next : Stage → Protocol → Stage
  | _, .error .. => .done
  | .size, .size .. => .start
  | .start, .start .. => .data
  | stage, _ => stage

/-- The blocks that the turns of `data` take out of a queue. -/
def due : Stage → List Protocol → List ℕ
  | _, [] => []
  | .data, .data _ block _ :: queue => block.toNat :: due .data queue
  | stage, m :: queue => due (stage.next m) queue

def stage (c : Client κ) : Stage :=
  match c.mState with
  | .query | .size => .size
  | .get | .start => .start
  | .data => .data
  | .acknowledge => if c.mOutput.tellp = c.mSize then .done else .data
  | .idle | .checksum | .confirm | .error => .done

/-- The blocks the download has, which `data` takes for duplicates. -/
def has (c : Client κ) (block : ℕ) : Bool :=
  c.stage = .data ∧ (block < c.mNext ∨ block ∈ c.mCache)

/-! ### Duplicates in the queue -/

/-- How many of the blocks will be duplicates, if they come in this order. -/
def repeated (has : ℕ → Bool) : List ℕ → ℕ
  | [] => 0
  | block :: blocks =>
    (if has block then 1 else 0) + repeated (fun b => has b || b == block) blocks

variable {has has' : ℕ → Bool} {blocks : List ℕ} {block : ℕ}

theorem repeated_mono (h : ∀ b, has b = true → has' b = true) :
    repeated has blocks ≤ repeated has' blocks := by
  induction blocks generalizing has has' with
  | nil => exact Nat.le_refl 0
  | cons block blocks ih =>
    have hrest : repeated (fun b => has b || b == block) blocks ≤
        repeated (fun b => has' b || b == block) blocks := by
      apply ih
      intro b hb
      rcases Bool.or_eq_true _ _ ▸ hb with hb | hb
      · simp [h b hb]
      · simp only [hb, Bool.or_true]
    simp only [repeated]
    split
    next hhas => simpa [h block hhas] using hrest
    next => omega

theorem repeated_append_fresh (hhas : has block = false) (hblock : block ∉ blocks) :
    repeated has (blocks ++ [block]) = repeated has blocks := by
  induction blocks generalizing has with
  | nil => simp [repeated, hhas]
  | cons b blocks ih =>
    rw [List.mem_cons, not_or] at hblock
    simp only [List.cons_append, repeated]
    rw [ih (by simp [hhas, hblock.1]) hblock.2]

theorem repeated_append_le : repeated has (blocks ++ [block]) ≤ repeated has blocks + 1 := by
  induction blocks generalizing has with
  | nil =>
    simp only [List.nil_append, repeated]
    split <;> omega
  | cons b blocks ih =>
    have hrest : repeated (fun b' => has b' || b' == b) (blocks ++ [block]) ≤
        repeated (fun b' => has b' || b' == b) blocks + 1 := ih
    simp only [List.cons_append, repeated]
    omega

/-! ### The queue -/

variable {stage : Stage} {queue : List Protocol} {m : Protocol}

theorem due_done (queue : List Protocol) : due .done queue = [] := by
  induction queue with
  | nil => rfl
  | cons m queue ih => cases m <;> exact ih

/-- A message at the end of the queue adds at most its own block. -/
theorem due_append (stage : Stage) (queue : List Protocol) (m : Protocol) :
    due stage (queue ++ [m]) = due stage queue ++ due (queue.foldl Stage.next stage) [m] := by
  induction queue generalizing stage with
  | nil => rfl
  | cons m' queue ih =>
    cases stage
    all_goals
      cases m'
      all_goals
        first
        | exact ih _
        | exact congrArg (_ :: ·) (ih _)

theorem due_single (stage : Stage) (m : Protocol) :
    due stage [m] = [] ∨ ∃ path block data, m = .data path block data ∧
      due stage [m] = [block.toNat] := by
  cases stage
  case data =>
    cases m
    case data path block data => exact .inr ⟨path, block, data, rfl, rfl⟩
    all_goals exact .inl rfl
  all_goals exact .inl (by cases m <;> rfl)

/-- The messages that end the waiting of a stage. -/
def Stage.type : Stage → ProtocolType
  | .size => .size
  | .start => .start
  | .data => .data
  | .done => .error

theorem awaited_cons (type : ProtocolType) (m : Protocol) (queue : List Protocol) :
    awaited type (m :: queue) =
      if m.type = type ∨ m.type = .error then m :: queue else awaited type queue := by
  by_cases h : m.type = type ∨ m.type = .error
  · rw [if_pos h, awaited, List.dropWhile_cons_of_neg]
    simpa [imp_iff_not_or] using h
  · rw [if_neg h, awaited, List.dropWhile_cons_of_pos]
    · rfl
    · simpa [not_or] using h

/-- What `wait` drops is not due. -/
theorem due_awaited (stage : Stage) (queue : List Protocol) :
    due stage (awaited stage.type queue) = due stage queue := by
  induction queue with
  | nil => rfl
  | cons m queue ih =>
    rw [awaited_cons]
    split
    · rfl
    next htype =>
      rw [ih]
      cases stage
      case done => rw [due_done, due_done]
      all_goals
        cases m
        all_goals
          first
          | rfl
          | exact absurd (.inl rfl) htype
          | exact absurd (.inr rfl) htype

/-! ### A download -/

/-- The duplicates counted, with those that wait in the queue, are at most the
frames counted as lost. -/
structure Counted (lost : ℕ) (c : Client κ) : Prop where
  cache : c.stage = .size ∨ c.stage = .start → c.mCache = ∅
  duplicates : c.mDuplicate + repeated c.has (due c.stage c.mProtocols) ≤ lost

variable {lost : ℕ} {c c' : Client κ}

namespace Counted

theorem le (h : c.Counted lost) : c.mDuplicate ≤ lost :=
  Nat.le_trans (Nat.le_add_right ..) h.duplicates

/-- A turn that does not look at a block. -/
theorem of_due (h : c.Counted lost) (hduplicate : c'.mDuplicate = c.mDuplicate)
    (hcache : c'.stage = .size ∨ c'.stage = .start → c'.mCache = ∅)
    (hhas : ∀ block, c'.has block = true → c.has block = true)
    (hdue : due c'.stage c'.mProtocols = due c.stage c.mProtocols) : c'.Counted lost where
  cache := hcache
  duplicates := by
    have hle : repeated c'.has (due c.stage c.mProtocols) ≤
        repeated c.has (due c.stage c.mProtocols) := repeated_mono hhas
    have hlost := h.duplicates
    rw [hduplicate, hdue]
    omega

theorem of_done (h : c.mDuplicate ≤ lost) (hstage : c.stage = .done) : c.Counted lost where
  cache hearly := by
    rw [hstage] at hearly
    rcases hearly with hearly | hearly <;> cases hearly
  duplicates := by
    rw [hstage, due_done]
    exact h

/-- How `wait` ends; the message it ends with leaves what is due as it was. -/
theorem wait (h : c.Counted lost) (hstate : c.mState ≠ .idle) :
    (∃ c', c'.Counted lost ∧
      (c.wait c.stage.type = (c', none) ∨ c.wait c.stage.type = (c', some false))) ∨
    ∃ m rest, m.type = c.stage.type ∧ due c.stage (m :: rest) = due c.stage c.mProtocols ∧
      c.wait c.stage.type =
        ({ c with mProtocols := m :: rest, mChannel := c.mChannel.terminate c.mHandle },
          some true) := by
  rcases wait_cases c c.stage.type hstate with
    hwait | ⟨m, rest, hqueue, ⟨-, hwait⟩ | ⟨htype, hwait⟩⟩
  · have hnil : due c.stage [] = [] := by cases c.stage <;> rfl
    refine .inl ⟨{ c with mProtocols := [] }, ⟨h.cache, ?_⟩, .inl hwait⟩
    change c.mDuplicate + repeated _ (due c.stage []) ≤ lost
    rw [hnil]
    exact h.le
  · refine .inl ⟨_, ?_, .inr hwait⟩
    exact of_done h.le rfl
  · refine .inr ⟨m, rest, htype, ?_, hwait⟩
    rw [← hqueue, due_awaited]

theorem query (h : c.Counted lost) (hstate : c.mState = .query) : c.query.Counted lost := by
  have hstage : c.stage = .size := by rw [stage, hstate]
  refine h.of_due rfl (fun _ => h.cache (.inl hstage)) ?_ ?_
  · exact fun block hhas => by simp [Client.query, has, stage] at hhas
  · rw [hstage]
    rfl

theorem get (h : c.Counted lost) (hstate : c.mState = .get) : c.get.Counted lost := by
  have hstage : c.stage = .start := by rw [stage, hstate]
  refine h.of_due rfl (fun _ => h.cache (.inr hstage)) ?_ ?_
  · exact fun block hhas => by simp [Client.get, has, stage] at hhas
  · rw [hstage]
    rfl

theorem size (h : c.Counted lost) (hstate : c.mState = .size) : c.size.Counted lost := by
  have hstage : c.stage = .size := by rw [stage, hstate]
  have hwait := h.wait (by rw [hstate]; decide)
  rw [hstage] at hwait
  obtain ⟨c', hc', hwait | hwait⟩ | ⟨m, rest, htype, hdue, hwait⟩ := hwait
  · rw [Client.size, show c.wait .size = _ from hwait]
    exact hc'
  · rw [Client.size, show c.wait .size = _ from hwait]
    exact hc'
  · rw [Client.size, show c.wait .size = _ from hwait]
    cases m
    case size path size =>
      refine h.of_due rfl (fun _ => h.cache (.inl hstage)) ?_ ?_
      · exact fun block hhas => by simp [has, stage] at hhas
      · rw [hstage]
        exact hdue
    all_goals cases htype

/-- `start` begins with no block, as the cache was cleared by `download`. -/
theorem start (h : c.Counted lost) (hstate : c.mState = .start) (opened : Bool) :
    (c.start opened).Counted lost := by
  have hstage : c.stage = .start := by rw [stage, hstate]
  have hcache : c.mCache = ∅ := h.cache (.inr hstage)
  have hwait := h.wait (by rw [hstate]; decide)
  rw [hstage] at hwait
  obtain ⟨c', hc', hwait | hwait⟩ | ⟨m, rest, htype, hdue, hwait⟩ := hwait
  · rw [Client.start, show c.wait .start = _ from hwait]
    exact hc'
  · rw [Client.start, show c.wait .start = _ from hwait]
    exact hc'
  · rw [Client.start, show c.wait .start = _ from hwait]
    simp only
    split
    · cases m
      case start path =>
        refine h.of_due rfl (fun _ => hcache) ?_ ?_
        · exact fun block hhas => by simp [has, hcache] at hhas
        · rw [hstage]
          exact hdue
      all_goals cases htype
    · exact of_done h.le rfl

theorem acknowledge (h : c.Counted lost) (hstate : c.mState = .acknowledge) :
    c.acknowledge.Counted lost := by
  by_cases hend : c.mOutput.tellp = c.mSize
  · exact of_done h.le (by simp [Client.acknowledge, stage, hend])
  · have hstage : c.stage = .data := by rw [stage, hstate]; exact if_neg hend
    have hstage' : c.acknowledge.stage = .data := by simp [Client.acknowledge, stage, hend]
    refine h.of_due rfl ?_ ?_ ?_
    · rw [hstage']
      rintro (hearly | hearly) <;> cases hearly
    · intro block hhas
      rw [has, hstage'] at hhas
      rw [has, hstage]
      exact hhas
    · rw [hstage, hstage']
      rfl

end Counted

/-! ### Blocks -/

/-- `drain` moves `mNext` over blocks of the cache. -/
theorem drain_next (n : ℕ) (c : Client κ) (complete : List ℕ) :
    (drain n c complete).1.mCache = c.mCache ∧
      (drain n c complete).1.mDuplicate = c.mDuplicate ∧
      (drain n c complete).1.mProtocols = c.mProtocols ∧
      ∀ b < (drain n c complete).1.mNext, b < c.mNext ∨ b ∈ c.mCache := by
  induction n generalizing c complete with
  | zero => exact ⟨rfl, rfl, rfl, fun b hb => .inl hb⟩
  | succ n ih =>
    rw [drain]
    cases hlookup : c.mCache.lookup c.mNext with
    | none => exact ⟨rfl, rfl, rfl, fun b hb => .inl hb⟩
    | some data =>
      simp only
      split
      · exact ⟨rfl, rfl, rfl, fun b hb => .inl hb⟩
      next checksum _ =>
        have hmem : c.mNext ∈ c.mCache := AList.lookup_isSome.mp (by rw [hlookup]; rfl)
        let c' : Client κ := { c with
          mOutput := c.mOutput.write data, mChecksum := checksum, mNext := c.mNext + 1 }
        obtain ⟨hcache, hduplicate, hprotocols, hnext⟩ :=
          ih (c'.report (.progress c.mSize (c.mOutput.write data).tellp)) (complete ++ [c.mNext])
        refine ⟨hcache, hduplicate, hprotocols, fun b hb => ?_⟩
        rcases hnext b hb with hlt | hcached
        · rcases Nat.lt_succ_iff_lt_or_eq.mp hlt with hlt | rfl
          · exact .inl hlt
          · exact .inr hmem
        · exact .inr hcached

theorem mem_of_mem_foldl_erase {cache : AList fun _ : ℕ => Data} {complete : List ℕ} {b : ℕ}
    (h : b ∈ complete.foldl (fun cache block => cache.erase block) cache) : b ∈ cache := by
  induction complete generalizing cache with
  | nil => exact h
  | cons block complete ih => exact (AList.mem_erase.mp (ih h)).2

/-- After a block the client has at most what `has` says, unless it has all. -/
theorem Counted.of_block (hstate : c.mState = .acknowledge) {has : ℕ → Bool}
    (hhas : ∀ b, b < c.mNext ∨ b ∈ c.mCache → has b = true)
    (h : c.mDuplicate + repeated has (due .data c.mProtocols) ≤ lost) : c.Counted lost := by
  by_cases hend : c.mOutput.tellp = c.mSize
  · exact of_done (Nat.le_trans (Nat.le_add_right ..) h) (by rw [stage, hstate]; exact if_pos hend)
  · have hstage : c.stage = .data := by rw [stage, hstate]; exact if_neg hend
    constructor
    · rw [hstage]
      rintro (hearly | hearly) <;> cases hearly
    · have hle : repeated c.has (due .data c.mProtocols) ≤ repeated has (due .data c.mProtocols) :=
        repeated_mono fun b hb => hhas b (of_decide_eq_true hb).2
      rw [hstage]
      omega

/-- The handler of a block, which is due no more. -/
theorem Counted.receiveBlock (hstage : c.stage = .data) (block : ℕ) (data : Data)
    (h : c.mDuplicate + repeated c.has (block :: due .data c.mProtocols) ≤ lost) :
    (caught (c.receiveBlock block data)).Counted lost := by
  have hhas : ∀ b, c.has b = true ↔ b < c.mNext ∨ b ∈ c.mCache := by
    intro b
    simp [has, hstage]
  rw [repeated] at h
  unfold Client.receiveBlock
  split
  next hdup =>
    rw [if_pos ((hhas block).mpr hdup)] at h
    have hmono : repeated c.has (due .data c.mProtocols) ≤
        repeated (fun b => c.has b || b == block) (due .data c.mProtocols) :=
      repeated_mono fun b hb => by simp [hb]
    refine of_block rfl (fun b hb => (hhas b).mpr hb) ?_
    change c.mDuplicate + 1 + repeated c.has (due .data c.mProtocols) ≤ lost
    omega
  next hnew =>
    simp only
    generalize hstored : { c with mCache := c.mCache.insert block data, mBlock := block } = stored
    have hdrain := drain_next (stored.mCache.entries.length + 1) stored []
    rw [← hstored] at hdrain
    subst hstored
    obtain ⟨hcache, hduplicate, hprotocols, hnext⟩ := hdrain
    have hinsert : ∀ b, b < c.mNext ∨ b ∈ c.mCache.insert block data →
        (c.has b || b == block) = true := by
      rintro b (hlt | hmem)
      · rw [(hhas b).mpr (.inl hlt), Bool.true_or]
      · rcases AList.mem_insert _ |>.mp hmem with rfl | hmem
        · rw [beq_self_eq_true, Bool.or_true]
        · rw [(hhas b).mpr (.inr hmem), Bool.true_or]
    split
    next c' complete e heq =>
      rw [heq] at hduplicate
      exact of_done (show c'.mDuplicate ≤ lost by rw [hduplicate]; change c.mDuplicate ≤ lost; omega) rfl
    next c' complete heq =>
      simp only [heq] at hcache hduplicate hprotocols hnext
      have hstill : ∀ b, b < c'.mNext ∨ b ∈ complete.foldl (fun cache b => cache.erase b) c'.mCache →
          (c.has b || b == block) = true := by
        intro b hb
        apply hinsert
        rcases hb with hlt | hmem
        · exact hnext b hlt
        · exact .inr (hcache ▸ mem_of_mem_foldl_erase hmem)
      refine of_block rfl hstill ?_
      change c'.mDuplicate + repeated _ (due .data c'.mProtocols) ≤ lost
      rw [hduplicate, hprotocols]
      omega

theorem Counted.data (h : c.Counted lost) (hstate : c.mState = .data) : c.data.Counted lost := by
  have hstage : c.stage = .data := by rw [stage, hstate]
  have hwait := h.wait (by rw [hstate]; decide)
  rw [hstage] at hwait
  obtain ⟨c', hc', hwait | hwait⟩ | ⟨m, rest, htype, hdue, hwait⟩ := hwait
  · rw [Client.data, show c.wait .data = _ from hwait]
    exact hc'
  · rw [Client.data, show c.wait .data = _ from hwait]
    exact hc'
  · rw [Client.data, show c.wait .data = _ from hwait]
    cases m
    case data path block data =>
      apply Counted.receiveBlock
      · exact hstage
      · have hlost := h.duplicates
        rw [hstage, ← hdue] at hlost
        exact hlost
    all_goals cases htype

theorem Counted.caught (h : c.mDuplicate ≤ lost) (e : ChecksumError) :
    (Client.caught (c, some e)).Counted lost := of_done h rfl

theorem Counted.request_confirm (h : c.mDuplicate ≤ lost) (m : Protocol) :
    { c.request m with mState := .confirm }.Counted lost := of_done h rfl

theorem Counted.checksum (h : c.Counted lost) : c.checksum.Counted lost := by
  have hfinal : ({ c with mChecksum := c.mChecksum.finalize } : Client κ).mDuplicate ≤ lost := h.le
  unfold Client.checksum
  simp only
  split
  next e _ => exact Counted.caught hfinal e
  next digest _ => exact Counted.request_confirm hfinal (.checksum c.mFile digest)

theorem Counted.confirm (h : c.Counted lost) (hstate : c.mState = .confirm) :
    c.confirm.Counted lost := by
  have hstage : c.stage = .done := by rw [stage, hstate]
  unfold Client.confirm
  rcases wait_cases c .confirm (by rw [hstate]; decide) with
    hwait | ⟨m, rest, -, ⟨-, hwait⟩ | ⟨-, hwait⟩⟩
  · rw [hwait]
    exact of_done h.le hstage
  · rw [hwait]
    exact of_done h.le rfl
  · rw [hwait]
    exact of_done h.le rfl

theorem Counted.error (h : c.Counted lost) : c.error.Counted lost := by
  unfold Client.error
  split
  · exact of_done h.le rfl
  · exact h

theorem Counted.dispatch (h : c.Counted lost) (opened : Bool) : (c.dispatch opened).Counted lost := by
  unfold Client.dispatch
  split
  next => exact h
  next hstate => exact h.query hstate
  next hstate => exact h.size hstate
  next hstate => exact h.get hstate
  next hstate => exact h.start hstate opened
  next hstate => exact h.data hstate
  next hstate => exact h.acknowledge hstate
  next => exact h.checksum
  next hstate => exact h.confirm hstate
  next => exact h.error

theorem Counted.download (h : c.Counted lost) (address : κ) (file destination : Data) :
    (c.download address file destination).Counted lost :=
  ⟨fun _ => rfl, h.le⟩

/-- A state that `onTimeout` or `onReceive` leaves may be overwritten. -/
theorem Counted.becomeIdle (h : c.Counted lost) (overwritten : Bool) :
    (c.becomeIdle overwritten).Counted lost := by
  cases overwritten with
  | true => exact h
  | false => exact of_done h.le rfl

theorem Counted.turn {r : Running κ} (h : r.client.Counted lost) (turn : Turn) :
    (r.turn turn).client.Counted lost := by
  cases turn with
  | dispatch opened => exact h.dispatch opened
  | timer handle => exact ⟨h.cache, h.duplicates⟩
  | callback i overwritten =>
    rw [Running.turn]
    split
    · exact h
    next callback _ =>
      cases callback with
      | retry task => exact h
      | timeout task =>
        have hreport : Counted lost { r.client.report (.sendError task.address) with
            mChannel := r.client.mChannel.terminate r.client.mHandle } := ⟨h.cache, h.duplicates⟩
        exact hreport.becomeIdle overwritten

/-- A message that joins the queue. -/
theorem Counted.push (h : c.Counted lost) (m : Protocol) {lost' : ℕ} (hle : lost ≤ lost')
    (hfresh : lost' = lost → ∀ block ∈ due (c.mProtocols.foldl Stage.next c.stage) [m],
      c.has block = false ∧ block ∉ due c.stage c.mProtocols) :
    Counted lost' { c with mProtocols := c.mProtocols ++ [m] } := by
  refine ⟨h.cache, ?_⟩
  change c.mDuplicate + repeated c.has (due c.stage (c.mProtocols ++ [m])) ≤ lost'
  have hlost := h.duplicates
  rw [due_append]
  rcases due_single (c.mProtocols.foldl Stage.next c.stage) m with
    hnone | ⟨path, block, data, rfl, hblock⟩
  · rw [hnone, List.append_nil]
    omega
  · rw [hblock] at hfresh ⊢
    rcases Nat.eq_or_lt_of_le hle with heq | hlt
    · obtain ⟨hhas, hnew⟩ := hfresh heq.symm block.toNat (List.mem_singleton_self _)
      rw [repeated_append_fresh hhas hnew]
      omega
    · have hone : repeated c.has (due c.stage c.mProtocols ++ [block.toNat]) ≤
          repeated c.has (due c.stage c.mProtocols) + 1 := repeated_append_le
      omega

/-! ### Datagrams -/

/-- A client, with the counters of its channel. -/
structure Counting (κ : Type) where
  running : Running κ
  mCorrupted : ℕ
  mLost : ℕ
  mSuccessful : ℕ

structure Stats where
  corrupted : ℕ
  duplicate : ℕ
  lost : ℕ
  successful : ℕ
  deriving DecidableEq

namespace Counting

inductive Event (κ : Type)
  | download (address : κ) (file destination : Data)
  | datagram (data : Data) (overwritten : Bool)
  | turn (turn : Turn)
  deriving DecidableEq

def new (memory : Uninitialized) (timeout : ℤ) (retries : ℕ) (address : κ) : Counting κ where
  running := ⟨.new memory timeout retries address, []⟩
  mCorrupted := 0
  mLost := 0
  mSuccessful := 0

/-- The difference is one of `size_t`. -/
def statistics (c : Counting κ) : Stats where
  corrupted := c.mCorrupted
  duplicate := c.running.client.mDuplicate
  lost := (UInt64.ofNat c.mLost - UInt64.ofNat c.running.client.mDuplicate).toNat
  successful := c.mSuccessful

/-- One turn of the loop of `Channel::receiver`. -/
def receiver (c : Counting κ) (data : Data) (overwritten : Bool) : Option (Counting κ) :=
  if data.isEmpty then some c
  else
    match Channel.decode data with
    | .error _ => some c
    | .ok (header, data) =>
      if header.valid then
        (c.running.client.onReceive data overwritten).map fun client =>
          { c with
            running := { c.running with client }
            mLost := if header.tries > 0 then c.mLost + 1 else c.mLost
            mSuccessful := c.mSuccessful + 1 }
      else some { c with mCorrupted := c.mCorrupted + 1 }

/-- `download` is called again when the call before has returned. -/
def step (c : Counting κ) : Event κ → Option (Counting κ)
  | .download address file destination =>
    some (if c.running.client.mState = .idle then
      { c with
        running := { c.running with client := c.running.client.download address file destination } }
    else c)
  | .datagram data overwritten => c.receiver data overwritten
  | .turn turn => some { c with running := c.running.turn turn }

def machine : Machine (Counting κ) (Event κ) := ⟨step⟩

/-- The message of a frame that says it was sent for the first time. -/
def firstTry (data : Data) : Option Protocol :=
  match Channel.decode data with
  | .error _ => none
  | .ok (header, data) =>
    if header.valid ∧ header.tries = 0 then (Protocol.deserialize data).toOption else none

/-- The block of a message, if `data` will take it out of the queue. -/
def brings (c : Client κ) (m : Protocol) : List ℕ :=
  due (c.mProtocols.foldl Stage.next c.stage) [m]

/-- A frame that says it was sent for the first time brings no block that the
download has or that another message in the queue brings. -/
def Fresh (c : Counting κ) : Event κ → Prop
  | .datagram data _ =>
    ∀ m ∈ firstTry data, ∀ block ∈ brings c.running.client m,
      c.running.client.has block = false ∧
        block ∉ due c.running.client.stage c.running.client.mProtocols
  | _ => True

instance (c : Counting κ) : (e : Event κ) → Decidable (Fresh c e)
  | .datagram data _ =>
    inferInstanceAs (Decidable (∀ m ∈ firstTry data, ∀ block ∈ brings c.running.client m,
      c.running.client.has block = false ∧
        block ∉ due c.running.client.stage c.running.client.mProtocols))
  | .download .. => .isTrue trivial
  | .turn _ => .isTrue trivial

/-- Where no more duplicates than lost frames were counted, the difference is
what is meant. -/
theorem statistics_lost {c : Counting κ} (h : c.running.client.mDuplicate ≤ c.mLost)
    (hlt : c.mLost < 2 ^ 64) : c.statistics.lost = c.mLost - c.running.client.mDuplicate := by
  have hle : UInt64.ofNat c.running.client.mDuplicate ≤ UInt64.ofNat c.mLost := by
    rw [UInt64.le_iff_toNat_le, UInt64.toNat_ofNat', UInt64.toNat_ofNat',
      Nat.mod_eq_of_lt hlt, Nat.mod_eq_of_lt (by omega)]
    exact h
  simp only [statistics]
  rw [UInt64.toNat_sub_of_le _ _ hle, UInt64.toNat_ofNat', UInt64.toNat_ofNat',
    Nat.mod_eq_of_lt hlt, Nat.mod_eq_of_lt (by omega)]

theorem counted_receiver {c c' : Counting κ} (h : c.running.client.Counted c.mLost) {data : Data}
    {overwritten : Bool} (hfresh : Fresh c (.datagram data overwritten))
    (hc' : c.receiver data overwritten = some c') : c'.running.client.Counted c'.mLost := by
  unfold receiver at hc'
  split at hc'
  · cases hc'
    exact h
  · split at hc'
    · cases hc'
      exact h
    next header message hdecode =>
      split at hc'
      next hvalid =>
        obtain ⟨client, hclient, rfl⟩ := Option.map_eq_some_iff.mp hc'
        have hle : c.mLost ≤ if header.tries > 0 then c.mLost + 1 else c.mLost := by
          split <;> omega
        unfold onReceive at hclient
        split at hclient
        next m hm =>
          cases hclient
          apply h.push m hle
          intro hsame
          have htries : header.tries = 0 := by
            split at hsame
            · omega
            next hzero => exact UInt32.le_zero_iff.mp (UInt32.not_lt.mp hzero)
          have hfirst : firstTry data = some m := by
            simp [firstTry, hdecode, hvalid, htries, hm, Except.toOption]
          exact hfresh m hfirst
        next what _ =>
          cases hclient
          have hreport : (c.running.client.report (.error what)).Counted c.mLost :=
            ⟨h.cache, h.duplicates⟩
          have hidle := hreport.becomeIdle overwritten
          exact ⟨hidle.cache, Nat.le_trans hidle.duplicates hle⟩
        · cases hclient
      · cases hc'
        exact h

theorem counted_step {c c' : Counting κ} (h : c.running.client.Counted c.mLost) {e : Event κ}
    (hfresh : Fresh c e) (hstep : c.step e = some c') : c'.running.client.Counted c'.mLost := by
  cases e with
  | download address file destination =>
    rw [step, Option.some.injEq] at hstep
    subst hstep
    split
    · exact h.download address file destination
    · exact h
  | datagram data overwritten => exact counted_receiver h hfresh hstep
  | turn turn =>
    cases hstep
    exact Counted.turn h turn

/-- In every run whose first tries bring only blocks that are new, the duplicates
counted are at most the frames counted as lost. -/
theorem run_duplicates_le (memory : Uninitialized) (timeout : ℤ) (retries : ℕ) (address : κ)
    (es : List (Event κ)) (c : Counting κ)
    (hrun : Machine.Run machine Fresh (new memory timeout retries address) es c) :
    c.running.client.mDuplicate ≤ c.mLost := by
  have hnew : (new memory timeout retries address).running.client.Counted 0 :=
    ⟨fun _ => rfl, Nat.le_refl 0⟩
  have hcounted : c.running.client.Counted c.mLost :=
    hrun.invariant (I := fun c => c.running.client.Counted c.mLost)
      (fun _ _ _ hc he hstep => counted_step hc he hstep) hnew
  exact hcounted.le

/-- A message in a frame, as the server's channel sends it. -/
def frame (m : Protocol) (tries : ℕ) : Data :=
  (Channel.encode m.serialize tries 0).toOption.getD []

/-- A download of a file of two blocks, of which the second is the first to
arrive, and a frame that brings it again. -/
def secondBlock (tries : ℕ) : List (Event ℕ) :=
  [.download 1 System.fileA.1 [66], .turn (.dispatch true),
    .datagram (frame (.size System.fileA.1 1025) 0) false, .turn (.dispatch true),
    .turn (.dispatch true),
    .datagram (frame (.start System.fileA.1) 0) false, .turn (.dispatch true),
    .datagram (frame (.data System.fileA.1 1 [7]) 0) false, .turn (.dispatch true),
    .turn (.dispatch true),
    .datagram (frame (.data System.fileA.1 1 [7]) tries) false, .turn (.dispatch true)]

/-- The block is sent again, as its acknowledgement was lost. -/
theorem run_duplicates_le_retried :
    ∃ c : Counting ℕ,
      machine.execWhile Fresh (new System.leftover 1000 5 1) (secondBlock 1) = some c ∧
      c.running.client.mDuplicate = 1 ∧ c.running.client.mDuplicate ≤ c.mLost := by
  let c := (machine.execWhile Fresh (new System.leftover 1000 5 1) (secondBlock 1)).get
    (by decide +kernel)
  have hrun : machine.execWhile Fresh (new System.leftover 1000 5 1) (secondBlock 1) = some c :=
    (Option.some_get _).symm
  exact ⟨c, hrun, by decide +kernel,
    run_duplicates_le System.leftover 1000 5 1 (secondBlock 1) c
      (Machine.run_iff_execWhile.mpr hrun)⟩

/-- The network delivers the frame of the block twice. -/
theorem exec_not_duplicates_le :
    ¬∀ (memory : Uninitialized) (timeout : ℤ) (retries address : ℕ) (es : List (Event ℕ))
      (c : Counting ℕ), machine.exec (new memory timeout retries address) es = some c →
      c.running.client.mDuplicate ≤ c.mLost := by
  intro h
  let c := (machine.exec (new System.leftover 1000 5 1) (secondBlock 0)).get (by decide +kernel)
  have hrun : machine.exec (new System.leftover 1000 5 1) (secondBlock 0) = some c :=
    (Option.some_get _).symm
  exact absurd (h System.leftover 1000 5 1 (secondBlock 0) c hrun) (by decide +kernel)

end Counting

end Client

end Course.Rdt
