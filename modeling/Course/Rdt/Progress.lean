import Course.Rdt.Download

/-! In `State::Data` some block of the file is missing, unless the file is
empty: then the client waits for a block that the server never sends. -/

open Course.Lib

namespace Course.Rdt

variable {κ : Type} {files : Files} {paths : Set Data} {started : Prop} {content : Data}

namespace Client

/-- In `State::Data` fewer bytes are written than the file has. -/
def Lacking (content : Data) (c : Client κ) : Prop :=
  c.mState = .data → c.mOutput.written.length < content.length

theorem lacking_of_ne {c : Client κ} (h : c.mState ≠ .data) : c.Lacking content :=
  fun hdata => absurd hdata h

/-- A handler that starts with `wait` and goes on from `c'` when its message is
there. -/
theorem Lacking.wait {c : Client κ} (h : c.Lacking content) (hstate : c.mState ≠ .idle)
    (type : ProtocolType) :
    ∃ c', c'.Lacking content ∧ c'.mOutput = c.mOutput ∧
      (c.wait type = (c', none) ∨ c.wait type = (c', some false) ∨ c.wait type = (c', some true)) := by
  rcases wait_cases c type hstate with hwait | ⟨m, rest, -, ⟨-, hwait⟩ | ⟨-, hwait⟩⟩
  · refine ⟨_, ?_, ?_, .inl hwait⟩
    · exact h
    · rfl
  · refine ⟨_, ?_, ?_, .inr (.inl hwait)⟩
    · exact lacking_of_ne State.noConfusion
    · rfl
  · refine ⟨_, ?_, ?_, .inr (.inr hwait)⟩
    · exact h
    · rfl

theorem Lacking.size {c : Client κ} (h : c.Lacking content) (hstate : c.mState = .size) :
    c.size.Lacking content := by
  obtain ⟨c', hc', -, hwait | hwait | hwait⟩ := h.wait (by rw [hstate]; decide) .size
  · rw [Client.size, hwait]
    exact hc'
  · rw [Client.size, hwait]
    exact hc'
  · rw [Client.size, hwait]
    simp only
    split
    · exact lacking_of_ne State.noConfusion
    · exact hc'

theorem Lacking.start {c : Client κ} (h : c.Lacking content) (hstate : c.mState = .start)
    (hclosed : c.mOutput.isOpen = false) (hcontent : content ≠ []) (opened : Bool) :
    (c.start opened).Lacking content := by
  obtain ⟨c', hc', houtput, hwait | hwait | hwait⟩ := h.wait (by rw [hstate]; decide) .start
  · rw [Client.start, hwait]
    exact hc'
  · rw [Client.start, hwait]
    exact hc'
  · rw [Client.start, hwait]
    simp only [houtput, Ofstream.open, hclosed, Bool.false_eq_true, if_false]
    split
    · exact fun _ => List.length_pos_iff.mpr hcontent
    · exact lacking_of_ne State.noConfusion

theorem Lacking.data {c : Client κ} (h : c.Lacking content) (hstate : c.mState = .data) :
    c.data.Lacking content := by
  obtain ⟨c', hc', -, hwait | hwait | hwait⟩ := h.wait (by rw [hstate]; decide) .data
  · rw [Client.data, hwait]
    exact hc'
  · rw [Client.data, hwait]
    exact hc'
  · rw [Client.data, hwait]
    simp only
    split
    next path block data queue hqueue =>
      generalize { c' with mProtocols := queue } = taken
      cases hreceive : taken.receiveBlock block.toNat data with
      | mk c'' thrown =>
        cases thrown with
        | some e => exact lacking_of_ne State.noConfusion
        | none =>
          -- what is not thrown goes on to acknowledge the block
          have hack : c''.mState = .acknowledge := by
            unfold receiveBlock at hreceive
            split at hreceive
            · cases hreceive
              rfl
            · simp only at hreceive
              split at hreceive
              · cases hreceive
              · cases hreceive
                rfl
          exact lacking_of_ne (by rw [caught, hack]; decide)
    · exact hc'

/-- Going on without the whole file goes back to `State::Data`. -/
theorem Sound.lacking_acknowledge {c : Client κ} (h : c.Sound files paths started)
    (hstate : c.mState = .acknowledge) (hcontent : files.content c.mFile = some content) :
    c.acknowledge.Lacking content := by
  have hphase := h.phase
  rw [Phase, hstate] at hphase
  obtain ⟨content', ⟨hcontent', hsize⟩, hopen, hholds, -⟩ := hphase
  rw [hcontent] at hcontent'
  cases hcontent'
  intro hdata
  have htellp : c.mOutput.tellp ≠ c.mSize := by
    intro htellp
    simp only [Client.acknowledge, htellp, if_true] at hdata
    cases hdata
  rw [tellp_eq hopen, hsize, hholds.written, List.length_take] at htellp
  change c.mOutput.written.length < content.length
  rw [hholds.written, List.length_take]
  omega

theorem Sound.lacking_dispatch {c : Client κ} (h : c.Sound files paths started) (hl : c.Lacking content)
    (hcontent : ∀ path ∈ paths, files.content path = some content) (hne : content ≠ [])
    (opened : Bool) : (c.dispatch opened).Lacking content := by
  unfold Client.dispatch
  split
  next => exact hl
  next => exact lacking_of_ne State.noConfusion
  next hstate => exact hl.size hstate
  next => exact lacking_of_ne State.noConfusion
  next hstate =>
    have hphase := h.phase
    rw [Phase, hstate] at hphase
    exact hl.start hstate hphase.1.2 hne opened
  next hstate => exact hl.data hstate
  next hstate =>
    exact h.lacking_acknowledge hstate (hcontent _ (h.named (by rw [hstate]; decide)).2)
  next =>
    unfold Client.checksum
    simp only
    split <;> exact lacking_of_ne State.noConfusion
  next hstate =>
    obtain ⟨c', hc', -, hwait | hwait | hwait⟩ := hl.wait (by rw [hstate]; decide) .confirm
    · rw [Client.confirm, hwait]
      exact hc'
    · rw [Client.confirm, hwait]
      exact hc'
    · rw [Client.confirm, hwait]
      exact lacking_of_ne State.noConfusion
  next hstate =>
    unfold Client.error
    split
    · exact lacking_of_ne State.noConfusion
    · exact hl

theorem Lacking.onTimeout {c : Client κ} (h : c.Lacking content) (task : Channel.Task κ)
    (lost : Bool) : (c.onTimeout task lost).Lacking content := by
  unfold Client.onTimeout becomeIdle
  split
  · exact h
  · exact lacking_of_ne State.noConfusion

theorem Lacking.onReceive {c c' : Client κ} (h : c.Lacking content) {data : Data} {lost : Bool}
    (hc : c.onReceive data lost = some c') : c'.Lacking content := by
  unfold Client.onReceive at hc
  split at hc
  · cases hc
    exact h
  · cases hc
    unfold becomeIdle
    split
    · exact h
    · exact lacking_of_ne State.noConfusion
  · cases hc

end Client

namespace System

variable [DecidableEq κ] {host home : κ}

theorem Sound.lacking_step {s t : System κ} {e : Event κ} (h : s.Sound files paths started)
    (hl : s.client.client.Lacking content)
    (hcontent : ∀ path ∈ paths, files.content path = some content) (hne : content ≠ [])
    (hstep : s.step files host home e = some t) : t.client.client.Lacking content := by
  cases e with
  | download file destination =>
    rw [System.step] at hstep
    split at hstep
    · cases hstep
      exact Client.lacking_of_ne Client.State.noConfusion
    · cases hstep
      exact hl
  | toServer i now =>
    rw [System.step] at hstep
    split at hstep
    · cases hstep
      exact hl
    · split at hstep
      · obtain ⟨_, _, rfl⟩ := Option.map_eq_some_iff.mp hstep
        exact hl
      · cases hstep
        exact hl
  | toClient i lost =>
    rw [System.step] at hstep
    split at hstep
    · cases hstep
      exact hl
    · split at hstep
      · obtain ⟨client, hclient, rfl⟩ := Option.map_eq_some_iff.mp hstep
        exact hl.onReceive hclient
      · cases hstep
        exact hl
  | server turn =>
    cases hstep
    exact hl
  | client turn =>
    cases hstep
    cases turn with
    | dispatch opened => exact h.client.lacking_dispatch hl hcontent hne opened
    | timer handle => exact hl
    | callback i lost =>
      rw [Client.Running.turn]
      split
      · exact hl
      next callback _ =>
        cases callback with
        | retry task => exact hl
        | timeout task => exact hl.onTimeout task lost

/-- In `State::Data` the output is short of the announced size exactly when the
file has a byte. -/
theorem run_written_lt_iff (files : Files) (host home : κ) (path : Path) (content : Data)
    (hcontent : files.content path.1 = some content) (memory : Client.Uninitialized)
    (serverTimeout : ℤ) (serverRetries : ℕ) (clientTimeout : ℤ) (clientRetries : ℕ)
    (es : List (Event κ)) (s : System κ)
    (hrun : Machine.Run (machine files host home) (fun _ e => e.Of path)
      (new memory serverTimeout serverRetries clientTimeout clientRetries host) es s)
    (hstate : s.client.client.mState = .data) :
    s.client.client.mOutput.written.length < s.client.client.mSize ↔ content ≠ [] := by
  have hpaths : ∀ p ∈ ({path.1} : Set Data), files.content p = some content := fun p hp => by
    rw [Set.mem_singleton_iff.mp hp, hcontent]
  have hsound := sound_run_of hrun (sound_new _ _ _ _ _ _)
  have hphase := hsound.client.phase
  rw [Client.Phase, hstate] at hphase
  obtain ⟨content', ⟨hcontent', hsize⟩, -⟩ := hphase
  rw [hpaths _ (hsound.client.named (by rw [hstate]; decide)).2] at hcontent'
  cases hcontent'
  rw [hsize]
  constructor
  · rintro hlt rfl
    exact Nat.not_lt_zero _ hlt
  · intro hne
    have hinv := hrun.invariant_occurs
      (I := fun started s => s.Sound files {path.1} started ∧ s.client.client.Lacking content)
      (fun _ _ _ _ hs he hstep => ⟨hs.1.step_of he hstep, hs.1.lacking_step hs.2 hpaths hne hstep⟩)
      ⟨sound_new _ _ _ _ _ _, Client.lacking_of_ne Client.State.noConfusion⟩
    exact hinv.2 hstate

theorem run_written_lt_oneBlock :
    ∃ s : System ℕ,
      (machine twoFiles 0 1).exec (new leftover 1000 5 1000 5 0) (downloadA.take 9) = some s ∧
        s.client.client.mState = .data ∧
        (s.client.client.mOutput.written.length < s.client.client.mSize ↔ [1] ≠ ([] : Data)) := by
  let s := ((machine twoFiles 0 1).execWhile (fun _ e => e.Of fileA) (new leftover 1000 5 1000 5 0)
    (downloadA.take 9)).get (by decide +kernel)
  have hrun : Machine.Run (machine twoFiles 0 1) (fun _ e => e.Of fileA)
      (new leftover 1000 5 1000 5 0) (downloadA.take 9) s :=
    Machine.run_iff_execWhile.mpr (Option.some_get _).symm
  have hstate : s.client.client.mState = .data := by decide +kernel
  exact ⟨s, Machine.run_iff_exec.mp (hrun.mono fun _ _ _ => trivial), hstate,
    run_written_lt_iff twoFiles 0 1 fileA [1] rfl leftover 1000 5 1000 5 _ s hrun hstate⟩

def emptyFile : Files where
  content path := if path = fileA.1 then some [] else none
  size_lt path data h := by
    split at h
    · cases h
      decide
    · cases h

/-- With an empty file `State::Data` is entered with nothing left to wait for. -/
theorem exec_written_not_lt :
    ¬∀ (files : Files) (host home : ℕ) (path : Path) (content : Data)
      (memory : Client.Uninitialized) (serverTimeout : ℤ) (serverRetries : ℕ) (clientTimeout : ℤ)
      (clientRetries : ℕ) (es : List (Event ℕ)) (s : System ℕ),
      files.content path.1 = some content → (∀ e ∈ es, e.Of path) →
      (machine files host home).exec
        (new memory serverTimeout serverRetries clientTimeout clientRetries host) es = some s →
      s.client.client.mState = .data →
      s.client.client.mOutput.written.length < s.client.client.mSize := by
  intro h
  let s := ((machine emptyFile 0 1).exec (new leftover 1000 5 1000 5 0) (downloadA.take 9)).get
    (by decide +kernel)
  have hstate : s.client.client.mState = .data := by decide +kernel
  have hlt := h emptyFile 0 1 fileA [] leftover 1000 5 1000 5 (downloadA.take 9) s rfl (by decide)
    (Option.some_get _).symm hstate
  exact absurd hlt (by decide +kernel)

end System

end Course.Rdt
