import Course.Gemm.DMAReadPath
import Course.Gemm.StreamReaderProgress
import Mathlib.Order.WellFounded

/-! A request to `DMA_reader_Ctl` comes to its end, whatever the order in which DRAM answers, as
long as it answers at all and the ports are ready again and again. -/

open Course.Lib

namespace Course.Gemm.DMAReadPath

/-- What the controller and its stream reader may wait for. -/
inductive PathAwaited
  | tlA
  | tlD
  | access
  deriving DecidableEq

def PathAwaited.signal : PathAwaited → ReadPathStimulus → Prop
  | tlA, e => e.aReady = true
  | tlD, e => e.d.isSome = true
  | access, e => e.accessReady = true

/-- The controller with the words that the stream reader owes it. -/
def model (s : DMAReadPath) : DMAReader where
  ctl := s.ctl
  pending := (asked s.reader).drop s.reader.emitted.length
  req := s.req
  streams := []
  written := s.written

def awaits (params : StreamParams) (s : DMAReadPath) : PathAwaited :=
  if s.model.awaits = .access then .access
  else if (List.range params.nXacts).any fun id => (s.reader.fetch.gets id).isSome then .tlD
  else .tlA

/-- What the controller has to do, and then what the stream reader has. -/
def work (params : StreamParams) (s : DMAReadPath) : ℕ × ℕ :=
  (s.model.work, s.reader.fetch.work params)

variable {params : StreamParams} {addrWidth : ℕ} {mem : ℕ → BitVec 64} {s t : DMAReadPath}
  {a : DMAReader} {e : ReadPathStimulus}

theorem Refines.model_eq (h : Refines params addrWidth mem s a) :
    a = { s.model with streams := a.streams } := by
  obtain ⟨-, -, hctl, hpending, hreq, hwritten⟩ := h
  cases a
  simp only [model, DMAReader.mk.injEq, true_and]
  exact ⟨hctl, hpending, hreq, hwritten⟩

theorem Refines.work_model (h : Refines params addrWidth mem s a) : a.work = s.model.work := by
  rw [h.model_eq]
  rfl

theorem Refines.awaits_model (h : Refines params addrWidth mem s a) :
    a.awaits = s.model.awaits := by
  rw [h.model_eq]
  rfl

/-- The stream reader's part of a step. -/
theorem fetch_step (hstep : (machine params addrWidth mem).step s e = some t) :
    ∃ d, s.reader.fetch.beat mem (s.reader.inner (s.stimulus e)) = some d ∧
      t.reader.fetch = s.reader.fetch.next params (s.reader.inner (s.stimulus e)) d := by
  obtain ⟨reader, hreader, rfl⟩ := Option.map_eq_some_iff.mp hstep
  obtain ⟨fetch, hfetch, rfl⟩ := Option.map_eq_some_iff.mp hreader
  obtain ⟨d, hbeat, rfl⟩ := Option.map_eq_some_iff.mp hfetch
  exact ⟨d, hbeat, rfl⟩

theorem beat_isSome {fetch : StreamFetch} {e : FetchStimulus} {d : Option ReadBeat}
    (hbeat : fetch.beat mem e = some d) : d.isSome = e.d.isSome := by
  rw [StreamFetch.beat] at hbeat
  split at hbeat
  next hnone =>
    obtain rfl := Option.some.inj hbeat
    rw [hnone]
    rfl
  next id hsome =>
    split at hbeat
    next => cases hbeat
    next =>
      split at hbeat
      next =>
        obtain rfl := Option.some.inj hbeat
        rw [hsome]
        rfl
      next => cases hbeat

/-- What has come out is what the buffer has given out. -/
theorem Refines.length_pending (h : Refines params addrWidth mem s a) :
    a.pending.length = (asked s.reader).length - s.reader.fetch.delivered.length := by
  rw [h.pending, List.length_drop, h.reader.emitted]

theorem length_asked (h : s.reader.Passes params mem) :
    (asked s.reader).length = (s.reader.fetch.requested.flatMap (·.flits mem)).length := by
  have hdata := congrArg List.length h.data_requested
  rw [List.length_map] at hdata
  rw [hdata, asked, List.length_flatMap, List.length_flatMap]
  simp

/-- As long as the stream reader has to ask, the controller waits for words. -/
theorem Refines.not_read (h : Refines params addrWidth mem s a)
    (hmain : s.ctl.main_state = .dma_request) : s.reader.fetch.core.state ≠ .s_read := by
  intro hread
  obtain ⟨n, k, hmoves⟩ := h.moves
  obtain ⟨all, read, filled, place, hfetch⟩ := h.reader.inv.fetch
  have hpos := hmoves.position
  rw [← h.ctl] at hmain
  simp only [DMAReader.Position, hmain] at hpos
  have hpending := h.length_pending
  rw [hpos.2.1, List.length_nil, length_asked h.reader] at hpending
  have hasked := hfetch.asked
  rw [StreamFetch.Asked, hread] at hasked
  obtain ⟨r, m, hsending, hall⟩ := hasked
  have hlen := congrArg List.length hall
  rw [List.length_append, length_stretch] at hlen
  have hlt := hsending.lt
  have htake : s.reader.fetch.delivered.length ≤ all.length := by
    rw [hfetch.delivered]
    exact List.length_take_le' _ _
  omega

/-- While the controller waits for a word, there is one that has not come out. -/
theorem Refines.delivered_ne (h : Refines params addrWidth mem s a)
    (hmain : s.ctl.main_state = .dma_reading) (hptr : s.ctl.read_ptr ≠ s.ctl.cur_64b_len) :
    s.reader.fetch.delivered ≠ s.reader.fetch.requested.flatMap (·.flits mem) ∧
      s.ctl.read_ptr < s.ctl.cur_64b_len := by
  obtain ⟨n, k, hmoves⟩ := h.moves
  have hpos := hmoves.position
  rw [← h.ctl] at hmain hptr ⊢
  simp only [DMAReader.Position, hmain] at hpos
  obtain ⟨m, hk, -, -, hle, hpending, -⟩ := hpos
  have hlt := lt_of_le_of_ne hle hptr
  refine ⟨fun heq => ?_, hlt⟩
  have hlen := h.length_pending
  rw [heq, length_asked h.reader, Nat.sub_self, hpending, length_stretch] at hlen
  omega

/-- A word that the buffer holds comes out when the controller is ready. -/
theorem occupied_eq_false (h : s.reader.Passes params mem) (hready : s.ctl.dmaOutReady = true)
    (hout : s.reader.aligner.outFire s.reader.bufferOut s.ctl.dmaOutReady = none) :
    s.reader.fetch.buffer.occupied = false := by
  by_contra hocc
  have hsome : s.reader.bufferOut = some s.reader.fetch.buffer.buffer.readData :=
    if_pos (Bool.eq_true_of_not_eq_false hocc)
  have hnbytes := h.inv.aligner.fullNbytes (h.keeps hsome)
  have hvalid : s.reader.aligner.outValid s.reader.bufferOut = true := by
    rw [hsome, Aligner.outValid, Option.any_some, hnbytes, h.nbytes]
    simp
  rw [Aligner.outFire, hvalid, hready] at hout
  cases hout

/-- While the controller is busy, it or the stream reader comes nearer to the end, or both wait for
the same signal as before. -/
theorem Refines.progress (h : Refines params addrWidth mem s a) (hsources : 0 < params.nXacts)
    (hsrc : s.reader.fetch.Sourced params) (hbusy : s.ctl.main_state ≠ .main_idle)
    (hstep : (machine params addrWidth mem).step s e = some t)
    (hnext : Refines params addrWidth mem t (a.cycle addrWidth mem (s.answers e))) :
    Prod.Lex (· < ·) (· < ·) (t.work params) (s.work params) ∨
      t.work params = s.work params ∧ t.awaits params = s.awaits params ∧
        ¬(s.awaits params).signal e := by
  obtain ⟨n, k, hmoves⟩ := h.moves
  have hctl := hmoves.progress_waits (e := s.answers e) (by rwa [h.ctl])
  rw [h.work_model, h.awaits_model, hnext.work_model, hnext.awaits_model] at hctl
  obtain hlt | ⟨heq, hawaits, hsignal, hwaits⟩ := hctl
  · exact .inl (.left _ _ hlt)
  obtain ⟨all, read, filled, place, hfetch⟩ := h.reader.inv.fetch
  obtain ⟨d, hbeat, ht⟩ := fetch_step hstep
  obtain ⟨j, haims, -⟩ := hfetch.aims hbeat
  -- the controller asks for nothing, or it would have gone on
  have hreq : s.reader.fetch.core.state = .s_idle → (s.reader.inner (s.stimulus e)).req = none := by
    intro hidle
    refine if_neg fun hfire => ?_
    simp only [ReaderCtl.dmaReqFire, Bool.and_eq_true, decide_eq_true_eq] at hfire
    refine hsignal ?_
    rw [DMAReader.awaits, if_pos (show s.model.ctl.main_state = .dma_request from hfire.1)]
    exact decide_eq_true hidle
  obtain hlt | ⟨hsame, hquiet⟩ := hfetch.work_next hsrc haims hreq
  · left
    rw [work, work, heq, ht]
    exact .right _ hlt
  right
  have hparts := hquiet
  simp only [StreamFetch.Active, not_or, Bool.not_eq_true] at hparts
  obtain ⟨hsent, hd, -, -, hresp⟩ := hparts
  obtain rfl : d = none := Option.not_isSome_iff_eq_none.mp (by rw [hd]; exact Bool.false_ne_true)
  have hgets : t.reader.fetch.gets = s.reader.fetch.gets := by
    rw [ht, StreamFetch.gets_next_none hsent]
    rfl
  refine ⟨by rw [work, work, heq, ht, hsame], by rw [awaits, awaits, hawaits, hgets], ?_⟩
  rw [awaits]
  obtain ⟨hmain, hidle⟩ | ⟨hmain, hptr⟩ | ⟨hmain, hne⟩ := hwaits
  · -- the stream reader has nothing to ask and nothing to answer
    rw [h.ctl] at hmain
    have hread := h.not_read hmain
    cases hstate : s.reader.fetch.core.state with
    | s_idle => simp [answers, hstate] at hidle
    | s_read => exact absurd hstate hread
    | s_resp => exact absurd ⟨hstate, rfl⟩ hresp
  · rw [h.ctl] at hmain hptr
    obtain ⟨hleft, hlt⟩ := h.delivered_ne hmain hptr
    by_cases hnil : s.model.ctl.data_queue = []
    · have hout : s.model.awaits = .dmaOut := by
        rw [DMAReader.awaits, if_neg (by simp [model, hmain]), if_pos hnil]
      rw [hout] at hsignal ⊢
      have hready : s.ctl.dmaOutReady = true := by
        have hlen : s.ctl.data_queue.length = 0 := congrArg List.length hnil
        simp [ReaderCtl.dmaOutReady, hmain, hlt, hlen]
      have hnone : s.reader.aligner.outFire s.reader.bufferOut s.ctl.dmaOutReady = none :=
        Option.not_isSome_iff_eq_none.mp hsignal
      have hocc := occupied_eq_false h.reader hready hnone
      rw [if_neg (by decide)]
      have hd := beat_isSome hbeat
      obtain ⟨⟨id, hid⟩, -⟩ | ⟨hgets, haReady⟩ := hfetch.waits hsources hocc hleft hquiet
      · have hany : ((List.range params.nXacts).any fun id =>
            (s.reader.fetch.gets id).isSome) = true :=
          List.any_eq_true.mpr ⟨id, List.mem_range.mpr (hsrc id hid), hid⟩
        rw [if_pos hany]
        intro hsome
        rw [show (s.reader.inner (s.stimulus e)).d = e.d from rfl, hsome] at hd
        cases hd
      · have hany : ((List.range params.nXacts).any fun id =>
            (s.reader.fetch.gets id).isSome) = false := by
          rw [List.any_eq_false]
          intro id _
          rw [hgets]
          exact Bool.false_ne_true
        rw [hany, if_neg Bool.false_ne_true]
        intro hready
        rw [show (s.reader.inner (s.stimulus e)).aReady = e.aReady from rfl, hready] at haReady
        cases haReady
    · have haccess : s.model.awaits = .access := by
        rw [DMAReader.awaits, if_neg (by simp [model, hmain]), if_neg hnil]
      rw [haccess] at hsignal ⊢
      exact hsignal
  · rw [h.ctl] at hmain hne
    have haccess : s.model.awaits = .access := by
      rw [DMAReader.awaits, if_neg (by simp [model, hmain]),
        if_neg (show s.model.ctl.data_queue ≠ [] from hne)]
    rw [haccess] at hsignal ⊢
    exact hsignal

/-- Every port is ready again and again, and a read that is outstanding gets its beats. -/
structure Fair (f : ℕ → DMAReadPath) (e : ℕ → ReadPathStimulus) : Prop where
  tlA : ∀ n, ∃ m, n ≤ m ∧ (e m).aReady = true
  access : ∀ n, ∃ m, n ≤ m ∧ (e m).accessReady = true
  tlD : ∀ n, (∀ m, n ≤ m → ∃ id, ((f m).reader.fetch.gets id).isSome = true) →
    ∃ m, n ≤ m ∧ (e m).d.isSome = true

theorem Fair.signal {f : ℕ → DMAReadPath} {e : ℕ → ReadPathStimulus} (h : Fair f e) (n : ℕ)
    (hawaits : ∀ m, n ≤ m → (f m).awaits params = (f n).awaits params) :
    ∃ m, n ≤ m ∧ ((f n).awaits params).signal (e m) := by
  cases hn : (f n).awaits params with
  | tlA => exact h.tlA n
  | access => exact h.access n
  | tlD =>
    refine h.tlD n fun m hm => ?_
    have hany := (hawaits m hm).trans hn
    rw [awaits] at hany
    split at hany
    next => cases hany
    next =>
      split at hany
      next hsome =>
        obtain ⟨id, -, hid⟩ := List.any_eq_true.mp hsome
        exact ⟨id, hid⟩
      next => cases hany

/-- The invariant along a run. -/
def Reached (params : StreamParams) (addrWidth : ℕ) (mem : ℕ → BitVec 64) (s : DMAReadPath) :
    Prop :=
  (∃ a, Refines params addrWidth mem s a) ∧ s.reader.fetch.Sourced params

theorem reached_step (haddr : 32 ≤ params.addrBits) (h : Refines params addrWidth mem s a)
    (hsrc : s.reader.fetch.Sourced params) (hperm : Permitted addrWidth s e)
    (hstep : (machine params addrWidth mem).step s e = some t) :
    Refines params addrWidth mem t (a.cycle addrWidth mem (s.answers e)) ∧
      t.reader.fetch.Sourced params := by
  refine ⟨h.step haddr (fun hidle => hperm (by rw [← h.ctl]; exact hidle)) hstep, ?_⟩
  obtain ⟨all, read, filled, place, hfetch⟩ := h.reader.inv.fetch
  obtain ⟨d, hbeat, ht⟩ := fetch_step hstep
  obtain ⟨j, haims, -⟩ := hfetch.aims hbeat
  rw [ht]
  exact hsrc.next ⟨j, haims⟩

theorem reached (core : StreamReaderCore) (buffer : BufferBRAM StreamChannel)
    (xactHeads : ℕ → ℕ) (haddr : 32 ≤ params.addrBits) {f : ℕ → DMAReadPath}
    {e : ℕ → ReadPathStimulus} (hstart : f 0 = init core buffer xactHeads)
    (hstep : ∀ n, (machine params addrWidth mem).step (f n) (e n) = some (f (n + 1)))
    (hperm : ∀ n, Permitted addrWidth (f n) (e n)) (n : ℕ) :
    Reached params addrWidth mem (f n) := by
  induction n with
  | zero =>
    rw [hstart]
    exact ⟨⟨_, init_refines core buffer xactHeads⟩, fun id hid => by cases hid⟩
  | succ n ih =>
    obtain ⟨⟨a, href⟩, hsrc⟩ := ih
    obtain ⟨hnext, hsrc'⟩ := reached_step haddr href hsrc (hperm n) (hstep n)
    exact ⟨⟨_, hnext⟩, hsrc'⟩

/-- In every infinite run in which the ports are ready again and again and DRAM answers: the
controller comes back to idle from wherever it is. -/
theorem dmaRead_ends (core : StreamReaderCore) (buffer : BufferBRAM StreamChannel)
    (xactHeads : ℕ → ℕ) (haddr : 32 ≤ params.addrBits) (hsources : 0 < params.nXacts)
    {f : ℕ → DMAReadPath} {e : ℕ → ReadPathStimulus} (hstart : f 0 = init core buffer xactHeads)
    (hstep : ∀ n, (machine params addrWidth mem).step (f n) (e n) = some (f (n + 1)))
    (hperm : ∀ n, Permitted addrWidth (f n) (e n)) (hfair : Fair f e) (n : ℕ) :
    ∃ m, n ≤ m ∧ (f m).ctl.main_state = .main_idle := by
  obtain ⟨m, hm⟩ := exists_of_weak_fair (I := Reached params addrWidth mem)
    (Q := fun s => s.ctl.main_state = .main_idle) (v := work params)
    (WellFounded.prod_lex Nat.lt_wfRel.wf Nat.lt_wfRel.wf) (WeakFair.drop hfair.signal n)
    (fun i ⟨⟨a, href⟩, hsrc⟩ hbusy =>
      have hnext := reached_step haddr href hsrc (hperm _) (hstep (n + i))
      ⟨⟨⟨_, hnext.1⟩, hnext.2⟩, href.progress hsources hsrc hbusy (hstep (n + i)) hnext.1⟩)
    (reached core buffer xactHeads haddr hstart hstep hperm n)
  exact ⟨n + m, Nat.le_add_right n m, hm⟩

/-- The cycles of `acrossPage`, and then rest. -/
def endless (n : ℕ) : ReadPathStimulus := acrossPage.getD n (eager none none)

def states : ℕ → DMAReadPath
  | 0 => init StreamReader.zeroCore StreamReader.zeroBuffer fun _ => 0
  | n + 1 => ((machine StreamReader.dmaReader 17 StreamReader.countingMem).step (states n)
      (endless n)).getD (states n)

/-- Nothing happens any more. -/
theorem rests (s : DMAReadPath) : ∃ t,
    (machine params addrWidth mem).step s (eager none none) = some t ∧
      (s.ctl.main_state = .main_idle ∧ s.reader.fetch.core.state = .s_idle →
        t.ctl.main_state = .main_idle ∧ t.reader.fetch.core.state = .s_idle ∧
          t.reader.fetch.gets = s.reader.fetch.gets) := by
  refine ⟨_, rfl, fun ⟨hctl, hcore⟩ => ?_⟩
  have hsent : s.reader.fetch.sent params (s.reader.inner (s.stimulus (eager none none))) =
      false := by
    simp [StreamFetch.sent, StreamReaderCore.sendFire, StreamReaderCore.canSend, hcore]
  refine ⟨?_, ?_, StreamFetch.gets_next_none hsent⟩
  · simp [next, ReaderCtl.cycle, ReaderCtl.main, hctl, ports, eager]
  · simp [next, StreamReader.next, StreamFetch.next, StreamReaderCore.cycle, hcore,
      StreamReader.inner, stimulus, ReaderCtl.dmaReqFire, hctl]

theorem endless_of_le {n : ℕ} (hn : 28 ≤ n) : endless n = eager none none := by
  rw [endless, List.getD_eq_getElem?_getD, List.getElem?_eq_none hn]
  rfl

theorem states_step (n : ℕ) : (machine StreamReader.dmaReader 17 StreamReader.countingMem).step
    (states n) (endless n) = some (states (n + 1)) := by
  have hsome : ((machine StreamReader.dmaReader 17 StreamReader.countingMem).step (states n)
      (endless n)).isSome = true := by
    have hfirst : ∀ n < 28, ((machine StreamReader.dmaReader 17 StreamReader.countingMem).step
        (states n) (endless n)).isSome = true := by
      decide +kernel
    rcases Nat.lt_or_ge n 28 with hlt | hge
    · exact hfirst n hlt
    · rw [endless_of_le hge]
      rfl
  obtain ⟨t, ht⟩ := Option.isSome_iff_exists.mp hsome
  rw [states, ht]
  rfl

theorem states_permitted (n : ℕ) : Permitted 17 (states n) (endless n) := by
  have hfirst : ∀ n < 28, Permitted 17 (states n) (endless n) := by
    decide +kernel
  rcases Nat.lt_or_ge n 28 with hlt | hge
  · exact hfirst n hlt
  · rw [endless_of_le hge]
    rintro - r hr
    cases hr

/-- From the end of `acrossPage` on no read is outstanding. -/
theorem states_rest (k : ℕ) : (states (28 + k)).ctl.main_state = .main_idle ∧
    (states (28 + k)).reader.fetch.core.state = .s_idle ∧
      ∀ id, (states (28 + k)).reader.fetch.gets id = none := by
  induction k with
  | zero =>
    refine ⟨by decide +kernel, by decide +kernel, fun id => ?_⟩
    have hsrc := (reached _ _ _ (show 32 ≤ StreamReader.dmaReader.addrBits by decide) rfl
      states_step states_permitted 28).2 id
    have hfew : ∀ id < StreamReader.dmaReader.nXacts,
        ((states 28).reader.fetch.gets id).isSome = false := by
      decide +kernel
    refine Option.not_isSome_iff_eq_none.mp fun hsome => ?_
    rw [Nat.add_zero, hfew id (hsrc hsome)] at hsome
    cases hsome
  | succ k ih =>
    obtain ⟨hctl, hcore, hgets⟩ := ih
    obtain ⟨t, ht, hrest⟩ := rests (states (28 + k))
    have hstep := states_step (28 + k)
    rw [endless_of_le (Nat.le_add_right ..), ht] at hstep
    obtain rfl := Option.some.inj hstep
    obtain ⟨hctl', hcore', hgets'⟩ := hrest ⟨hctl, hcore⟩
    exact ⟨hctl', hcore', fun id => (congrFun hgets' id).trans (hgets id)⟩

theorem dmaRead_ends_acrossPage :
    (states 20).ctl.main_state ≠ .main_idle ∧
      ∃ m, 20 ≤ m ∧ (states m).ctl.main_state = .main_idle := by
  refine ⟨by decide +kernel, ?_⟩
  refine dmaRead_ends _ _ _ (show 32 ≤ StreamReader.dmaReader.addrBits by decide)
    (show 0 < StreamReader.dmaReader.nXacts by decide) rfl states_step states_permitted
    ⟨fun n => ⟨28 + n, by omega, ?_⟩, fun n => ⟨28 + n, by omega, ?_⟩, fun n hgets => ?_⟩ 20
  · rw [endless_of_le (by omega)]
    rfl
  · rw [endless_of_le (by omega)]
    rfl
  · obtain ⟨id, hid⟩ := hgets (28 + n) (by omega)
    rw [(states_rest n).2.2] at hid
    cases hid

end Course.Gemm.DMAReadPath
