import Course.Gemm.DMAWriteRuns
import Course.Gemm.StreamWriter

/-! `DMA_writer_Ctl` with its `StreamWriter`, from the on-chip memory to DRAM: the stream writer
does what the runs of the controller ask of one, so that the words of a request come to their
bytes of DRAM and no other byte changes. -/

open Course.Lib

namespace Course.Gemm

/-- What the rest of the system does in a cycle: the requests, who is ready, what the on-chip
memory shows when nothing was read, and the source whose write is acknowledged. -/
structure PathStimulus where
  req : Option DMAWriteReq
  accessReady : Bool
  noData : Word
  aReady : Bool
  d : Option ℕ

/-- `req` is the request that is worked on, and `start` what DRAM was when it came. -/
structure DMAWritePath where
  ctl : WriterCtl
  dataReadFromOnChipMem : Word
  dram : StreamStore
  req : DMAWriteReq
  start : ℕ → UInt8

namespace DMAWritePath

variable (params : WriterParams) (addrWidth : ℕ) (chip : ℕ → Word)

def init (writer : StreamWriter) (mem : ℕ → UInt8) : DMAWritePath :=
  ⟨{}, 0, .init writer mem, ⟨0, 0, 0⟩, mem⟩

variable (s : DMAWritePath) (e : PathStimulus)

def ports : Ports where
  req := e.req
  accessReady := e.accessReady
  dataReadFromOnChipMem := s.dataReadFromOnChipMem
  dmaReqReady := decide (s.dram.writer.state = .s_idle)
  dmaInReady := s.dram.writer.inReady params e.aReady
  dmaRespValid := s.dram.writer.respValid params

/-- `dmaWriterIO.in.valid` -/
def inValid : Bool :=
  decide (s.ctl.main_state = .dma_writing) && s.ctl.is_queue_has_val &&
    decide (s.ctl.cur_block_ptr_64b < s.ctl.cur_block_len_byte / 2 ^ 3)

/-- What the stream writer sees of the controller. -/
def stimulus : WriteStimulus where
  req :=
    if s.ctl.dmaReqFire (s.ports params e) then
      some ⟨s.ctl.p_baseAddr_to_dma, s.ctl.cur_block_len_byte⟩
    else none
  inValid := s.inValid
  inData := s.ctl.data_queue.headD 0
  aReady := e.aReady
  d := e.d
  respReady := true

def next (dram : StreamStore) : DMAWritePath :=
  let fresh := if s.ctl.main_state = .main_idle then e.req else none
  { ctl := s.ctl.cycle addrWidth (s.ports params e)
    dataReadFromOnChipMem :=
      if s.ctl.accessFire (s.ports params e) then chip (s.ctl.accessAddr addrWidth) else e.noData
    dram := dram
    req := fresh.getD s.req
    start := if fresh.isSome then s.dram.mem else s.start }

def machine : Machine DMAWritePath PathStimulus where
  step s e :=
    ((StreamStore.machine params).step s.dram (s.stimulus params e)).map
      (s.next params addrWidth chip e)

end DMAWritePath

/-! ### The stream writer, as the controller sees it -/

namespace StreamStore

variable {params : WriterParams} {mem : ℕ → UInt8} {s : StreamStore} {e : WriteStimulus}

def stream (s : StreamStore) : Option Stream :=
  if s.writer.state = .s_idle then none
  else some ⟨s.store.address, s.store.length, 8 * s.store.words.length⟩

theorem Inv.inReady (h : Inv params mem s) (aReady : Bool) :
    s.writer.inReady params aReady = (s.writer.canSend params && aReady &&
      s.stream.any fun st => decide (st.offset < st.length)) := by
  rw [StreamWriter.inReady, stream]
  cases hstate : s.writer.state with
  | s_idle => simp
  | s_data =>
    have hsending := h.data hstate
    have hlt := hsending.lt
    simp [hsending.sendTrail, hlt]
  | s_resp =>
    have hcomplete := (h.rest (by rw [hstate]; decide)).2
    rw [Store.Complete] at hcomplete
    simp
    omega

theorem Inv.respValid (h : Inv params mem s) :
    s.writer.respValid params =
      (((List.range params.nXacts).all fun i => !s.writer.xactBusy i) &&
        s.stream.any fun st => decide (st.length ≤ st.offset)) := by
  rw [StreamWriter.respValid, stream]
  cases hstate : s.writer.state with
  | s_idle => simp
  | s_data =>
    have hlt := (h.data hstate).lt
    simp [hlt]
  | s_resp =>
    have hcomplete := (h.rest (by rw [hstate]; decide)).2
    rw [Store.Complete] at hcomplete
    have hle : s.store.length ≤ 8 * s.store.words.length := by omega
    simp [hle]

theorem Inv.next_stream (h : Inv params mem s) :
    (s.next params e).stream =
      match s.stream with
      | none => e.req.map fun r => ⟨r.address, r.length, 0⟩
      | some st =>
        if s.writer.respFire params e then none
        else if s.writer.inFire params e then some { st with offset := st.offset + 8 }
        else some st := by
  have hnext : (s.next params e).writer.state = (s.writer.advance params e).state := rfl
  rw [stream, stream, hnext, StreamWriter.advance, next]
  dsimp only
  cases hstate : s.writer.state with
  | s_idle => cases e.req <;> simp [hstate]
  | s_data =>
    have hresp : s.writer.respFire params e = false := by
      simp [StreamWriter.respFire, StreamWriter.respValid, hstate]
    rw [hresp, h.inFire hstate]
    rcases Bool.eq_false_or_eq_true (s.writer.aFire params e) with hfire | hfire
    · have hbusy : (s.writer.onSend params e.inData).state ≠ .s_idle := by
        rw [StreamWriter.onSend]
        dsimp only
        split
        next => decide
        next =>
          rw [hstate]
          decide
      simp [hfire, hbusy, Nat.mul_add]
    · simp [hfire, hstate]
  | s_resp =>
    have hin : s.writer.inFire params e = false := by
      simp [StreamWriter.inFire, StreamWriter.inReady, hstate]
    rw [hin]
    by_cases hresp : s.writer.respFire params e = true
    · simp [hresp]
    · simp [hresp, hstate]

theorem Inv.next_mem (h : Inv params mem s) :
    (s.next params e).mem =
      if s.writer.inFire params e then
        writeBytes s.mem (s.store.address + 8 * s.store.words.length)
          ((LittleEndian.toBytes 8 e.inData.toNat).take
            (s.store.length - 8 * s.store.words.length))
      else s.mem := by
  by_cases hdata : s.writer.state = .s_data
  · rw [h.inFire hdata]
    rcases Bool.eq_false_or_eq_true (s.writer.aFire params e) with hfire | hfire
    · rw [next, hfire]
      exact (h.data hdata).receive_mem e.inData
    · rw [next, hfire]
      rfl
  · have hfire : s.writer.aFire params e = false := by simp [StreamWriter.aFire, hdata]
    have hin : s.writer.inFire params e = false := by
      simp [StreamWriter.inFire, StreamWriter.inReady, hdata]
    rw [next, hfire, hin]
    rfl

end StreamStore

/-! ### Runs -/

namespace DMAWriter

open Lib (stretch)

variable {addrWidth : ℕ} {chip : ℕ → Word} {a : DMAWriter} {n k : ℕ} {params : WriterParams}

theorem Block.whole {r : DMAWriteReq} {m l : ℕ} (h : Block r m l) (hr : Aligned r) :
    l % 8 = 0 := by
  have hbase := hr.base
  rcases h.ends with hends | ⟨hends, -⟩ <;> omega

/-- What the controller asks of the stream writer can be served. -/
theorem Moves.fits (h : Moves addrWidth chip n k a) (haddr : 32 ≤ params.addrBits)
    (hmain : a.ctl.main_state = .dma_request) :
    StreamWriteRequest.Fits params ⟨a.ctl.p_baseAddr_to_dma, a.ctl.cur_block_len_byte⟩ := by
  have hpos := h.position
  simp only [Position, hmain] at hpos
  obtain ⟨-, -, hv, hblock, hpage⟩ := hpos
  have hends := h.ends
  have hbase := h.aligned.base
  rw [Ends] at hends
  have hlt := hblock.lt
  have hbits : 2 ^ 32 ≤ 2 ^ params.addrBits := Nat.pow_le_pow_right (by decide) haddr
  have hptr : a.ctl.p_baseAddr_to_dma = a.ctl.v_addr_ptr := by
    rw [WriterCtl.p_baseAddr_to_dma, hpage]
    omega
  have hle : a.ctl.v_addr_ptr + a.ctl.cur_block_len_byte ≤ 2 ^ 32 := by
    rcases hblock.ends with hend | ⟨hend, -⟩ <;> omega
  have hinside := hblock.page
  refine ⟨hblock.pos, ?_, ?_, ?_⟩ <;> dsimp only <;> omega

/-- While the stream writer takes a word, its request is for whole words. -/
theorem Moves.whole (h : Moves addrWidth chip n k a) (hmain : a.ctl.main_state = .dma_writing)
    {st : Stream} (hst : a.stream = some st) : st.length % 8 = 0 := by
  have hpos := h.position
  simp only [Position, hmain] at hpos
  obtain ⟨m, -, -, hblock, -, hstream⟩ := hpos
  obtain rfl := Option.some.inj (hst.symm.trans hstream)
  exact hblock.whole h.aligned

def writeWord (mem : ℕ → UInt8) (w : ℕ × Word) : ℕ → UInt8 :=
  writeBytes mem w.1 (LittleEndian.toBytes 8 w.2.toNat)

/-- The writes of a request, one after the other, are the bytes of its words at its place. -/
theorem foldl_write (r : DMAWriteReq) (mem : ℕ → UInt8) (n : ℕ) :
    (stretch (r.write addrWidth chip) 0 n).foldl writeWord mem =
      writeBytes mem r.baseAddr_DRAM
        ((stretch (r.word addrWidth chip) 0 n).flatMap fun w =>
          LittleEndian.toBytes 8 w.toNat) := by
  induction n with
  | zero =>
    funext x
    simp [writeBytes]
  | succ n ih =>
    rw [Lib.stretch_succ (Nat.zero_le n), Lib.stretch_succ (Nat.zero_le n), List.foldl_append, ih,
      List.flatMap_append, writeBytes_append, length_flatMap_toBytes, Lib.length_stretch,
      Nat.sub_zero, List.flatMap_singleton]
    rfl

end DMAWriter

namespace DMAWritePath

open Lib (stretch)

variable {params : WriterParams} {addrWidth : ℕ} {chip : ℕ → Word} {mem : ℕ → UInt8}
  {s t : DMAWritePath} {a : DMAWriter} {e : PathStimulus}

/-- What the stream writer does in the cycle, for the controller. -/
def answers (params : WriterParams) (s : DMAWritePath) (e : PathStimulus) : Stimulus where
  req := e.req
  accessReady := e.accessReady
  noData := e.noData
  dmaReqReady := true
  dmaInReady := s.dram.writer.canSend params && e.aReady
  dmaRespValid := (List.range params.nXacts).all fun i => !s.dram.writer.xactBusy i

/-- The controller is where it would be with a stream writer that keeps to the rules, and what has
been written of the request is in DRAM. -/
structure Refines (params : WriterParams) (addrWidth : ℕ) (chip : ℕ → Word) (mem : ℕ → UInt8)
    (s : DMAWritePath) (a : DMAWriter) : Prop where
  dram : s.dram.Inv params mem
  moves : ∃ n k, a.Moves addrWidth chip n k
  ctl : a.ctl = s.ctl
  data : a.dataReadFromOnChipMem = s.dataReadFromOnChipMem
  stream : a.stream = s.dram.stream
  req : a.req = s.req
  written : s.dram.mem = a.written.foldl DMAWriter.writeWord s.start

theorem init_refines (writer : StreamWriter) :
    Refines params addrWidth chip mem (init writer mem) {} where
  dram := StreamStore.init_inv writer mem
  moves := ⟨0, 0, DMAWriter.moves_start⟩
  ctl := rfl
  data := rfl
  stream := rfl
  req := rfl
  written := rfl

theorem Refines.ports_eq (h : Refines params addrWidth chip mem s a) :
    a.ports (s.answers params e) = s.ports params e := by
  have hready : a.stream.isNone = decide (s.dram.writer.state = .s_idle) := by
    rw [h.stream, StreamStore.stream]
    split <;> simp [*]
  rw [DMAWriter.ports, ports, h.dram.inReady, h.dram.respValid, hready, h.data, h.stream]
  simp [answers]

/-- A word leaves the queue when the stream writer takes it. -/
theorem Refines.inFire_eq (h : Refines params addrWidth chip mem s a) :
    s.dram.writer.inFire params (s.stimulus params e) =
      a.ctl.dmaInFire (a.ports (s.answers params e)) := by
  rw [h.ports_eq, h.ctl, StreamWriter.inFire, WriterCtl.dmaInFire, Bool.and_comm]
  rfl

theorem Refines.permitted (h : Refines params addrWidth chip mem s a)
    (haddr : 32 ≤ params.addrBits) :
    StreamStore.Permitted params s.dram (s.stimulus params e) := by
  intro _ r hr
  obtain ⟨n, k, hmoves⟩ := h.moves
  simp only [stimulus, Option.ite_none_right_eq_some, Option.some.injEq] at hr
  obtain ⟨hfire, rfl⟩ := hr
  simp only [WriterCtl.dmaReqFire, Bool.and_eq_true, decide_eq_true_eq] at hfire
  have hfits := hmoves.fits haddr (by rw [h.ctl]; exact hfire.1)
  rwa [h.ctl] at hfits

/-- What the stream writer has of its request, in the controller's model and in its own. -/
theorem Refines.next_stream (h : Refines params addrWidth chip mem s a) :
    a.nextStream (s.answers params e) =
      (s.dram.next params (s.stimulus params e)).stream := by
  rw [h.dram.next_stream, ← h.stream, DMAWriter.nextStream, h.inFire_eq]
  have hresp : s.dram.writer.respFire params (s.stimulus params e) =
      (a.ports (s.answers params e)).dmaRespValid := by
    rw [h.ports_eq]
    exact Bool.and_true _
  rw [hresp]
  cases hstream : a.stream with
  | none =>
    dsimp only
    rw [stimulus, h.ports_eq, h.ctl]
    dsimp only
    split <;> rfl
  | some st => rfl

/-- The word that is written, in the controller's model and in DRAM. -/
theorem Refines.next_mem (h : Refines params addrWidth chip mem s a) :
    (s.dram.next params (s.stimulus params e)).mem =
      (a.nextWrites (s.answers params e)).foldl DMAWriter.writeWord s.dram.mem := by
  rw [h.dram.next_mem, h.inFire_eq, DMAWriter.nextWrites]
  split
  next hfire =>
    have hparts := hfire
    simp only [WriterCtl.dmaInFire, WriterCtl.is_queue_has_val, Bool.and_eq_true,
      decide_eq_true_eq, Bool.not_eq_true', List.isEmpty_eq_false_iff] at hparts
    obtain ⟨⟨⟨hmain, hqueue⟩, -⟩, hready⟩ := hparts
    obtain ⟨w, ws, hcons⟩ := List.exists_cons_of_ne_nil hqueue
    obtain ⟨n, k, hmoves⟩ := h.moves
    -- the stream writer has a request for whole words that is not complete
    cases hstream : a.stream with
    | none => simp [DMAWriter.ports, hstream] at hready
    | some st =>
      have hwhole := hmoves.whole hmain hstream
      have hlt : st.offset < st.length := by
        simp only [DMAWriter.ports, hstream, Option.any_some, Bool.and_eq_true,
          decide_eq_true_eq] at hready
        exact hready.2
      rw [hcons]
      dsimp only
      rw [stimulus, ← h.ctl, hcons]
      rw [h.stream, StreamStore.stream, Option.ite_none_left_eq_some] at hstream
      obtain ⟨-, hst⟩ := hstream
      obtain rfl := Option.some.inj hst
      dsimp only at hwhole hlt
      rw [List.take_of_length_le (by rw [LittleEndian.length_toBytes]; omega)]
      rfl
  next hfire =>
    split <;> rfl

theorem Refines.step (h : Refines params addrWidth chip mem s a) (haddr : 32 ≤ params.addrBits)
    (hperm : DMAWriter.Permitted (s.answers params e))
    (hstep : (machine params addrWidth chip).step s e = some t) :
    Refines params addrWidth chip mem t (a.cycle addrWidth chip (s.answers params e)) := by
  obtain ⟨dram, hdram, rfl⟩ := Option.map_eq_some_iff.mp hstep
  obtain ⟨n, k, hmoves⟩ := h.moves
  have hinv := h.dram.step (h.permitted haddr) hdram
  have hnext : dram = s.dram.next params (s.stimulus params e) := by
    simp only [StreamStore.machine, Option.ite_none_right_eq_some, Option.some.injEq] at hdram
    exact hdram.2.symm
  have hfresh : (if a.ctl.main_state = .main_idle then (s.answers params e).req else none) =
      if s.ctl.main_state = .main_idle then e.req else none := by
    rw [h.ctl]
    rfl
  refine ⟨hinv, hmoves.step hperm, ?_, ?_, ?_, ?_, ?_⟩
  · rw [DMAWriter.cycle, h.ports_eq, h.ctl]
    rfl
  · rw [DMAWriter.cycle, h.ports_eq, h.ctl]
    rfl
  · rw [next, hnext]
    exact h.next_stream
  · rw [DMAWriter.cycle, hfresh, h.req]
    rfl
  · rw [next, DMAWriter.cycle, hfresh, hnext]
    dsimp only
    rw [h.next_mem]
    by_cases hidle : s.ctl.main_state = .main_idle
    · -- no word is written in the cycle in which a request comes
      have hfire : a.ctl.dmaInFire (a.ports (s.answers params e)) = false := by
        rw [h.ctl]
        simp [WriterCtl.dmaInFire, hidle]
      have hwrites : a.nextWrites (s.answers params e) = [] := by
        rw [DMAWriter.nextWrites, hfire]
        split <;> rfl
      rw [hwrites, if_pos hidle]
      cases e.req with
      | none => simp [h.written]
      | some r => rfl
    · rw [if_neg hidle, h.written, ← List.foldl_append]
      rfl

/-- The requests that arrive are aligned and end at a 32-bit address. -/
def Permitted (e : PathStimulus) : Prop :=
  ∀ r, e.req = some r → DMAWriter.Aligned r ∧ DMAWriter.Ends r

instance : DecidablePred Permitted := fun e =>
  inferInstanceAs (Decidable (DMAWriter.Permitted ⟨e.req, false, 0, false, false, false⟩))

/-- In every run, whatever the memories do, the controller is where a run of it with a stream writer
that keeps to the rules takes it, and DRAM is what the writes of that run make of it: what it was
when the request came, but for the bytes of the words that have been written, each at its place.
When the controller is idle, these are all words of the request. -/
theorem dmaWrite (writer : StreamWriter) {es : List PathStimulus} (haddr : 32 ≤ params.addrBits)
    (h : (machine params addrWidth chip).Run (fun _ => Permitted) (init writer mem) es s) :
    (∃ es' a, (DMAWriter.machine addrWidth chip).Run (fun _ => DMAWriter.Permitted) {} es' a ∧
      a.ctl = s.ctl ∧ a.stream = s.dram.stream ∧ a.req = s.req ∧
      s.dram.mem = a.written.foldl DMAWriter.writeWord s.start) ∧
    ∃ n ≤ s.req.len,
      s.dram.mem = writeBytes s.start s.req.baseAddr_DRAM
        ((stretch (s.req.word addrWidth chip) 0 n).flatMap fun w =>
          LittleEndian.toBytes 8 w.toNat) ∧
      (s.ctl.main_state = .main_idle → n = s.req.len) := by
  obtain ⟨es', a, hrun, href⟩ := h.exists_run (N := DMAWriter.machine addrWidth chip)
    (Q := fun _ => DMAWriter.Permitted) (R := Refines params addrWidth chip mem)
    (fun s e t a href hperm hstep => ⟨s.answers params e, _, hperm, rfl,
      href.step haddr hperm hstep⟩) (init_refines writer)
  refine ⟨⟨es', a, hrun, href.ctl, href.stream, href.req, href.written⟩, ?_⟩
  obtain ⟨n, k, hmoves⟩ := href.moves
  rw [← href.req]
  refine ⟨n, hmoves.le.trans hmoves.le_len, ?_, fun hidle => ?_⟩
  · rw [href.written, hmoves.written, DMAWriter.foldl_write]
  · have hpos := hmoves.position
    rw [← href.ctl] at hidle
    simp only [DMAWriter.Position, hidle] at hpos
    exact hpos.1

/-- A cycle in which everyone is ready. -/
def eager (req : Option DMAWriteReq) (d : Option ℕ) : PathStimulus := ⟨req, true, 0, true, d⟩

/-- Three words across the end of a page, by two requests to the stream writer. -/
def acrossPage : List PathStimulus :=
  eager (some ⟨3, 2 ^ 31 + 4080, 5⟩) none :: List.replicate 5 (eager none none) ++
    eager none (some 0) :: List.replicate 5 (eager none none) ++
    eager none (some 0) :: List.replicate 2 (eager none none)

theorem acrossPage_isSome : ((machine StreamStore.dmaWriter 17 DMAWriter.addresses).execWhile
    (fun _ => Permitted) (init StreamStore.zeroWriter fun _ => 255) acrossPage).isSome = true := by
  decide +kernel

theorem dmaWrite_acrossPage :
    let s := ((machine StreamStore.dmaWriter 17 DMAWriter.addresses).execWhile
      (fun _ => Permitted) (init StreamStore.zeroWriter fun _ => 255) acrossPage).get
        acrossPage_isSome
    s.ctl.main_state = .main_idle ∧
      [4079, 4080, 4088, 4096, 4104].map (fun x => s.dram.mem (2 ^ 31 + x)) = [255, 5, 6, 7, 255] ∧
      ∃ n ≤ s.req.len, s.dram.mem = writeBytes s.start s.req.baseAddr_DRAM
        ((stretch (s.req.word 17 DMAWriter.addresses) 0 n).flatMap fun w =>
          LittleEndian.toBytes 8 w.toNat) := by
  refine ⟨by decide +kernel, by decide +kernel, ?_⟩
  obtain ⟨-, n, hn, hmem, -⟩ := dmaWrite StreamStore.zeroWriter
    (show 32 ≤ StreamStore.dmaWriter.addrBits by decide)
    (Machine.run_iff_execWhile.mpr (Option.some_get acrossPage_isSome).symm)
  exact ⟨n, hn, hmem⟩

end DMAWritePath

end Course.Gemm
