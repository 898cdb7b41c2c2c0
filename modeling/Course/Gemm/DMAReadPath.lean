import Course.Gemm.DMAReadRuns
import Course.Gemm.StreamReaderRuns

/-! `DMA_reader_Ctl` with its `StreamReader`, from DRAM to the on-chip memory: the stream reader
does what the runs of the controller ask of one, so that the words of a request come to their
places on chip in order, whatever the order in which DRAM answers. -/

open Course.Lib

namespace Course.Gemm

/-- What the rest of the system does in a cycle: the requests, who is ready, and the source of the
beat on `tl.d`. -/
structure ReadPathStimulus where
  req : Option DMAReadReq
  aReady : Bool
  d : Option ℕ
  accessReady : Bool

/-- `req` is the request that is worked on, and `written` its writes on chip. -/
structure DMAReadPath where
  ctl : ReaderCtl
  reader : StreamReader
  req : DMAReadReq
  written : List (ℕ × BitVec 32)

namespace DMAReadPath

variable (params : StreamParams) (addrWidth : ℕ) (mem : ℕ → BitVec 64)

def init (core : StreamReaderCore) (buffer : BufferBRAM StreamChannel) (xactHeads : ℕ → ℕ) :
    DMAReadPath :=
  ⟨{}, .init core buffer xactHeads, ⟨0, 0, 0⟩, []⟩

variable (s : DMAReadPath) (e : ReadPathStimulus)

/-- What the controller sees; `dmaOut` is the word that the aligner shows. -/
def ports : ReaderPorts where
  req := e.req
  dmaReqReady := decide (s.reader.fetch.core.state = .s_idle)
  dmaOut :=
    if s.reader.aligner.outValid s.reader.bufferOut then
      some (s.reader.aligner.outBits s.reader.bufferOut).data
    else none
  accessReady := e.accessReady

/-- What the stream reader sees. -/
def stimulus : FetchStimulus where
  req :=
    if s.ctl.dmaReqFire (s.ports e) then
      some ⟨s.ctl.p_baseAddr_to_dma, s.ctl.cur_block_len, false⟩
    else none
  aReady := e.aReady
  respReady := true
  d := e.d
  outReady := s.ctl.dmaOutReady

def next (reader : StreamReader) : DMAReadPath :=
  let fresh := if s.ctl.main_state = .main_idle then e.req else none
  { ctl := s.ctl.cycle addrWidth (s.ports e)
    reader := reader
    req := fresh.getD s.req
    written := (if fresh.isSome then [] else s.written) ++
      ((s.ctl.accessFire (s.ports e)).map fun w =>
        (s.ctl.accessAddr addrWidth, w.setWidth 32)).toList }

def machine : Machine DMAReadPath ReadPathStimulus where
  step s e :=
    ((StreamReader.machine params mem).step s.reader (s.stimulus e)).map (s.next addrWidth e)

end DMAReadPath

/-! ### The stream reader, as the controller sees it -/

namespace ReaderCtl

variable {addrWidth : ℕ} {c : ReaderCtl} {p : ReaderPorts} {out : Option (BitVec 64)}

/-- Of the word that is shown, the controller sees what it takes. -/
theorem cycle_congr (h : c.dmaOutFire { p with dmaOut := out } = c.dmaOutFire p) :
    c.cycle addrWidth { p with dmaOut := out } = c.cycle addrWidth p := by
  have hmain : c.main addrWidth { p with dmaOut := out } = c.main addrWidth p := by
    rw [main, main, h]
    rfl
  rw [cycle, cycle, hmain, h]
  rfl

theorem dmaOutReady_reading (h : c.dmaOutReady = true) : c.main_state = .dma_reading := by
  simp only [dmaOutReady, Bool.and_eq_true, decide_eq_true_eq] at h
  exact h.1.1

end ReaderCtl

namespace DMAReader

variable {addrWidth : ℕ} {mem : ℕ → BitVec 64} {n k : ℕ} {a : DMAReader} {params : StreamParams}

/-- What the controller asks of the stream reader can be served. -/
theorem Moves.fits_stream (h : Moves addrWidth mem n k a) (haddr : 32 ≤ params.addrBits)
    (hmain : a.ctl.main_state = .dma_request) :
    let r : StreamReadRequest := ⟨a.ctl.p_baseAddr_to_dma, a.ctl.cur_block_len, false⟩
    r.Fits params ∧ r.address % 8 = 0 ∧ r.length % 8 = 0 := by
  have hpos := h.position
  simp only [Position, hmain] at hpos
  obtain ⟨-, -, -, -, hv, hblock, hpage⟩ := hpos
  obtain ⟨hpos, hwhole, hinside, hle, -⟩ := hblock
  have hends := h.carried.ends
  have haligned := h.carried.aligned
  have hbits : 2 ^ 32 ≤ 2 ^ params.addrBits := Nat.pow_le_pow_right (by decide) haddr
  simp only [DMAReadReq.addr] at hv hinside hle hends
  have hptr : a.ctl.p_baseAddr_to_dma = a.ctl.v_addr_ptr := by
    rw [ReaderCtl.p_baseAddr_to_dma, hpage]
    omega
  refine ⟨⟨hpos, ?_, ?_⟩, ?_, hwhole⟩
  · dsimp only
    omega
  · simp only [StreamReadRequest.words, StreamReadRequest.endword, StreamReadRequest.startword]
    omega
  · dsimp only
    omega

end DMAReader

/-! ### Runs -/

namespace DMAReadPath

open Lib (stretch)

variable {params : StreamParams} {addrWidth : ℕ} {mem : ℕ → BitVec 64} {s t : DMAReadPath}
  {a : DMAReader} {e : ReadPathStimulus}

/-- What the stream reader does in the cycle, for the controller. -/
def answers (s : DMAReadPath) (e : ReadPathStimulus) : ReaderStimulus where
  req := e.req
  dmaReqReady := decide (s.reader.fetch.core.state = .s_idle)
  dmaOutValid := (s.reader.aligner.outFire s.reader.bufferOut s.ctl.dmaOutReady).isSome
  accessReady := e.accessReady

/-- The addresses of the words that have been asked for. -/
def asked (reader : StreamReader) : List ℕ :=
  reader.fetch.requested.flatMap fun r => DMAReader.wordsOf r.address r.length

/-- The controller is where it would be with a stream reader that keeps to the rules, to which it
owes the words that have not come out. -/
structure Refines (params : StreamParams) (addrWidth : ℕ) (mem : ℕ → BitVec 64) (s : DMAReadPath)
    (a : DMAReader) : Prop where
  reader : s.reader.Passes params mem
  moves : ∃ n k, a.Moves addrWidth mem n k
  ctl : a.ctl = s.ctl
  pending : a.pending = (asked s.reader).drop s.reader.emitted.length
  req : a.req = s.req
  written : a.written = s.written

theorem init_refines (core : StreamReaderCore) (buffer : BufferBRAM StreamChannel)
    (xactHeads : ℕ → ℕ) :
    Refines params addrWidth mem (init core buffer xactHeads) {} where
  reader := StreamReader.init_passes core buffer xactHeads
  moves := ⟨0, 0, DMAReader.moves_start⟩
  ctl := rfl
  pending := rfl
  req := rfl
  written := rfl

theorem emitted_asked {reader : StreamReader} (h : reader.Passes params mem) :
    reader.emitted.map (·.data) <+: (asked reader).map mem := by
  rw [asked, List.map_flatMap]
  exact h.words_prefix

/-- The item behind a prefix. -/
theorem head?_drop_of_prefix {α β : Type} {f : α → β} {xs : List β} {y : β} {l : List α}
    (h : xs ++ [y] <+: l.map f) : (l.drop xs.length).head?.map f = some y := by
  obtain ⟨rest, hrest⟩ := h
  rw [List.head?_drop, ← List.getElem?_map, ← hrest]
  simp

theorem Refines.words (h : Refines params addrWidth mem s a) (haddr : 32 ≤ params.addrBits) :
    StreamReader.Words params s.reader (s.stimulus e) := by
  intro _ r hr
  obtain ⟨n, k, hmoves⟩ := h.moves
  simp only [stimulus, Option.ite_none_right_eq_some, Option.some.injEq] at hr
  obtain ⟨hfire, rfl⟩ := hr
  simp only [ReaderCtl.dmaReqFire, Bool.and_eq_true, decide_eq_true_eq] at hfire
  have hfits := hmoves.fits_stream haddr (by rw [h.ctl]; exact hfire.1)
  rwa [h.ctl] at hfits

section Step

variable {reader : StreamReader}

theorem emitted_step
    (hreader : (StreamReader.machine params mem).step s.reader (s.stimulus e) = some reader) :
    reader.emitted = s.reader.emitted ++
      (s.reader.aligner.outFire s.reader.bufferOut s.ctl.dmaOutReady).toList := by
  obtain ⟨fetch, -, rfl⟩ := Option.map_eq_some_iff.mp hreader
  rfl

theorem asked_step
    (hreader : (StreamReader.machine params mem).step s.reader (s.stimulus e) = some reader) :
    asked reader = asked s.reader ++
      if s.ctl.dmaReqFire (s.ports e) then
        DMAReader.wordsOf s.ctl.p_baseAddr_to_dma s.ctl.cur_block_len
      else [] := by
  obtain ⟨fetch, hfetch, rfl⟩ := Option.map_eq_some_iff.mp hreader
  rw [asked, StreamReader.next, StreamReader.requested_step hfetch, List.flatMap_append]
  congr 1
  split
  next hidle =>
    rw [stimulus]
    dsimp only
    split <;> simp
  next hbusy =>
    have hfire : s.ctl.dmaReqFire (s.ports e) = false := by
      simp [ReaderCtl.dmaReqFire, ports, hbusy]
    rw [hfire]
    rfl

/-- The word that comes out is the next one that is asked for. -/
theorem Refines.head_pending (h : Refines params addrWidth mem s a)
    (hpasses : reader.Passes params mem)
    (hreader : (StreamReader.machine params mem).step s.reader (s.stimulus e) = some reader)
    {x : StreamChannel}
    (hout : s.reader.aligner.outFire s.reader.bufferOut s.ctl.dmaOutReady = some x) :
    a.pending.head?.map mem = some x.data ∧ s.reader.emitted.length < (asked s.reader).length := by
  have hready : s.ctl.dmaOutReady = true := by
    by_contra hready
    simp [Aligner.outFire, hready] at hout
  have hfire : s.ctl.dmaReqFire (s.ports e) = false := by
    simp [ReaderCtl.dmaReqFire, ReaderCtl.dmaOutReady_reading hready]
  have hprefix := emitted_asked hpasses
  rw [emitted_step hreader, asked_step hreader, hfire, if_neg Bool.false_ne_true, List.append_nil,
    hout, Option.toList_some, List.map_append, List.map_singleton] at hprefix
  have hhead := head?_drop_of_prefix hprefix
  have hlen := hprefix.length_le
  rw [List.length_map] at hhead
  simp only [List.length_append, List.length_map, List.length_singleton] at hlen
  exact ⟨by rw [h.pending, hhead], by omega⟩

/-- The controller takes the same word from its model of the stream reader. -/
theorem Refines.dmaOutFire_eq (h : Refines params addrWidth mem s a)
    (hpasses : reader.Passes params mem)
    (hreader : (StreamReader.machine params mem).step s.reader (s.stimulus e) = some reader) :
    a.ctl.dmaOutFire (a.ports mem (s.answers e)) =
        (s.reader.aligner.outFire s.reader.bufferOut s.ctl.dmaOutReady).map (·.data) ∧
      s.ctl.dmaOutFire (s.ports e) =
        (s.reader.aligner.outFire s.reader.bufferOut s.ctl.dmaOutReady).map (·.data) := by
  refine ⟨?_, ?_⟩
  · rw [ReaderCtl.dmaOutFire, DMAReader.ports, answers, h.ctl]
    dsimp only
    cases hout : s.reader.aligner.outFire s.reader.bufferOut s.ctl.dmaOutReady with
    | none => simp
    | some x =>
      have hready : s.ctl.dmaOutReady = true := by
        by_contra hready
        simp [Aligner.outFire, hready] at hout
      rw [hready, if_pos rfl, Option.isSome_some, if_pos rfl,
        (h.head_pending hpasses hreader hout).1]
      rfl
  · rw [ReaderCtl.dmaOutFire, ports, Aligner.outFire]
    dsimp only
    rcases Bool.eq_false_or_eq_true s.ctl.dmaOutReady with hready | hready <;>
      rcases Bool.eq_false_or_eq_true (s.reader.aligner.outValid s.reader.bufferOut) with
        hvalid | hvalid <;> simp [hready, hvalid]

theorem Refines.next_pending (h : Refines params addrWidth mem s a)
    (hpasses : reader.Passes params mem)
    (hreader : (StreamReader.machine params mem).step s.reader (s.stimulus e) = some reader) :
    a.nextPending mem (s.answers e) = (asked reader).drop reader.emitted.length := by
  have hrequest : a.ctl.dmaReqFire (a.ports mem (s.answers e)) =
      s.ctl.dmaReqFire (s.ports e) := by
    rw [h.ctl]
    rfl
  have hle := (emitted_asked h.reader).length_le
  rw [List.length_map, List.length_map] at hle
  rw [DMAReader.nextPending, (h.dmaOutFire_eq hpasses hreader).1, hrequest, asked_step hreader,
    emitted_step hreader, h.pending, h.ctl]
  cases hout : s.reader.aligner.outFire s.reader.bufferOut s.ctl.dmaOutReady with
  | none =>
    rw [Option.toList_none, List.append_nil, List.drop_append_of_le_length hle]
    rfl
  | some x =>
    have hlt := (h.head_pending hpasses hreader hout).2
    rw [Option.toList_some, List.length_append, List.length_singleton,
      List.drop_append_of_le_length hlt, ← List.tail_drop]
    rfl

end Step

/-- The requests accepted can be carried and fit. -/
def Permitted (addrWidth : ℕ) (s : DMAReadPath) (e : ReadPathStimulus) : Prop :=
  s.ctl.main_state = .main_idle → ∀ r, e.req = some r → r.Carried addrWidth ∧ r.Fits

instance (r : DMAReadReq) : Decidable (r.Carried addrWidth) :=
  decidable_of_iff (r.len < 2 ^ addrWidth ∧ r.baseAddr_DRAM < 2 ^ 32 ∧
    r.baseAddr_OnChipMem < 2 ^ addrWidth ∧ r.baseAddr_DRAM % 8 = 0 ∧ r.addr r.len ≤ 2 ^ 32)
    ⟨fun ⟨hlen, hbase, hchip, haligned, hends⟩ => ⟨hlen, hbase, hchip, haligned, hends⟩,
      fun ⟨hlen, hbase, hchip, haligned, hends⟩ => ⟨hlen, hbase, hchip, haligned, hends⟩⟩

instance (r : DMAReadReq) : Decidable r.Fits :=
  inferInstanceAs (Decidable (r.len = 0 ∨ r.len < 2 ^ 16 ∧ r.addr r.len ≤ 2 ^ 32 - 2 ^ 12))

instance (s : DMAReadPath) (e : ReadPathStimulus) : Decidable (Permitted addrWidth s e) :=
  inferInstanceAs (Decidable (s.ctl.main_state = .main_idle → ∀ r ∈ e.req,
    r.Carried addrWidth ∧ r.Fits))

theorem Refines.step (h : Refines params addrWidth mem s a) (haddr : 32 ≤ params.addrBits)
    (hperm : DMAReader.Permitted addrWidth a (s.answers e))
    (hstep : (machine params addrWidth mem).step s e = some t) :
    Refines params addrWidth mem t (a.cycle addrWidth mem (s.answers e)) := by
  obtain ⟨reader, hreader, rfl⟩ := Option.map_eq_some_iff.mp hstep
  obtain ⟨n, k, hmoves⟩ := h.moves
  have hpasses := h.reader.step (h.words haddr) hreader
  obtain ⟨hmodel, hreal⟩ := h.dmaOutFire_eq hpasses hreader
  have hctl : a.ctl.cycle addrWidth (a.ports mem (s.answers e)) =
      s.ctl.cycle addrWidth (s.ports e) := by
    rw [h.ctl] at hmodel ⊢
    exact ReaderCtl.cycle_congr (hmodel.trans hreal.symm)
  refine ⟨hpasses, DMAReader.moves_run hmoves (.cons hperm rfl .nil), hctl,
    h.next_pending hpasses hreader, ?_, ?_⟩
  · rw [DMAReader.cycle, h.ctl, h.req]
    rfl
  · rw [DMAReader.cycle, DMAReader.nextWrites, h.ctl, h.written]
    rfl

/-- In every run, whatever DRAM and the on-chip memory do: the words of a request are written to
their places on chip once each and in order, all of them when the controller is idle, and every
`Get` is one that TileLink allows. -/
theorem dmaRead (core : StreamReaderCore) (buffer : BufferBRAM StreamChannel)
    (xactHeads : ℕ → ℕ) {es : List ReadPathStimulus} (haddr : 32 ≤ params.addrBits)
    (h : (machine params addrWidth mem).Run (Permitted addrWidth) (init core buffer xactHeads)
      es s) :
    s.written <+: stretch (s.req.write addrWidth mem) 0 s.req.len ∧
      (s.ctl.main_state = .main_idle →
        s.written = stretch (s.req.write addrWidth mem) 0 s.req.len ∧ s.ctl.data_queue = []) ∧
      (∀ e, s.reader.fetch.sent params e = true →
        s.reader.fetch.Allowed params (s.reader.fetch.core.get params)) := by
  obtain ⟨-, a, -, href⟩ := h.exists_run (N := DMAReader.machine addrWidth mem)
    (Q := DMAReader.Permitted addrWidth) (R := Refines params addrWidth mem)
    (fun s e t a href hperm hstep =>
      have hperm : DMAReader.Permitted addrWidth a (s.answers e) := by
        intro hidle
        exact hperm (by rw [← href.ctl]; exact hidle)
      ⟨s.answers e, _, hperm, rfl, href.step haddr hperm hstep⟩)
    (init_refines core buffer xactHeads)
  obtain ⟨n, k, hmoves⟩ := href.moves
  obtain ⟨all, read, filled, place, hfetch⟩ := href.reader.inv.fetch
  have hdelivers := hmoves.delivers
  rw [← href.written, ← href.req, ← href.ctl]
  exact ⟨hdelivers.written, fun hidle => (hdelivers.idle hidle).2, fun e => hfetch.allowed⟩

/-- A cycle in which everyone is ready. -/
def eager (req : Option DMAReadReq) (d : Option ℕ) : ReadPathStimulus := ⟨req, true, d, true⟩

/-- Four words across the end of a page; of the first two reads the second is answered first. -/
def acrossPage : List ReadPathStimulus :=
  eager (some ⟨4, 2 ^ 31 + 4072, 5⟩) none :: List.replicate 5 (eager none none) ++
    [eager none (some 1), eager none (some 1), eager none (some 0)] ++
    List.replicate 11 (eager none none) ++ eager none (some 0) ::
    List.replicate 7 (eager none none)

theorem acrossPage_isSome : ((machine StreamReader.dmaReader 17 StreamReader.countingMem).execWhile
    (Permitted 17) (init StreamReader.zeroCore StreamReader.zeroBuffer fun _ => 0)
      acrossPage).isSome = true := by
  decide +kernel

theorem dmaRead_acrossPage :
    let s := ((machine StreamReader.dmaReader 17 StreamReader.countingMem).execWhile
      (Permitted 17) (init StreamReader.zeroCore StreamReader.zeroBuffer fun _ => 0)
        acrossPage).get acrossPage_isSome
    s.ctl.main_state = .main_idle ∧ s.written.length = 4 ∧
      s.written <+: stretch (s.req.write 17 StreamReader.countingMem) 0 s.req.len := by
  refine ⟨by decide +kernel, by decide +kernel, ?_⟩
  exact (dmaRead StreamReader.zeroCore StreamReader.zeroBuffer (fun _ => 0)
    (show 32 ≤ StreamReader.dmaReader.addrBits by decide)
    (Machine.run_iff_execWhile.mpr (Option.some_get acrossPage_isSome).symm)).1

end DMAReadPath

end Course.Gemm
