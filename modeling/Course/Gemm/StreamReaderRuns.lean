import Course.Gemm.Aligner
import Course.Gemm.DMAReadCtl
import Course.Gemm.StreamReader

/-! `StreamReader`: the core, the reservation buffer and the aligner. The bytes that come out are
those of the requests, whatever the order in which the memory answers. -/

open Course.Lib

namespace Course.Gemm

/-- The bytes of memory, in words of 8. -/
def byteAt (mem : ℕ → BitVec 64) (i : ℕ) : UInt8 :=
  UInt8.ofNat ((mem (8 * (i / 8))).toNat / 256 ^ (i % 8))

namespace StreamReadRequest

variable (mem : ℕ → BitVec 64) (r : StreamReadRequest)

def bytes : List UInt8 := stretch (byteAt mem) r.address (r.address + r.length)

/-- The bytes that are asked for, and the end of the packet. -/
def symbols : List (Option UInt8) := Gemm.symbols (r.bytes mem) !r.part

/-- Where the bytes of the `i`-th word begin. -/
def cut (i : ℕ) : ℕ :=
  if i = 0 then r.address
  else if i = r.words then r.address + r.length
  else 8 * (r.startword + i)

variable {mem : ℕ → BitVec 64} {r : StreamReadRequest} {params : StreamParams} {i : ℕ}

theorem fullKeep_shift : ∀ off < 8, ∀ roff < 8, off + roff < 8 →
    (fullKeep <<< off &&& fullKeep >>> roff).toNat = keepRun off (8 - roff - off) := by
  decide +kernel

/-- The bytes from the `off`-th one of a word. -/
theorem toBytes_word (w off len : ℕ) (h : off + len ≤ 8) :
    LittleEndian.toBytes len ((mem (8 * w)).toNat / 256 ^ off) =
      stretch (byteAt mem) (8 * w + off) (8 * w + off + len) := by
  rw [LittleEndian.toBytes_eq_map, stretch, Nat.add_sub_cancel_left]
  refine List.ext_getElem (by simp) fun j hj _ => ?_
  have hjlen : j < len := by simpa using hj
  have hdiv : (8 * w + off + j) / 8 = w := by omega
  have hmod : (8 * w + off + j) % 8 = off + j := by omega
  simp only [List.getElem_map, List.getElem_range, List.getElem_range', Nat.one_mul]
  rw [byteAt, hdiv, hmod, Nat.div_div_eq_div_mul, ← Nat.pow_add]

/-- The bytes of a word that are asked for follow each other, from one cut to the next. -/
theorem Fits.keeps_flit (h : r.Fits params) (hi : i < r.words) :
    ∃ off len, (∀ mem, (r.flit mem i).Keeps off len) ∧ r.cut i = 8 * (r.startword + i) + off ∧
      r.cut (i + 1) = r.cut i + len := by
  have hpos := h.pos
  have hwords : r.words = (r.address + r.length + 7) / 8 - r.address / 8 := rfl
  have hstart : r.startword = r.address / 8 := rfl
  have hend : r.endword = (r.address + r.length + 7) / 8 := rfl
  obtain ⟨off, hoff⟩ : ∃ off, off = if i = 0 then r.address % 8 else 0 := ⟨_, rfl⟩
  obtain ⟨roff, hroff⟩ : ∃ roff, roff =
      if i + 1 = r.words then 8 * r.endword - (r.address + r.length) else 0 := ⟨_, rfl⟩
  have hlt : off + roff < 8 := by
    split at hoff <;> split at hroff <;> omega
  have hkeep : ∀ mem, (r.flit mem i).keep = fullKeep <<< off &&& fullKeep >>> roff := by
    intro mem
    rw [flit, hoff, hroff]
    split <;> split <;> simp
  have hcut : r.cut i = 8 * (r.startword + i) + off := by
    rw [cut, if_neg hi.ne]
    split at hoff
    next hzero =>
      rw [if_pos hzero]
      omega
    next hne =>
      rw [if_neg hne]
      omega
  have hcut' : r.cut (i + 1) =
      if i + 1 = r.words then r.address + r.length else 8 * (r.startword + (i + 1)) := by
    rw [cut, if_neg (Nat.succ_ne_zero i)]
  refine ⟨off, 8 - roff - off, fun mem => ⟨by omega, by omega, ?_⟩, ?_, ?_⟩
  · rw [hkeep, fullKeep_shift off (by omega) roff (by omega) hlt]
  · exact hcut
  · rw [hcut, hcut']
    split at hroff
    next hlast =>
      rw [if_pos hlast]
      omega
    next hne =>
      rw [if_neg hne]
      omega

theorem Fits.bytes_flit (h : r.Fits params) (hi : i < r.words) :
    (r.flit mem i).bytes = stretch (byteAt mem) (r.cut i) (r.cut (i + 1)) := by
  obtain ⟨off, len, hkeeps, hcut, hcut'⟩ := h.keeps_flit hi
  rw [(hkeeps mem).bytes_eq, hcut', hcut]
  exact toBytes_word _ _ _ (hkeeps mem).le

theorem Fits.cut_le (h : r.Fits params) (hi : i < r.words) : r.cut i ≤ r.cut (i + 1) := by
  obtain ⟨off, len, -, -, hcut⟩ := h.keeps_flit hi
  omega

/-- The stretches between cuts make one. -/
theorem stretch_cuts {α : Type} (f : ℕ → α) {c : ℕ → ℕ} {n : ℕ}
    (hc : ∀ i < n, c i ≤ c (i + 1)) :
    (List.range n).flatMap (fun i => stretch f (c i) (c (i + 1))) = stretch f (c 0) (c n) ∧
      c 0 ≤ c n := by
  induction n with
  | zero => simp
  | succ n ih =>
    obtain ⟨hstretch, hle⟩ := ih fun i hi => hc i (Nat.lt_succ_of_lt hi)
    have hlast := hc n (Nat.lt_succ_self n)
    refine ⟨?_, hle.trans hlast⟩
    rw [List.range_succ, List.flatMap_append, hstretch, List.flatMap_singleton,
      stretch_append hle hlast]

/-- The words of a request hold its bytes, and the last one its end. -/
theorem Fits.flatMap_symbols (h : r.Fits params) :
    (r.flits mem).flatMap (·.symbols) = r.symbols mem := by
  obtain ⟨n, hn⟩ := Nat.exists_eq_add_of_le' h.words_pos
  have hcuts : ∀ i < n, r.cut i ≤ r.cut (i + 1) := fun i hi => h.cut_le (by omega)
  have hlast : r.cut n ≤ r.cut (n + 1) := h.cut_le (by omega)
  obtain ⟨hstretch, hle⟩ := stretch_cuts (byteAt mem) hcuts
  have hflit : ∀ i < r.words, (r.flit mem i).symbols =
      Gemm.symbols (stretch (byteAt mem) (r.cut i) (r.cut (i + 1)))
        (decide (i + 1 = r.words) && !r.part) := by
    intro i hi
    rw [StreamChannel.symbols, h.bytes_flit hi]
    rfl
  have hinit : (List.range n).flatMap (fun i => (r.flit mem i).symbols) =
      (stretch (byteAt mem) (r.cut 0) (r.cut n)).map some := by
    rw [← hstretch, List.map_flatMap]
    refine List.flatMap_congr fun i hi => ?_
    have hin := List.mem_range.mp hi
    rw [hflit i (by omega), decide_eq_false (by omega)]
    simp [Gemm.symbols]
  have hzero : r.cut 0 = r.address := if_pos rfl
  have hend : r.cut (n + 1) = r.address + r.length := by
    rw [cut, if_neg (Nat.succ_ne_zero n), if_pos hn.symm]
  calc
    (r.flits mem).flatMap (·.symbols)
      = (List.range (n + 1)).flatMap (fun i => (r.flit mem i).symbols) := by
        rw [flits, stretch, hn, List.flatMap_map, List.range_eq_range', Nat.sub_zero]
    _ = (stretch (byteAt mem) (r.cut 0) (r.cut n)).map some ++
          Gemm.symbols (stretch (byteAt mem) (r.cut n) (r.cut (n + 1))) !r.part := by
        rw [List.range_succ, List.flatMap_append, List.flatMap_singleton, hinit,
          hflit n (by omega), decide_eq_true hn.symm, Bool.true_and]
    _ = r.symbols mem := by
        rw [Gemm.symbols, ← List.append_assoc, ← List.map_append, stretch_append hle hlast, hzero,
          hend]
        rfl

end StreamReadRequest

/-! ### The whole reader -/

/-- `emitted` is what has come out so far. -/
structure StreamReader where
  fetch : StreamFetch
  aligner : Aligner
  emitted : List StreamChannel

namespace StreamReader

variable (params : StreamParams) (mem : ℕ → BitVec 64) (s : StreamReader) (e : FetchStimulus)

/-- `buffer.io.out`, when it is valid. -/
def bufferOut : Option StreamChannel :=
  if s.fetch.buffer.occupied then some s.fetch.buffer.buffer.readData else none

/-- `aligner.io.in.ready` -/
def alignerReady : Bool := s.bufferOut.any fun f => s.aligner.inReady f e.outReady

/-- What the buffer sees of the other sides. -/
def inner : FetchStimulus := { e with outReady := s.alignerReady e }

def next (fetch : StreamFetch) : StreamReader where
  fetch := fetch
  aligner := s.aligner.cycle s.bufferOut e.outReady
  emitted := s.emitted ++ (s.aligner.outFire s.bufferOut e.outReady).toList

def machine : Machine StreamReader FetchStimulus where
  step s e :=
    ((StreamFetch.machine params mem).step s.fetch (s.inner e)).map (s.next e)

def init (core : StreamReaderCore) (buffer : BufferBRAM StreamChannel) (xactHeads : ℕ → ℕ) :
    StreamReader :=
  ⟨.init core buffer xactHeads, .reset, []⟩

/-- The requests can be served, and no word comes to the aligner that fits behind the rest of a
packet that waits there. -/
def Orderly (s : StreamReader) (e : FetchStimulus) : Prop :=
  StreamFetch.Fits params s.fetch e ∧
    (s.aligner.last = true → ∀ f, s.bufferOut = some f →
      8 ≤ s.aligner.nbytes + popCount f.keep.toNat)

instance : Decidable (Orderly params s e) :=
  inferInstanceAs (Decidable ((s.fetch.core.state = .s_idle → ∀ r ∈ e.req, r.Fits params) ∧
    (s.aligner.last = true → ∀ f ∈ s.bufferOut, 8 ≤ s.aligner.nbytes + popCount f.keep.toNat)))

variable {params mem} {s t : StreamReader} {e : FetchStimulus}

/-- What the buffer has given out is what has come out with what the aligner holds. -/
structure Inv (params : StreamParams) (mem : ℕ → BitVec 64) (s : StreamReader) : Prop where
  fetch : ∃ all read filled place, s.fetch.Inv params mem all read filled place
  fits : ∀ r ∈ s.fetch.requested, r.Fits params
  aligner : s.aligner.Inv
  symbols : s.fetch.delivered.flatMap (·.symbols) =
    s.emitted.flatMap (·.symbols) ++ s.aligner.symbols
  packed : ∀ f ∈ s.emitted, f.Packed

theorem init_inv (core : StreamReaderCore) (buffer : BufferBRAM StreamChannel)
    (xactHeads : ℕ → ℕ) : Inv params mem (init core buffer xactHeads) where
  fetch := ⟨_, _, _, fun _ => ⟨⟨0, 0, false⟩, 0, 0, 0⟩,
    StreamFetch.init_inv params mem core buffer xactHeads _⟩
  fits r hr := by cases hr
  aligner := ⟨Nat.zero_le _, rfl, by simp [init, Aligner.reset], by simp [init, Aligner.reset]⟩
  symbols := rfl
  packed f hf := by cases hf

/-- The word that the buffer gives out keeps bytes in a row. -/
theorem Inv.offers (h : Inv params mem s) (horderly : Orderly params s e) :
    s.aligner.Offers s.bufferOut := by
  obtain ⟨all, read, filled, place, hfetch⟩ := h.fetch
  intro f hf
  have hlast : s.aligner.last = true → 8 ≤ s.aligner.nbytes + popCount f.keep.toNat :=
    fun htrue => horderly.2 htrue f hf
  rw [bufferOut] at hf
  split at hf
  next hocc =>
    obtain rfl := Option.some.inj hf
    obtain ⟨r, hr, i, hi, hflit⟩ := hfetch.held_mem hocc
    obtain ⟨off, len, hkeeps, -, -⟩ := (h.fits r hr).keeps_flit hi
    have hkeeps := hflit ▸ hkeeps mem
    have hle := hkeeps.le
    rw [hkeeps.keep, popCount_keepRun off (by omega) len (by omega) hle] at hlast
    exact ⟨off, len, hkeeps, hlast⟩
  next => cases hf

variable {fetch : StreamFetch}

theorem requested_step
    (h : (StreamFetch.machine params mem).step s.fetch (s.inner e) = some fetch) :
    fetch.requested =
      s.fetch.requested ++ if s.fetch.core.state = .s_idle then e.req.toList else [] := by
  obtain ⟨d, -, rfl⟩ := Option.map_eq_some_iff.mp h
  rfl

/-- The aligner takes what the buffer gives out. -/
theorem delivered_step
    (h : (StreamFetch.machine params mem).step s.fetch (s.inner e) = some fetch) :
    fetch.delivered =
      s.fetch.delivered ++ (s.aligner.inFire s.bufferOut e.outReady).toList := by
  obtain ⟨d, -, rfl⟩ := Option.map_eq_some_iff.mp h
  change s.fetch.delivered ++ _ = _
  congr 1
  simp only [ReservationBuffer.outFire, inner, alignerReady, Aligner.inFire, bufferOut]
  rcases Bool.eq_false_or_eq_true s.fetch.buffer.occupied with hocc | hocc
  · simp only [hocc, Bool.true_and, if_true, Option.any_some, Option.filter_some]
    split <;> simp
  · simp [hocc]

theorem Inv.step (h : Inv params mem s) (horderly : Orderly params s e)
    (hstep : (machine params mem).step s e = some t) : Inv params mem t := by
  have hmoves := h.aligner.cycle (h.offers horderly) e.outReady
  obtain ⟨fetch, hfetch, rfl⟩ := Option.map_eq_some_iff.mp hstep
  obtain ⟨all, read, filled, place, hinv⟩ := h.fetch
  have helim : ∀ o : Option StreamChannel,
      o.toList.flatMap (·.symbols) = o.elim [] (·.symbols) := by
    intro o
    cases o <;> simp
  refine ⟨hinv.step (e := s.inner e) horderly.1 hfetch, fun r hr => ?_, hmoves.inv, ?_,
    fun f hf => ?_⟩
  · rw [next, requested_step hfetch] at hr
    rcases List.mem_append.mp hr with hr | hr
    · exact h.fits r hr
    · split at hr
      next hidle => exact horderly.1 hidle r (Option.mem_toList.mp hr)
      next => cases hr
  · rw [next, delivered_step hfetch, List.flatMap_append, List.flatMap_append, helim, helim,
      h.symbols, List.append_assoc, List.append_assoc, hmoves.symbols]
  · rcases List.mem_append.mp hf with hf | hf
    · exact h.packed f hf
    · exact hmoves.packed f (Option.mem_toList.mp hf)

/-- Nothing is left anywhere. -/
def Quiet (s : StreamReader) : Prop := s.fetch.Quiet ∧ s.aligner.nbytes = 0

theorem flatMap_symbols (h : ∀ r ∈ s.fetch.requested, r.Fits params) :
    (s.fetch.requested.flatMap (·.flits mem)).flatMap (·.symbols) =
      s.fetch.requested.flatMap (·.symbols mem) := by
  rw [List.flatMap_assoc]
  exact List.flatMap_congr fun r hr => (h r hr).flatMap_symbols

/-- In every run, whatever the order in which the memory answers: the bytes that come out are
those of the requests, each packet in words that are full but for its last one, and nothing is
missing when the reader is quiet. -/
theorem streamReader (core : StreamReaderCore) (buffer : BufferBRAM StreamChannel)
    (xactHeads : ℕ → ℕ) {es : List FetchStimulus}
    (h : (machine params mem).Run (Orderly params) (init core buffer xactHeads) es s) :
    s.emitted.flatMap (·.symbols) <+: s.fetch.requested.flatMap (·.symbols mem) ∧
      (∀ f ∈ s.emitted, f.Packed) ∧
      (Quiet s → s.emitted.flatMap (·.symbols) = s.fetch.requested.flatMap (·.symbols mem)) := by
  have hinv : Inv params mem s :=
    h.invariant (fun _ _ _ hinv horderly hs => hinv.step horderly hs) (init_inv ..)
  obtain ⟨all, read, filled, place, hfetch⟩ := hinv.fetch
  have hsymbols := hinv.symbols
  refine ⟨?_, hinv.packed, fun hquiet => ?_⟩
  · rw [← flatMap_symbols hinv.fits]
    obtain ⟨rest, hrest⟩ := hfetch.delivered_prefix
    exact ⟨s.aligner.symbols ++ rest.flatMap (·.symbols), by
      rw [← hrest, List.flatMap_append, hsymbols, List.append_assoc]⟩
  · have hlast : s.aligner.last = false := by
      by_contra hlast
      have := hinv.aligner.last (Bool.eq_true_of_not_eq_false hlast)
      have := hquiet.2
      omega
    have hempty : s.aligner.symbols = [] := by
      simp [Aligner.symbols, Aligner.held, hquiet.2, hlast, LittleEndian.toBytes, Gemm.symbols]
    rw [← flatMap_symbols hinv.fits, ← hfetch.delivered_of_quiet hquiet.1, hsymbols, hempty,
      List.append_nil]

theorem dmaReader_valid : 0 < 32 ∧
    32 + 2 ^ (Nat.clog 2 64 - 3) < 2 ^ ReservationBuffer.countBits 32 ∧ 15 ≤ 32 ∧ 32 ≤ 48 := by
  decide +kernel

/-- The reader of `DMA_reader_Ctl`, with addresses of 32 bits. -/
def dmaReader : StreamParams where
  nXacts := 4
  outFlits := 32
  maxBytes := 64
  addrBits := 32
  pos := dmaReader_valid.1
  slots := dmaReader_valid.2.1
  addr_ge := dmaReader_valid.2.2.1
  addr_le := dmaReader_valid.2.2.2

/-- Reset registers, and memory in which every byte is its address. -/
def zeroCore : StreamReaderCore where
  state := .s_idle
  sendaddr := 0
  sendlen := 0
  sendpart := false
  xactBusy _ := false
  xactLast _ := false
  xactLeftKeep _ := 0
  xactRightKeep _ := 0
  loffset := 0
  roffset := 0
  first := false

def zeroBuffer : BufferBRAM StreamChannel :=
  ⟨fun _ => ⟨0, 0, false⟩, false, 0, ⟨0, 0, false⟩, ⟨0, 0, false⟩, false, ⟨0, 0, false⟩⟩

def countingMem (a : ℕ) : BitVec 64 :=
  BitVec.ofNat 64 (a * 0x0101010101010101 + 0x0706050403020100)

/-- A cycle in which everyone is ready. -/
def ready (req : Option StreamReadRequest) (d : Option ℕ) : FetchStimulus :=
  ⟨req, true, true, d, true⟩

/-- Nine bytes across a word boundary. -/
def nineBytes : List FetchStimulus :=
  [ready (some ⟨5, 9, false⟩) none, ready none none, ready none none, ready none (some 0),
    ready none (some 0), ready none none, ready none none, ready none none, ready none none]

theorem nineBytes_isSome : ((machine dmaReader countingMem).execWhile (Orderly dmaReader)
    (init zeroCore zeroBuffer fun _ => 0) nineBytes).isSome = true := by
  decide +kernel

theorem streamReader_nineBytes :
    let s := ((machine dmaReader countingMem).execWhile (Orderly dmaReader)
      (init zeroCore zeroBuffer fun _ => 0) nineBytes).get nineBytes_isSome
    s.emitted.length = 2 ∧
      s.emitted.flatMap (·.symbols) <+: s.fetch.requested.flatMap (·.symbols countingMem) := by
  refine ⟨by decide +kernel, ?_⟩
  exact (streamReader zeroCore zeroBuffer (fun _ => 0)
    (Machine.run_iff_execWhile.mpr (Option.some_get nineBytes_isSome).symm)).1

/-! ### Requests for whole words -/

/-- The requests that the core takes are for whole words, and can be served. -/
def Words (params : StreamParams) (s : StreamReader) (e : FetchStimulus) : Prop :=
  s.fetch.core.state = .s_idle → ∀ r, e.req = some r →
    r.Fits params ∧ r.address % 8 = 0 ∧ r.length % 8 = 0

instance (params : StreamParams) (s : StreamReader) (e : FetchStimulus) :
    Decidable (Words params s e) :=
  inferInstanceAs (Decidable (s.fetch.core.state = .s_idle → ∀ r ∈ e.req,
    r.Fits params ∧ r.address % 8 = 0 ∧ r.length % 8 = 0))

/-- The aligner holds nothing, and what the buffer gives out comes out. -/
structure Passes (params : StreamParams) (mem : ℕ → BitVec 64) (s : StreamReader) : Prop where
  inv : Inv params mem s
  whole : ∀ r ∈ s.fetch.requested, r.address % 8 = 0 ∧ r.length % 8 = 0
  nbytes : s.aligner.nbytes = 0
  emitted : s.emitted = s.fetch.delivered

theorem keep_flit {r : StreamReadRequest} (haddr : r.address % 8 = 0) (hlen : r.length % 8 = 0)
    (i : ℕ) : (r.flit mem i).keep = fullKeep := by
  have hend : 8 * r.endword - (r.address + r.length) = 0 := by
    rw [StreamReadRequest.endword]
    omega
  simp [StreamReadRequest.flit, haddr, hend, fullKeep]

/-- A word of a request for whole words is full. -/
theorem Passes.keeps (h : Passes params mem s) {f : StreamChannel} (hout : s.bufferOut = some f) :
    f.Keeps 0 8 := by
  obtain ⟨all, read, filled, place, hfetch⟩ := h.inv.fetch
  rw [bufferOut] at hout
  split at hout
  next hocc =>
    obtain rfl := Option.some.inj hout
    obtain ⟨r, hr, i, hi, hflit⟩ := hfetch.held_mem hocc
    have hwhole := h.whole r hr
    refine ⟨by omega, by omega, ?_⟩
    rw [hflit, keep_flit hwhole.1 hwhole.2]
    rfl
  next => cases hout

theorem Passes.step (h : Passes params mem s) (hwords : Words params s e)
    (hstep : (machine params mem).step s e = some t) : Passes params mem t := by
  have hlast : s.aligner.last = false := by
    by_contra hlast
    have := h.inv.aligner.last (Bool.eq_true_of_not_eq_false hlast)
    have := h.nbytes
    omega
  have horderly : Orderly params s e :=
    ⟨fun hidle r hr => (hwords hidle r hr).1, fun htrue => by rw [hlast] at htrue; cases htrue⟩
  have hinv := h.inv.step horderly hstep
  obtain ⟨fetch, hfetch, rfl⟩ := Option.map_eq_some_iff.mp hstep
  have hpass : s.aligner.inFire s.bufferOut e.outReady =
      s.aligner.outFire s.bufferOut e.outReady ∧
        (s.aligner.cycle s.bufferOut e.outReady).nbytes = 0 := by
    cases hout : s.bufferOut with
    | none =>
      have houtFire : s.aligner.outFire none e.outReady = none := by
        simp [Aligner.outFire, Aligner.outValid, hlast]
      exact ⟨houtFire.symm, by simpa [Aligner.cycle, Aligner.inFire, houtFire] using h.nbytes⟩
    | some f => exact h.inv.aligner.pass h.nbytes (h.keeps hout) e.outReady
  refine ⟨hinv, fun r hr => ?_, hpass.2, ?_⟩
  · rw [next, requested_step hfetch] at hr
    rcases List.mem_append.mp hr with hr | hr
    · exact h.whole r hr
    · split at hr
      next hidle => exact (hwords hidle r (Option.mem_toList.mp hr)).2
      next => cases hr
  · rw [next, delivered_step hfetch, h.emitted, hpass.1]

theorem map_data_flits {r : StreamReadRequest} (haddr : r.address % 8 = 0)
    (hlen : r.length % 8 = 0) :
    (r.flits mem).map (·.data) = (DMAReader.wordsOf r.address r.length).map mem := by
  have hwords : r.words = r.length / 8 := by
    simp only [StreamReadRequest.words, StreamReadRequest.endword, StreamReadRequest.startword]
    omega
  rw [StreamReadRequest.flits, stretch, Nat.sub_zero, hwords, DMAReader.wordsOf,
    List.range_eq_range', List.map_map, List.map_map]
  refine List.map_congr_left fun i _ => congrArg mem ?_
  change 8 * (r.address / 8 + i) = r.address + 8 * i
  omega

/-- The words of the requests. -/
theorem Passes.data_requested (h : Passes params mem s) :
    (s.fetch.requested.flatMap (·.flits mem)).map (·.data) =
      s.fetch.requested.flatMap fun r => (DMAReader.wordsOf r.address r.length).map mem := by
  rw [List.map_flatMap]
  exact List.flatMap_congr fun r hr => map_data_flits (h.whole r hr).1 (h.whole r hr).2

theorem Passes.words_prefix (h : Passes params mem s) :
    s.emitted.map (·.data) <+:
      s.fetch.requested.flatMap fun r => (DMAReader.wordsOf r.address r.length).map mem := by
  obtain ⟨all, read, filled, place, hfetch⟩ := h.inv.fetch
  rw [h.emitted, ← h.data_requested]
  exact hfetch.delivered_prefix.map _

theorem init_passes (core : StreamReaderCore) (buffer : BufferBRAM StreamChannel)
    (xactHeads : ℕ → ℕ) : Passes params mem (init core buffer xactHeads) :=
  ⟨init_inv .., fun _ hr => (List.not_mem_nil hr).elim, rfl, rfl⟩

/-- In every run with requests for whole words, as the controller makes them: the words come out
that are asked for, in order, none of them is missing when the reader is quiet, and every `Get`
is one that TileLink allows. -/
theorem streamReader_words (core : StreamReaderCore) (buffer : BufferBRAM StreamChannel)
    (xactHeads : ℕ → ℕ) {es : List FetchStimulus}
    (h : (machine params mem).Run (Words params) (init core buffer xactHeads) es s) :
    s.emitted.map (·.data) <+:
        s.fetch.requested.flatMap (fun r => (DMAReader.wordsOf r.address r.length).map mem) ∧
      (s.fetch.Quiet → s.emitted.map (·.data) =
        s.fetch.requested.flatMap fun r => (DMAReader.wordsOf r.address r.length).map mem) ∧
      (∀ e, s.fetch.sent params e = true → s.fetch.Allowed params (s.fetch.core.get params)) := by
  have hpasses : Passes params mem s :=
    h.invariant (fun _ _ _ hpasses hwords hs => hpasses.step hwords hs) (init_passes ..)
  obtain ⟨all, read, filled, place, hfetch⟩ := hpasses.inv.fetch
  refine ⟨hpasses.words_prefix, fun hquiet => ?_, fun e => hfetch.allowed⟩
  rw [hpasses.emitted, ← hpasses.data_requested, hfetch.delivered_of_quiet hquiet]

/-- Three words by two reads, of which the second is answered first. -/
def threeWords : List FetchStimulus :=
  [ready (some ⟨16, 24, false⟩) none, ready none none, ready none none, ready none (some 1),
    ready none (some 0), ready none (some 0), ready none none, ready none none, ready none none,
    ready none none]

theorem threeWords_isSome : ((machine dmaReader countingMem).execWhile (Words dmaReader)
    (init zeroCore zeroBuffer fun _ => 0) threeWords).isSome = true := by
  decide +kernel

theorem streamReader_words_three :
    let s := ((machine dmaReader countingMem).execWhile (Words dmaReader)
      (init zeroCore zeroBuffer fun _ => 0) threeWords).get threeWords_isSome
    s.emitted.length = 3 ∧ s.emitted.map (·.data) <+: s.fetch.requested.flatMap fun r =>
      (DMAReader.wordsOf r.address r.length).map countingMem := by
  refine ⟨by decide +kernel, ?_⟩
  exact (streamReader_words zeroCore zeroBuffer (fun _ => 0)
    (Machine.run_iff_execWhile.mpr (Option.some_get threeWords_isSome).symm)).1

end StreamReader

end Course.Gemm
