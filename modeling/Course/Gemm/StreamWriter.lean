import Mathlib.Data.List.Range
import Course.Lib.LittleEndian
import Course.Lib.Machine
import Course.Gemm.StreamReaderCore

/-! `StreamWriter` clock cycle by clock cycle, with the memory behind TileLink: a request and its
stream of words become writes of aligned powers of two, and memory ends with the bytes at their
place and is otherwise unchanged. -/

open Course.Lib

namespace Course.Gemm

structure StreamWriteRequest where
  address : ℕ
  length : ℕ
  deriving DecidableEq

/-- The parameters of the class and of the TileLink node, whose beats have 8 bytes; `maxBytes` is
a power of two. -/
structure WriterParams where
  nXacts : ℕ
  lgMax : ℕ
  addrBits : ℕ
  lgMax_ge : 3 ≤ lgMax
  addr_ge : 16 ≤ addrBits

inductive WriteState
  | s_idle
  | s_data
  | s_resp
  deriving DecidableEq

structure StreamWriter where
  state : WriteState
  length : ℕ
  baseAddr : ℕ
  offset : ℕ
  xactBusy : ℕ → Bool
  beatsLeft : ℕ
  headAddr : ℕ
  headXact : ℕ
  headSize : ℕ
  overhang : ℕ

/-- One beat of a `Put` on `tl.a`. -/
structure WritePut where
  fromSource : ℕ
  toAddress : ℕ
  lgSize : ℕ
  data : ℕ
  mask : ℕ → Bool

/-- The other sides in a cycle: a request, the word on `io.in`, who is ready, and the source whose
write is acknowledged on `tl.d`. -/
structure WriteStimulus where
  req : Option StreamWriteRequest
  inValid : Bool
  inData : BitVec 64
  aReady : Bool
  d : Option ℕ
  respReady : Bool

namespace StreamWriter

variable (params : WriterParams) (w : StreamWriter)

/-- The registers with an initial value have it. -/
def reset : StreamWriter := { w with state := .s_idle, xactBusy := fun _ => false, overhang := 0 }

def addrMerged : ℕ := (w.baseAddr + w.offset) % 2 ^ params.addrBits

def bytesToSend : ℕ := (w.length + 2 ^ params.addrBits - w.offset) % 2 ^ params.addrBits

def baseByteOff : ℕ := w.baseAddr % 2 ^ 3

def byteOff : ℕ := w.addrMerged params % 2 ^ 3

def extraBytes : ℕ := if w.baseByteOff = 0 then 0 else 8 - w.baseByteOff

/-- The first source that is free. -/
def xactId : ℕ := ((List.range params.nXacts).find? fun i => !w.xactBusy i).getD 0

def newBlock : Bool := decide (w.beatsLeft = 0)

def canSend : Bool := ((List.range params.nXacts).any fun i => !w.xactBusy i) || !w.newBlock

/-- The first size from above at which the address is aligned and enough is left. -/
def reqSize : ℕ :=
  ((List.range params.lgMax).map fun i => params.lgMax - i).find? (fun lgSize =>
    decide (w.addrMerged params % 2 ^ lgSize = 0) &&
      decide (w.bytesToSend params / 2 ^ lgSize ≠ 0)) |>.getD 0

def sendTrail : Bool := decide (w.bytesToSend params ≤ w.extraBytes)

def fulldata (data : BitVec 64) : ℕ := w.overhang ||| data.toNat <<< (8 * w.baseByteOff)

def wmask (i : ℕ) : Bool :=
  decide (w.byteOff params ≤ i) && decide (i < w.bytesToSend params)

def wpartial : Bool := !(List.range 8).all (w.wmask params)

/-- `PopCount(wmask)` -/
def bytesSent : ℕ := ((List.range 8).filter (w.wmask params)).length

/-- `tl.a.bits` -/
def put (data : BitVec 64) : WritePut :=
  if w.wpartial params then
    { fromSource := w.xactId params
      toAddress := w.addrMerged params / 8 * 8
      lgSize := 3
      data := if w.sendTrail params then w.overhang else w.fulldata data % 2 ^ 64
      mask := w.wmask params }
  else
    { fromSource := if w.newBlock then w.xactId params else w.headXact
      toAddress := if w.newBlock then w.addrMerged params else w.headAddr
      lgSize := if w.newBlock then w.reqSize params else w.headSize
      data := w.fulldata data % 2 ^ 64
      mask := fun _ => true }

/-- `tl.a.fire` -/
def aFire (e : WriteStimulus) : Bool :=
  decide (w.state = .s_data) && (e.inValid || w.sendTrail params) && w.canSend params && e.aReady

/-- `io.in.ready` -/
def inReady (aReady : Bool) : Bool :=
  decide (w.state = .s_data) && w.canSend params && !w.sendTrail params && aReady

/-- `io.in.fire` -/
def inFire (e : WriteStimulus) : Bool := w.inReady params e.aReady && e.inValid

/-- `io.resp.valid` -/
def respValid : Bool :=
  decide (w.state = .s_resp) && (List.range params.nXacts).all fun i => !w.xactBusy i

/-- `io.resp.fire` -/
def respFire (e : WriteStimulus) : Bool := w.respValid params && e.respReady

/-- `when(tl.a.fire)` -/
def onSend (data : BitVec 64) : StreamWriter :=
  let starts := w.newBlock && decide (3 < w.reqSize params)
  { w with
    beatsLeft :=
      if !w.newBlock then w.beatsLeft - 1
      else if 3 < w.reqSize params then
        (2 ^ (w.reqSize params - 3) - 1) % 2 ^ (params.lgMax - 3)
      else w.beatsLeft
    headAddr := if starts then w.addrMerged params else w.headAddr
    headXact := if starts then w.xactId params else w.headXact
    headSize := if starts then w.reqSize params else w.headSize
    offset := (w.offset + w.bytesSent params) % 2 ^ params.addrBits
    overhang := w.fulldata data >>> 64 % 2 ^ 64
    state := if w.bytesSent params = w.bytesToSend params then .s_resp else w.state }

/-- What the three `when`s make of the registers. -/
def advance (e : WriteStimulus) : StreamWriter :=
  match w.state with
  | .s_idle => e.req.elim w fun r =>
    { w with
      offset := 0
      baseAddr := r.address % 2 ^ params.addrBits
      length := r.length
      beatsLeft := 0
      state := .s_data }
  | .s_data => if w.aFire params e then w.onSend params e.inData else w
  | .s_resp => if w.respFire params e then { w with state := .s_idle } else w

/-- One clock cycle. -/
def cycle (e : WriteStimulus) : StreamWriter :=
  { w.advance params e with
    xactBusy := fun i =>
      (w.xactBusy i || (w.aFire params e && w.newBlock && decide (i = w.xactId params))) &&
        !decide (e.d = some i) }

theorem advance_quiet {params : WriterParams} {w : StreamWriter} {e : WriteStimulus}
    (hfire : w.aFire params e = false) (hreq : w.state = .s_idle → e.req = none) :
    ∃ state, w.advance params e = { w with state := state } ∧
      (state = .s_data ↔ w.state = .s_data) := by
  rw [advance]
  split
  next hidle =>
    rw [hreq hidle]
    exact ⟨w.state, rfl, Iff.rfl⟩
  next =>
    rw [hfire]
    exact ⟨w.state, rfl, Iff.rfl⟩
  next hresp =>
    split
    next => exact ⟨.s_idle, rfl, by simp [hresp]⟩
    next => exact ⟨w.state, rfl, Iff.rfl⟩

end StreamWriter

/-! ### The memory -/

/-- The bytes at `a` and behind it. -/
def writeBytes (mem : ℕ → UInt8) (a : ℕ) (bytes : List UInt8) : ℕ → UInt8 :=
  fun x => if a ≤ x then bytes[x - a]?.getD (mem x) else mem x

/-- What a beat for the word at `a` writes. -/
def writeMasked (mem : ℕ → UInt8) (a data : ℕ) (mask : ℕ → Bool) : ℕ → UInt8 :=
  fun x =>
    if a ≤ x ∧ x < a + 8 ∧ mask (x - a) then UInt8.ofNat (data / 256 ^ (x - a)) else mem x

/-- A `Put` with more than one beat that has begun: the word for the next one, and how many are
left. -/
structure Burst where
  put : WritePut
  word : ℕ
  left : ℕ

/-- A request with the words that have been taken for it. -/
structure Store where
  address : ℕ
  length : ℕ
  words : List (BitVec 64)

def Store.bytes (st : Store) : List UInt8 :=
  (st.words.flatMap fun x => LittleEndian.toBytes 8 x.toNat).take st.length

def Store.write (mem : ℕ → UInt8) (st : Store) : ℕ → UInt8 := writeBytes mem st.address st.bytes

/-- As many words have been taken as the length asks for. -/
def Store.Complete (st : Store) : Prop := st.words.length = (st.length + 7) / 8

instance (st : Store) : Decidable st.Complete :=
  inferInstanceAs (Decidable (st.words.length = (st.length + 7) / 8))

/-- `owed` are the sources whose write has begun and is not yet acknowledged; `past` and `store`
are the requests up to the current one. -/
structure StreamStore where
  writer : StreamWriter
  mem : ℕ → UInt8
  burst : Option Burst
  owed : ℕ → Bool
  past : List Store
  store : Store

namespace StreamStore

variable (params : WriterParams) (s : StreamStore) (e : WriteStimulus)

def init (writer : StreamWriter) (mem : ℕ → UInt8) : StreamStore where
  writer := writer.reset
  mem := mem
  burst := none
  owed _ := false
  past := []
  store := ⟨0, 0, []⟩

/-- What the memory makes of a beat; the beats of a `Put` go to consecutive words. -/
def receive (put : WritePut) : StreamStore :=
  match s.burst with
  | some b =>
    { s with
      mem := writeMasked s.mem b.word put.data put.mask
      burst := if b.left = 1 then none else some { b with word := b.word + 8, left := b.left - 1 } }
  | none =>
    { s with
      mem := writeMasked s.mem put.toAddress put.data put.mask
      burst :=
        if 3 < put.lgSize then some ⟨put, put.toAddress + 8, 2 ^ (put.lgSize - 3) - 1⟩ else none
      owed := Function.update s.owed put.fromSource true }

def next : StreamStore :=
  let t := if s.writer.aFire params e then s.receive (s.writer.put params e.inData) else s
  { t with
    writer := s.writer.cycle params e
    owed := fun i => t.owed i && !decide (e.d = some i)
    past := if s.writer.state = .s_idle ∧ e.req.isSome then s.past ++ [s.store] else s.past
    store :=
      if s.writer.state = .s_idle then e.req.elim s.store fun r => ⟨r.address, r.length, []⟩
      else if s.writer.inFire params e then { s.store with words := s.store.words ++ [e.inData] }
      else s.store }

/-- Only a write that has begun is acknowledged. -/
def machine : Machine StreamStore WriteStimulus where
  step s e := if e.d.all s.owed then some (s.next params e) else none

end StreamStore

/-! ### Bytes -/

theorem writeBytes_append (mem : ℕ → UInt8) (a : ℕ) (xs ys : List UInt8) :
    writeBytes mem a (xs ++ ys) = writeBytes (writeBytes mem a xs) (a + xs.length) ys := by
  funext x
  simp only [writeBytes]
  rcases Nat.lt_or_ge x a with hlt | hge
  · simp [Nat.not_le.mpr hlt, Nat.not_le.mpr (show x < a + xs.length by omega)]
  rcases Nat.lt_or_ge x (a + xs.length) with hlt' | hge'
  · rw [if_pos hge, if_neg (by omega), if_pos hge, List.getElem?_append_left (by omega)]
  · rw [if_pos hge, if_pos hge', if_pos hge, List.getElem?_append_right (by omega),
      List.getElem?_eq_none (l := xs) (by omega), Option.getD_none, Nat.sub_sub]

theorem writeMasked_eq (mem : ℕ → UInt8) (a data rem : ℕ) {mask : ℕ → Bool}
    (hmask : ∀ i < 8, mask i = decide (i < rem)) :
    writeMasked mem a data mask = writeBytes mem a ((LittleEndian.toBytes 8 data).take rem) := by
  funext x
  rw [writeMasked, writeBytes]
  rcases Nat.lt_or_ge x a with hlt | hge
  · rw [if_neg (by omega), if_neg (by omega)]
  rw [if_pos hge]
  rcases Nat.lt_or_ge (x - a) 8 with hlt | hge'
  · have hcond : (a ≤ x ∧ x < a + 8 ∧ mask (x - a) = true) ↔ x - a < rem := by
      rw [hmask _ hlt, decide_eq_true_eq]
      omega
    rw [List.getElem?_take]
    by_cases h : x - a < rem
    · rw [if_pos (hcond.mpr h), if_pos h, LittleEndian.toBytes_eq_map]
      simp [hlt]
    · rw [if_neg (fun hx => h (hcond.mp hx)), if_neg h]
      rfl
  · rw [if_neg (by omega), List.getElem?_eq_none (by simp; omega)]
    rfl

theorem writeBytes_outside (mem : ℕ → UInt8) {a x : ℕ} {bytes : List UInt8}
    (h : x < a ∨ a + bytes.length ≤ x) : writeBytes mem a bytes x = mem x := by
  rw [writeBytes]
  split
  next hle => rw [List.getElem?_eq_none (by omega), Option.getD_none]
  next => rfl

theorem length_flatMap_toBytes (words : List (BitVec 64)) :
    (words.flatMap fun x => LittleEndian.toBytes 8 x.toNat).length = 8 * words.length := by
  induction words with
  | nil => rfl
  | cons x words ih =>
    rw [List.flatMap_cons, List.length_append, LittleEndian.length_toBytes, ih, List.length_cons]
    omega

/-- One more word for a request that is not complete. -/
theorem Store.write_concat {st : Store} (h : 8 * st.words.length < st.length) (mem : ℕ → UInt8)
    (x : BitVec 64) :
    Store.write mem { st with words := st.words ++ [x] } =
      writeBytes (st.write mem) (st.address + 8 * st.words.length)
        ((LittleEndian.toBytes 8 x.toNat).take (st.length - 8 * st.words.length)) := by
  have hlen := length_flatMap_toBytes st.words
  have hbytes : st.bytes = st.words.flatMap fun x => LittleEndian.toBytes 8 x.toNat :=
    List.take_of_length_le (by omega)
  have hnext : Store.bytes { st with words := st.words ++ [x] } =
      st.bytes ++ (LittleEndian.toBytes 8 x.toNat).take (st.length - 8 * st.words.length) := by
    rw [hbytes, Store.bytes]
    dsimp only
    rw [List.flatMap_append, List.flatMap_singleton, List.take_append,
      List.take_of_length_le (by omega), hlen]
  rw [Store.write, hnext, writeBytes_append, hbytes, hlen, Store.write, hbytes]

/-- The requests change the bytes that they are for. -/
theorem Store.foldl_write_outside {x : ℕ} (stores : List Store) (mem : ℕ → UInt8)
    (h : ∀ st ∈ stores, x < st.address ∨ st.address + st.length ≤ x) :
    stores.foldl Store.write mem x = mem x := by
  induction stores generalizing mem with
  | nil => rfl
  | cons st stores ih =>
    have hlen : st.bytes.length ≤ st.length := List.length_take_le ..
    have hst := h st List.mem_cons_self
    rw [List.foldl_cons, ih _ fun st hst => h st (List.mem_cons_of_mem _ hst)]
    exact writeBytes_outside mem (by omega)

/-! ### The invariant -/

/-- The bytes are in the address space and begin with a word. -/
structure StreamWriteRequest.Fits (params : WriterParams) (r : StreamWriteRequest) : Prop where
  pos : 0 < r.length
  lt : r.length < 2 ^ 16
  aligned : r.address % 8 = 0
  ends : r.address + r.length ≤ 2 ^ params.addrBits

instance (params : WriterParams) (r : StreamWriteRequest) : Decidable (r.Fits params) :=
  decidable_of_iff (0 < r.length ∧ r.length < 2 ^ 16 ∧ r.address % 8 = 0 ∧
    r.address + r.length ≤ 2 ^ params.addrBits) ⟨fun ⟨hpos, hlt, haligned, hends⟩ =>
      ⟨hpos, hlt, haligned, hends⟩,
      fun ⟨hpos, hlt, haligned, hends⟩ => ⟨hpos, hlt, haligned, hends⟩⟩

/-- What the writer knows of the burst is what the memory knows. -/
structure Burst.Follows (b : Burst) (w : StreamWriter) (word rem : ℕ) : Prop where
  left : w.beatsLeft = b.left
  pos : 0 < b.left
  word : b.word = word
  le : 8 * b.left ≤ rem
  source : w.headXact = b.put.fromSource
  address : w.headAddr = b.put.toAddress
  size : w.headSize = b.put.lgSize

/-- The words that have been taken are written, and more are to come. -/
structure Sending (params : WriterParams) (w : StreamWriter) (burst : Option Burst) (st : Store) :
    Prop where
  fits : StreamWriteRequest.Fits params ⟨st.address, st.length⟩
  base : w.baseAddr = st.address
  length : w.length = st.length
  offset : w.offset = 8 * st.words.length
  lt : 8 * st.words.length < st.length
  overhang : w.overhang = 0
  idle : burst = none → w.beatsLeft = 0
  burst : ∀ b, burst = some b →
    b.Follows w (st.address + 8 * st.words.length) (st.length - 8 * st.words.length)

namespace Sending

variable {params : WriterParams} {w : StreamWriter} {burst : Option Burst} {st : Store}

theorem exists_addr (params : WriterParams) : ∃ M, 2 ^ params.addrBits = 8 * M ∧ 2 ^ 13 ≤ M := by
  obtain ⟨n, hn⟩ := Nat.exists_eq_add_of_le' params.addr_ge
  refine ⟨2 ^ n * 2 ^ 13, ?_, Nat.le_mul_of_pos_left _ (Nat.two_pow_pos n)⟩
  rw [hn, Nat.pow_add]
  omega

theorem addrMerged (h : Sending params w burst st) :
    w.addrMerged params = st.address + 8 * st.words.length := by
  have hends := h.fits.ends
  have hlt := h.lt
  rw [StreamWriter.addrMerged, h.base, h.offset]
  exact Nat.mod_eq_of_lt (by dsimp only at hends; omega)

theorem bytesToSend (h : Sending params w burst st) :
    w.bytesToSend params = st.length - 8 * st.words.length := by
  obtain ⟨M, hM, hle⟩ := exists_addr params
  have hlt := h.lt
  have hlength := h.fits.lt
  dsimp only at hlength
  rw [StreamWriter.bytesToSend, h.length, h.offset, Nat.sub_add_comm hlt.le, Nat.add_mod_right]
  exact Nat.mod_eq_of_lt (by omega)

theorem wmask (h : Sending params w burst st) (i : ℕ) :
    w.wmask params i = decide (i < st.length - 8 * st.words.length) := by
  have haligned := h.fits.aligned
  dsimp only at haligned
  have hoff : w.byteOff params = 0 := by
    rw [StreamWriter.byteOff, h.addrMerged]
    omega
  rw [StreamWriter.wmask, hoff, h.bytesToSend]
  simp

theorem baseByteOff (h : Sending params w burst st) : w.baseByteOff = 0 := by
  rw [StreamWriter.baseByteOff, h.base]
  exact h.fits.aligned

theorem sendTrail (h : Sending params w burst st) : w.sendTrail params = false := by
  have hlt := h.lt
  rw [StreamWriter.sendTrail, StreamWriter.extraBytes, if_pos h.baseByteOff, h.bytesToSend]
  exact decide_eq_false (by omega)

theorem fulldata (h : Sending params w burst st) (data : BitVec 64) :
    w.fulldata data = data.toNat := by
  rw [StreamWriter.fulldata, h.overhang, h.baseByteOff]
  simp

theorem count_range (rem : ℕ) :
    ((List.range 8).filter fun i => decide (i < rem)).length = min 8 rem := by
  have hsmall : ∀ rem < 8,
      ((List.range 8).filter fun i => decide (i < rem)).length = min 8 rem := by
    decide
  rcases Nat.lt_or_ge rem 8 with hlt | hge
  · exact hsmall rem hlt
  · rw [List.filter_eq_self.mpr, List.length_range, Nat.min_eq_left hge]
    intro i hi
    have := List.mem_range.mp hi
    exact decide_eq_true (by omega)

theorem bytesSent (h : Sending params w burst st) :
    w.bytesSent params = min 8 (st.length - 8 * st.words.length) := by
  rw [StreamWriter.bytesSent, ← count_range]
  congr 2
  funext i
  exact h.wmask i

theorem wpartial (h : Sending params w burst st) :
    w.wpartial params = decide (st.length - 8 * st.words.length < 8) := by
  have hall : (List.range 8).all (w.wmask params) = true ↔
      8 ≤ st.length - 8 * st.words.length := by
    simp only [List.all_eq_true, List.mem_range, h.wmask, decide_eq_true_eq]
    exact ⟨fun hi => hi 7 (by decide), fun hle i hi => by omega⟩
  rw [StreamWriter.wpartial, Bool.eq_iff_iff, Bool.not_eq_true', ← Bool.not_eq_true, hall,
    decide_eq_true_eq, Nat.not_le]

/-- With a whole word to go, the size is one of whole words. -/
theorem reqSize (h : Sending params w burst st) (hrem : 8 ≤ st.length - 8 * st.words.length) :
    3 ≤ w.reqSize params ∧ w.reqSize params ≤ params.lgMax ∧
      (st.address + 8 * st.words.length) % 2 ^ w.reqSize params = 0 ∧
      2 ^ w.reqSize params ≤ st.length - 8 * st.words.length := by
  have haligned := h.fits.aligned
  dsimp only at haligned
  have hge := params.lgMax_ge
  obtain ⟨l, hl⟩ : ∃ l, l = (List.range params.lgMax).map fun i => params.lgMax - i := ⟨_, rfl⟩
  have hmem : 3 ∈ l := by
    rw [hl, List.mem_map]
    exact ⟨params.lgMax - 3, List.mem_range.mpr (by omega), by omega⟩
  have hsorted : l.Pairwise (· > ·) := by
    rw [hl, List.pairwise_map]
    refine (List.pairwise_lt_range (n := params.lgMax)).imp_of_mem fun hi hj hlt => ?_
    have := List.mem_range.mp hi
    have := List.mem_range.mp hj
    omega
  have hle : ∀ lg ∈ l, lg ≤ params.lgMax := by
    rw [hl]
    intro lg hlg
    obtain ⟨i, -, rfl⟩ := List.mem_map.mp hlg
    omega
  rw [StreamWriter.reqSize, ← hl]
  simp only [h.addrMerged, h.bytesToSend]
  cases hfind : l.find? _ with
  | none =>
    have := List.find?_eq_none.mp hfind 3 hmem
    simp only [Bool.and_eq_true, decide_eq_true_eq] at this
    omega
  | some lg =>
    have hcond := List.find?_some hfind
    simp only [Bool.and_eq_true, decide_eq_true_eq] at hcond
    obtain ⟨-, before, after, hsplit, hbefore⟩ := List.find?_eq_some_iff_append.mp hfind
    rw [Option.getD_some]
    refine ⟨?_, hle lg (List.mem_of_find?_eq_some hfind), hcond.1,
      Nat.le_of_not_lt fun hlt => hcond.2 (Nat.div_eq_of_lt hlt)⟩
    by_contra hlt
    rw [hsplit, List.mem_append, List.mem_cons] at hmem
    rcases hmem with hmem | rfl | hmem
    · have := hbefore 3 hmem
      simp only [Bool.not_eq_true', Bool.and_eq_false_iff, decide_eq_false_iff_not] at this
      omega
    · exact hlt le_rfl
    · rw [hsplit, List.pairwise_append] at hsorted
      have := List.rel_of_pairwise_cons hsorted.2.1 hmem
      omega

/-! What a beat is, and what memory makes of it. -/

theorem put_data (h : Sending params w burst st) (data : BitVec 64) :
    (w.put params data).data = data.toNat ∧
      ∀ i < 8, (w.put params data).mask i = decide (i < st.length - 8 * st.words.length) := by
  have hdata : data.toNat % 2 ^ 64 = data.toNat := Nat.mod_eq_of_lt data.isLt
  rw [StreamWriter.put, h.wpartial, h.sendTrail, h.fulldata, hdata]
  split
  next => exact ⟨rfl, fun i _ => h.wmask i⟩
  next hfull =>
    simp only [decide_eq_true_eq] at hfull
    exact ⟨rfl, fun i hi => (decide_eq_true (by omega)).symm⟩

/-- The first beat of a `Put`. -/
theorem put_begins (h : Sending params w none st) (data : BitVec 64) :
    (w.put params data).fromSource = w.xactId params ∧
      (w.put params data).toAddress = st.address + 8 * st.words.length ∧
      (w.put params data).lgSize =
        if st.length - 8 * st.words.length < 8 then 3 else w.reqSize params := by
  have haligned := h.fits.aligned
  dsimp only at haligned
  have hnew : w.newBlock = true := decide_eq_true (h.idle rfl)
  rw [StreamWriter.put, h.wpartial, hnew, h.addrMerged]
  split
  next hpart => exact ⟨rfl, by dsimp only; omega, (if_pos (of_decide_eq_true hpart)).symm⟩
  next hfull =>
    exact ⟨rfl, rfl, (if_neg (of_decide_eq_false (Bool.eq_false_iff.mpr hfull))).symm⟩

/-- Every other beat. -/
theorem put_continues {b : Burst} (h : Sending params w (some b) st) (data : BitVec 64) :
    (w.put params data).fromSource = b.put.fromSource ∧
      (w.put params data).toAddress = b.put.toAddress ∧
      (w.put params data).lgSize = b.put.lgSize := by
  obtain ⟨hleft, hpos, -, hle, hsource, haddress, hsize⟩ := h.burst b rfl
  have hnew : w.newBlock = false := decide_eq_false (by omega)
  rw [StreamWriter.put, h.wpartial, hnew, decide_eq_false (by omega)]
  exact ⟨hsource, haddress, hsize⟩

theorem receive_mem {s : StreamStore} (h : Sending params w s.burst st) (data : BitVec 64) :
    (s.receive (w.put params data)).mem =
      writeBytes s.mem (st.address + 8 * st.words.length)
        ((LittleEndian.toBytes 8 data.toNat).take (st.length - 8 * st.words.length)) := by
  obtain ⟨hdata, hmask⟩ := h.put_data data
  rw [← hdata, ← writeMasked_eq _ _ _ _ hmask, StreamStore.receive]
  cases hburst : s.burst with
  | none =>
    rw [hburst] at h
    rw [← (h.put_begins data).2.1]
  | some b => rw [← (h.burst b hburst).word]

/-- The last word of the request. -/
theorem last {s : StreamStore} (h : Sending params w s.burst st) (data : BitVec 64)
    (hlast : st.length - 8 * st.words.length ≤ 8) :
    (w.onSend params data).state = .s_resp ∧ (s.receive (w.put params data)).burst = none := by
  refine ⟨?_, ?_⟩
  · rw [StreamWriter.onSend, h.bytesSent, h.bytesToSend, Nat.min_eq_right hlast]
    exact if_pos rfl
  rw [StreamStore.receive]
  cases hburst : s.burst with
  | none =>
    rw [hburst] at h
    obtain ⟨-, -, hsize⟩ := h.put_begins data
    refine if_neg ?_
    rw [hsize]
    split
    next => exact Nat.lt_irrefl 3
    next hfull =>
      have hle := (h.reqSize (by omega)).2.2.2
      intro hlt
      have := Nat.pow_le_pow_right (show 0 < 2 by decide) hlt
      omega
  | some b =>
    obtain ⟨-, hpos, -, hle, -⟩ := h.burst b hburst
    exact if_pos (by omega)

theorem setBusy (h : Sending params w burst st) (busy : ℕ → Bool) :
    Sending params { w with xactBusy := busy } burst st where
  fits := h.fits
  base := h.base
  length := h.length
  offset := h.offset
  lt := h.lt
  overhang := h.overhang
  idle := h.idle
  burst b hb :=
    have hfollows := h.burst b hb
    ⟨hfollows.left, hfollows.pos, hfollows.word, hfollows.le, hfollows.source, hfollows.address,
      hfollows.size⟩

/-- The registers of the burst, in the writer and in the memory. -/
theorem more_burst {s : StreamStore} (h : Sending params w s.burst st) (data : BitVec 64)
    (hmore : 8 < st.length - 8 * st.words.length) :
    ((s.receive (w.put params data)).burst = none → (w.onSend params data).beatsLeft = 0) ∧
      ∀ b, (s.receive (w.put params data)).burst = some b →
        b.Follows (w.onSend params data) (st.address + 8 * (st.words.length + 1))
          (st.length - 8 * (st.words.length + 1)) := by
  rw [StreamStore.receive]
  cases hburst : s.burst with
  | none =>
    rw [hburst] at h
    obtain ⟨hsource, haddress, hsize⟩ := h.put_begins data
    obtain ⟨hge, hmax, -, hle⟩ := h.reqSize (by omega)
    rw [if_neg (by omega)] at hsize
    have hzero := h.idle rfl
    have hnew : w.newBlock = true := decide_eq_true hzero
    rw [StreamWriter.onSend, hnew]
    dsimp only
    rw [hsize]
    by_cases hmulti : 3 < w.reqSize params
    · rw [if_pos hmulti, if_pos hmulti]
      refine ⟨fun hnone => (Option.some_ne_none _ hnone).elim, fun b hb => ?_⟩
      obtain rfl := Option.some.inj hb
      obtain ⟨n, hn⟩ := Nat.exists_eq_add_of_lt hmulti
      have hpow : 2 ^ w.reqSize params = 8 * 2 ^ (w.reqSize params - 3) := by
        rw [show w.reqSize params = 3 + (w.reqSize params - 3) by omega, Nat.pow_add,
          Nat.add_sub_cancel_left]
      have hpos : 2 ^ 1 ≤ 2 ^ (w.reqSize params - 3) := Nat.pow_le_pow_right (by decide) (by omega)
      have hbits : 2 ^ (w.reqSize params - 3) ≤ 2 ^ (params.lgMax - 3) :=
        Nat.pow_le_pow_right (by decide) (by omega)
      exact
        { left := Nat.mod_eq_of_lt (by omega)
          pos := by dsimp only; omega
          word := by dsimp only; omega
          le := by dsimp only; omega
          source := by simp [hmulti, hsource]
          address := by simp [hmulti, haddress, h.addrMerged]
          size := by simp [hmulti, hsize] }
    · rw [if_neg hmulti, if_neg hmulti]
      refine ⟨fun _ => hzero, fun b hb => ?_⟩
      cases hb
  | some b =>
    obtain ⟨hleft, hpos, hword, hle, hsource, haddress, hsize⟩ := h.burst b hburst
    have hnew : w.newBlock = false := decide_eq_false (by omega)
    rw [StreamWriter.onSend, hnew]
    dsimp only
    by_cases hone : b.left = 1
    · rw [if_pos hone]
      refine ⟨fun _ => by simp [hleft, hone], fun b' hb' => ?_⟩
      cases hb'
    · rw [if_neg hone]
      refine ⟨fun hnone => (Option.some_ne_none _ hnone).elim, fun b' hb' => ?_⟩
      obtain rfl := Option.some.inj hb'
      exact
        { left := by simp [hleft]
          pos := by dsimp only; omega
          word := by dsimp only; omega
          le := by dsimp only; omega
          source := hsource
          address := haddress
          size := hsize }

theorem overhang_onSend (h : Sending params w burst st) (data : BitVec 64) :
    (w.onSend params data).overhang = 0 := by
  rw [StreamWriter.onSend, h.fulldata]
  dsimp only
  rw [Nat.shiftRight_eq_div_pow, Nat.div_eq_of_lt data.isLt]
  rfl

/-- A word after which others come. -/
theorem more {s : StreamStore} (h : Sending params w s.burst st) (data : BitVec 64)
    (hmore : 8 < st.length - 8 * st.words.length) :
    (w.onSend params data).state = w.state ∧
      Sending params (w.onSend params data) (s.receive (w.put params data)).burst
        { st with words := st.words ++ [data] } := by
  have hlen : (st.words ++ [data]).length = st.words.length + 1 := List.length_append
  have hends := h.fits.ends
  dsimp only at hends
  obtain ⟨hidle, hfollows⟩ := h.more_burst data hmore
  refine ⟨?_, ?_⟩
  · rw [StreamWriter.onSend, h.bytesSent, h.bytesToSend]
    exact if_neg (by omega)
  exact
    { fits := h.fits
      base := h.base
      length := h.length
      offset := by
        rw [StreamWriter.onSend, h.bytesSent, h.offset, Nat.min_eq_left hmore.le]
        dsimp only
        rw [Nat.mod_eq_of_lt (by omega), hlen]
        omega
      lt := by
        dsimp only
        rw [hlen]
        omega
      overhang := h.overhang_onSend data
      idle := hidle
      burst := fun b hb => by
        dsimp only
        rw [hlen]
        exact hfollows b hb }

end Sending

/-! ### Runs -/

namespace StreamStore

variable {params : WriterParams} {mem : ℕ → UInt8} {s t : StreamStore} {e : WriteStimulus}

/-- Memory is what the requests so far make of it. -/
structure Inv (params : WriterParams) (mem : ℕ → UInt8) (s : StreamStore) : Prop where
  mem_eq : s.mem = (s.past ++ [s.store]).foldl Store.write mem
  owed : s.owed = s.writer.xactBusy
  busy_lt : ∀ i, s.owed i = true → i < params.nXacts
  overhang : s.writer.overhang = 0
  data : s.writer.state = .s_data → Sending params s.writer s.burst s.store
  rest : s.writer.state ≠ .s_data → s.burst = none ∧ s.store.Complete
  past : ∀ st ∈ s.past, st.Complete

theorem init_complete : Store.Complete ⟨0, 0, []⟩ := by
  decide

theorem init_inv (writer : StreamWriter) (mem : ℕ → UInt8) :
    Inv params mem (init writer mem) where
  mem_eq := by
    funext x
    simp [init, Store.write, Store.bytes, writeBytes]
  owed := rfl
  busy_lt i hi := by cases hi
  overhang := rfl
  data hdata := by cases hdata
  rest _ := ⟨rfl, init_complete⟩
  past st hst := by cases hst

/-- The request that is taken can be served. -/
def Permitted (params : WriterParams) (s : StreamStore) (e : WriteStimulus) : Prop :=
  s.writer.state = .s_idle → ∀ r, e.req = some r → r.Fits params

instance (params : WriterParams) (s : StreamStore) (e : WriteStimulus) :
    Decidable (Permitted params s e) :=
  inferInstanceAs (Decidable (s.writer.state = .s_idle → ∀ r ∈ e.req, r.Fits params))

theorem aFire_data (h : s.writer.aFire params e = true) : s.writer.state = .s_data := by
  simp only [StreamWriter.aFire, Bool.and_eq_true, decide_eq_true_eq] at h
  exact h.1.1.1

theorem aFire_canSend (h : s.writer.aFire params e = true) : s.writer.canSend params = true := by
  simp only [StreamWriter.aFire, Bool.and_eq_true] at h
  exact h.1.2

/-- While a request is served, a beat is sent where a word is taken. -/
theorem Inv.inFire (h : Inv params mem s) (hdata : s.writer.state = .s_data) :
    s.writer.inFire params e = s.writer.aFire params e := by
  rw [StreamWriter.inFire, StreamWriter.inReady, StreamWriter.aFire, (h.data hdata).sendTrail,
    hdata]
  cases s.writer.canSend params <;> cases e.aReady <;> cases e.inValid <;> rfl

/-- The first beat of a `Put` has a source of its own. -/
theorem xactId_free (hfire : s.writer.aFire params e = true) (hnew : s.writer.newBlock = true) :
    s.writer.xactId params < params.nXacts ∧
      s.writer.xactBusy (s.writer.xactId params) = false := by
  have hcan := aFire_canSend hfire
  rw [StreamWriter.canSend, hnew, Bool.not_true, Bool.or_false] at hcan
  exact StreamReaderCore.firstFree_spec hcan

theorem Inv.newBlock (h : Inv params mem s) (hdata : s.writer.state = .s_data) :
    s.writer.newBlock = s.burst.isNone := by
  cases hburst : s.burst with
  | none => exact decide_eq_true ((h.data hdata).idle hburst)
  | some b =>
    have hfollows := (h.data hdata).burst b hburst
    have := hfollows.left
    have := hfollows.pos
    exact decide_eq_false (by omega)

/-- Who owes an acknowledgement after a beat. -/
theorem Inv.receive_owed (h : Inv params mem s) (hfire : s.writer.aFire params e = true) (i : ℕ) :
    (s.receive (s.writer.put params e.inData)).owed i =
      (s.writer.xactBusy i || (s.writer.newBlock && decide (i = s.writer.xactId params))) := by
  have hsending := h.data (aFire_data hfire)
  rw [h.newBlock (aFire_data hfire), receive]
  cases hburst : s.burst with
  | none =>
    rw [hburst] at hsending
    dsimp only
    rw [(hsending.put_begins e.inData).1, h.owed, Function.update_apply, Option.isNone_none,
      Bool.true_and]
    by_cases hi : i = s.writer.xactId params <;> simp [hi]
  | some b => simp [h.owed]

theorem Inv.owed_next (h : Inv params mem s) :
    (s.next params e).owed = (s.next params e).writer.xactBusy := by
  funext i
  rw [next, StreamWriter.cycle]
  dsimp only
  by_cases hfire : s.writer.aFire params e = true
  · rw [if_pos hfire, h.receive_owed hfire, hfire, Bool.true_and]
  · rw [if_neg hfire, h.owed, Bool.eq_false_iff.mpr hfire]
    simp

theorem Inv.busy_lt_next (h : Inv params mem s) (i : ℕ) (hi : (s.next params e).owed i = true) :
    i < params.nXacts := by
  rw [h.owed_next, next, StreamWriter.cycle] at hi
  simp only [Bool.and_eq_true, Bool.or_eq_true, decide_eq_true_eq] at hi
  rcases hi.1 with hbusy | ⟨⟨hfire, hnew⟩, rfl⟩
  · exact h.busy_lt i (by rw [h.owed]; exact hbusy)
  · exact (xactId_free hfire hnew).1

theorem next_idle (hfire : s.writer.aFire params e = false) :
    (s.next params e).mem = s.mem ∧ (s.next params e).burst = s.burst := by
  rw [next, hfire]
  exact ⟨rfl, rfl⟩

/-- No beat is sent and no request taken. -/
theorem Inv.next_quiet (h : Inv params mem s) (hfire : s.writer.aFire params e = false)
    (hreq : s.writer.state = .s_idle → e.req = none) : Inv params mem (s.next params e) := by
  have hin : s.writer.inFire params e = false := by
    by_cases hdata : s.writer.state = .s_data
    · rw [h.inFire hdata, hfire]
    · simp [StreamWriter.inFire, StreamWriter.inReady, hdata]
  have hpast : ¬(s.writer.state = .s_idle ∧ e.req.isSome = true) := by
    rintro ⟨hidle, hsome⟩
    rw [hreq hidle] at hsome
    cases hsome
  have hstore : (s.next params e).store = s.store := by
    rw [next]
    dsimp only
    split
    next hidle =>
      rw [hreq hidle]
      rfl
    next => rw [hin, if_neg Bool.false_ne_true]
  obtain ⟨hmem, hburst⟩ := next_idle hfire
  have hpasts : (s.next params e).past = s.past := by
    rw [next]
    exact if_neg hpast
  obtain ⟨state, hadvance, hstate⟩ := StreamWriter.advance_quiet hfire hreq
  obtain ⟨busy, hwriter⟩ : ∃ busy, (s.next params e).writer =
      { s.writer with state := state, xactBusy := busy } := by
    rw [next, StreamWriter.cycle, hadvance]
    exact ⟨_, rfl⟩
  refine ⟨?_, h.owed_next, h.busy_lt_next, ?_, fun hdata => ?_, fun hdata => ?_, ?_⟩
  · rw [hmem, hpasts, hstore]
    exact h.mem_eq
  · rw [hwriter]
    exact h.overhang
  · rw [hwriter] at hdata
    have hsending := (h.data (hstate.mp hdata)).setBusy busy
    rw [← (show state = s.writer.state from hdata.trans (hstate.mp hdata).symm)] at hsending
    rw [hwriter, hburst, hstore]
    exact hsending
  · rw [hwriter] at hdata
    rw [hburst, hstore]
    exact h.rest fun hs => hdata (hstate.mpr hs)
  · rw [hpasts]
    exact h.past

/-- A request is taken. -/
theorem Inv.next_request (h : Inv params mem s) (hidle : s.writer.state = .s_idle)
    {r : StreamWriteRequest} (hreq : e.req = some r) (hfits : r.Fits params) :
    Inv params mem (s.next params e) := by
  have hfire : s.writer.aFire params e = false := by simp [StreamWriter.aFire, hidle]
  obtain ⟨hburst, hcomplete⟩ := h.rest (by rw [hidle]; decide)
  obtain ⟨hmemNext, hburstNext⟩ := next_idle hfire
  have hpos := hfits.pos
  have hends := hfits.ends
  have hstore : (s.next params e).store = ⟨r.address, r.length, []⟩ := by
    rw [next, hidle, hreq]
    rfl
  have hpast : (s.next params e).past = s.past ++ [s.store] := by
    rw [next]
    exact if_pos ⟨hidle, by rw [hreq]; rfl⟩
  have hempty : Store.write s.mem ⟨r.address, r.length, []⟩ = s.mem := by
    funext x
    simp [Store.write, Store.bytes, writeBytes]
  obtain ⟨busy, hwriter⟩ : ∃ busy, (s.next params e).writer =
      { s.writer with
        offset := 0
        baseAddr := r.address % 2 ^ params.addrBits
        length := r.length
        beatsLeft := 0
        state := .s_data
        xactBusy := busy } := by
    rw [next, StreamWriter.cycle, StreamWriter.advance, hidle, hreq]
    exact ⟨_, rfl⟩
  refine ⟨?_, h.owed_next, h.busy_lt_next, ?_, fun _ => ?_, fun hdata => ?_, ?_⟩
  · rw [hmemNext, hpast, hstore, List.foldl_append, ← h.mem_eq]
    exact hempty.symm
  · rw [hwriter]
    exact h.overhang
  · rw [hwriter, hburstNext, hburst, hstore]
    exact
      { fits := hfits
        base := Nat.mod_eq_of_lt (by omega)
        length := rfl
        offset := rfl
        lt := hpos
        overhang := h.overhang
        idle := fun _ => rfl
        burst := fun b hb => by cases hb }
  · rw [hwriter] at hdata
    exact absurd rfl hdata
  · rw [hpast]
    intro st hst
    rcases List.mem_append.mp hst with hst | hst
    · exact h.past st hst
    · rw [List.mem_singleton.mp hst]
      exact hcomplete

/-- A beat is sent. -/
theorem Inv.next_beat (h : Inv params mem s) (hfire : s.writer.aFire params e = true) :
    Inv params mem (s.next params e) := by
  have hstate := aFire_data hfire
  have hsending := h.data hstate
  have hidle : s.writer.state ≠ .s_idle := by
    rw [hstate]
    decide
  have hpast : (s.next params e).past = s.past := by
    rw [next]
    exact if_neg fun hp => hidle hp.1
  have hstore : (s.next params e).store =
      { s.store with words := s.store.words ++ [e.inData] } := by
    rw [next]
    dsimp only
    rw [if_neg hidle, h.inFire hstate, if_pos hfire]
  have hreceive : (s.next params e).mem = (s.receive (s.writer.put params e.inData)).mem ∧
      (s.next params e).burst = (s.receive (s.writer.put params e.inData)).burst := by
    rw [next, if_pos hfire]
    exact ⟨rfl, rfl⟩
  obtain ⟨busy, hwriter⟩ : ∃ busy, (s.next params e).writer =
      { s.writer.onSend params e.inData with xactBusy := busy } := by
    rw [next, StreamWriter.cycle, StreamWriter.advance, hstate, if_pos hfire]
    exact ⟨_, rfl⟩
  have hlt := hsending.lt
  refine ⟨?_, h.owed_next, h.busy_lt_next, ?_, fun hdata => ?_, fun hdata => ?_, ?_⟩
  · rw [hpast, hstore, List.foldl_append, List.foldl_cons, List.foldl_nil,
      Store.write_concat hlt, hreceive.1, hsending.receive_mem, h.mem_eq, List.foldl_append]
    rfl
  · rw [hwriter]
    exact hsending.overhang_onSend e.inData
  · rw [hwriter] at hdata
    rcases Nat.lt_or_ge 8 (s.store.length - 8 * s.store.words.length) with hmore | hlast
    · rw [hwriter, hreceive.2, hstore]
      exact (hsending.more e.inData hmore).2.setBusy busy
    · have hresp := (hsending.last e.inData hlast).1
      rw [show (s.writer.onSend params e.inData).state = _ from hdata] at hresp
      cases hresp
  · rw [hwriter] at hdata
    rcases Nat.lt_or_ge 8 (s.store.length - 8 * s.store.words.length) with hmore | hlast
    · exact absurd ((hsending.more e.inData hmore).1.trans hstate) hdata
    · refine ⟨hreceive.2.trans (hsending.last e.inData hlast).2, ?_⟩
      rw [hstore, Store.Complete]
      dsimp only
      rw [List.length_append, List.length_singleton]
      omega
  · rw [hpast]
    exact h.past

theorem Inv.step (h : Inv params mem s) (hperm : Permitted params s e)
    (hstep : (machine params).step s e = some t) : Inv params mem t := by
  simp only [machine, Option.ite_none_right_eq_some, Option.some.injEq] at hstep
  obtain ⟨-, rfl⟩ := hstep
  rcases Bool.eq_false_or_eq_true (s.writer.aFire params e) with hfire | hfire
  · exact h.next_beat hfire
  by_cases hreq : s.writer.state = .s_idle → e.req = none
  · exact h.next_quiet hfire hreq
  · obtain ⟨hidle, hne⟩ := Classical.not_imp.mp hreq
    obtain ⟨r, hr⟩ := Option.ne_none_iff_exists'.mp hne
    exact h.next_request hidle hr (hperm hidle r hr)

/-- What TileLink asks of a beat: a new `Put` has a source that no other write has and an aligned
address, and the other beats repeat what the first one says. -/
structure Allowed (params : WriterParams) (s : StreamStore) (put : WritePut) : Prop where
  source_lt : s.burst = none → put.fromSource < params.nXacts
  free : s.burst = none → s.owed put.fromSource = false
  aligned : s.burst = none → put.toAddress % 2 ^ put.lgSize = 0
  size_ge : s.burst = none → 3 ≤ put.lgSize
  size_le : s.burst = none → put.lgSize ≤ params.lgMax
  continues : ∀ b, s.burst = some b → put.fromSource = b.put.fromSource ∧
    put.toAddress = b.put.toAddress ∧ put.lgSize = b.put.lgSize

theorem Inv.begins (h : Inv params mem s) (hfire : s.writer.aFire params e = true)
    (hnone : s.burst = none) :
    let put := s.writer.put params e.inData
    put.fromSource < params.nXacts ∧ s.owed put.fromSource = false ∧
      put.toAddress % 2 ^ put.lgSize = 0 ∧ 3 ≤ put.lgSize ∧ put.lgSize ≤ params.lgMax := by
  have hdata := aFire_data hfire
  have hsending := h.data hdata
  rw [hnone] at hsending
  obtain ⟨hsource, haddress, hsize⟩ := hsending.put_begins e.inData
  have hnew : s.writer.newBlock = true := by rw [h.newBlock hdata, hnone]; rfl
  obtain ⟨hlt, hfree⟩ := xactId_free hfire hnew
  have haligned := hsending.fits.aligned
  dsimp only at haligned ⊢
  rw [hsource, haddress, hsize, h.owed]
  refine ⟨hlt, hfree, ?_⟩
  split
  next => exact ⟨by omega, le_rfl, params.lgMax_ge⟩
  next hfull =>
    obtain ⟨hge, hle, hmod, -⟩ := hsending.reqSize (by omega)
    exact ⟨hmod, hge, hle⟩

theorem Inv.allowed (h : Inv params mem s) (hfire : s.writer.aFire params e = true) :
    Allowed params s (s.writer.put params e.inData) where
  source_lt hnone := (h.begins hfire hnone).1
  free hnone := (h.begins hfire hnone).2.1
  aligned hnone := (h.begins hfire hnone).2.2.1
  size_ge hnone := (h.begins hfire hnone).2.2.2.1
  size_le hnone := (h.begins hfire hnone).2.2.2.2
  continues b hb := by
    have hsending := h.data (aFire_data hfire)
    rw [hb] at hsending
    exact hsending.put_continues e.inData

/-- A request is answered when no write is under way. -/
theorem Inv.acknowledged (h : Inv params mem s) (hresp : s.writer.respValid params = true) :
    s.burst = none ∧ ∀ i, s.owed i = false := by
  simp only [StreamWriter.respValid, Bool.and_eq_true, decide_eq_true_eq, List.all_eq_true,
    List.mem_range, Bool.not_eq_true'] at hresp
  obtain ⟨hstate, hbusy⟩ := hresp
  refine ⟨(h.rest (by rw [hstate]; decide)).1, fun i => ?_⟩
  rcases Bool.eq_false_or_eq_true (s.owed i) with htrue | hfalse
  · have hi := hbusy i (h.busy_lt i htrue)
    rwa [← h.owed] at hi
  · exact hfalse

/-- In every run whose requests begin with a word: memory is what the requests write in their
order, and is otherwise unchanged; a request is answered when all its words have been taken and
all its writes are acknowledged; every beat is one that TileLink allows. -/
theorem streamWriter (writer : StreamWriter) {es : List WriteStimulus}
    (h : (machine params).Run (Permitted params) (init writer mem) es s) :
    s.mem = (s.past ++ [s.store]).foldl Store.write mem ∧
      (∀ x, (∀ st ∈ s.past ++ [s.store], x < st.address ∨ st.address + st.length ≤ x) →
        s.mem x = mem x) ∧
      (∀ st ∈ s.past, st.Complete) ∧ (s.writer.state ≠ .s_data → s.store.Complete) ∧
      (s.writer.respValid params = true → s.burst = none ∧ ∀ i, s.owed i = false) ∧
      (∀ e, s.writer.aFire params e = true → Allowed params s (s.writer.put params e.inData)) := by
  have hinv : Inv params mem s :=
    h.invariant (fun _ _ _ hinv hperm hstep => hinv.step hperm hstep) (init_inv writer mem)
  refine ⟨hinv.mem_eq, fun x hx => ?_, hinv.past, fun hdata => (hinv.rest hdata).2,
    hinv.acknowledged, fun e => hinv.allowed⟩
  rw [hinv.mem_eq]
  exact Store.foldl_write_outside _ mem hx

/-- The parameters of the writer behind the controller. -/
def dmaWriter : WriterParams where
  nXacts := 4
  lgMax := 6
  addrBits := 32
  lgMax_ge := by decide
  addr_ge := by decide

/-- Reset registers. -/
def zeroWriter : StreamWriter := ⟨.s_idle, 0, 0, 0, fun _ => false, 0, 0, 0, 0, 0⟩

/-- A cycle in which everyone is ready. -/
def ready (req : Option StreamWriteRequest) (data : Option (BitVec 64)) (d : Option ℕ) :
    WriteStimulus :=
  ⟨req, data.isSome, data.getD 0, true, d, true⟩

/-- Twenty bytes by a write of two words and one of four bytes. -/
def twentyBytes : List WriteStimulus :=
  [ready (some ⟨16, 20⟩) none none, ready none (some 0x0706050403020100) none,
    ready none (some 0x0f0e0d0c0b0a0908) none, ready none (some 0x1716151413121110) none,
    ready none none (some 1), ready none none (some 0)]

theorem twentyBytes_isSome : ((machine dmaWriter).execWhile (Permitted dmaWriter)
    (init zeroWriter fun _ => 255) twentyBytes).isSome = true := by
  decide +kernel

theorem streamWriter_twentyBytes :
    let s := ((machine dmaWriter).execWhile (Permitted dmaWriter)
      (init zeroWriter fun _ => 255) twentyBytes).get twentyBytes_isSome
    (List.range' 15 22).map s.mem = 255 :: (List.range 20).map UInt8.ofNat ++ [255] ∧
      s.writer.respValid dmaWriter = true ∧
      s.mem = (s.past ++ [s.store]).foldl Store.write fun _ => 255 := by
  refine ⟨by decide +kernel, by decide +kernel, ?_⟩
  exact (streamWriter zeroWriter
    (Machine.run_iff_execWhile.mpr (Option.some_get twentyBytes_isSome).symm)).1

end StreamStore

end Course.Gemm
