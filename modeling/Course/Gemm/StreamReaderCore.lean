import Course.Gemm.ReservationBuffer
import Course.Lib.Stretch

/-! `StreamReaderCore` clock cycle by clock cycle: a request for bytes becomes reads of aligned
powers of two, one for each free source, and their beats go to the reservation buffer. -/

open Course.Lib

namespace Course.Gemm

/-- `part` is `partial`. -/
structure StreamReadRequest where
  address : ℕ
  length : ℕ
  part : Bool
  deriving DecidableEq

structure StreamChannel where
  data : BitVec 64
  keep : BitVec 8
  last : Bool
  deriving DecidableEq

/-- The parameters of the classes and of the TileLink node, whose beats have 8 bytes. The sum of
the slots in use and those of the largest read fits into its register. -/
structure StreamParams where
  nXacts : ℕ
  outFlits : ℕ
  maxBytes : ℕ
  addrBits : ℕ
  pos : 0 < outFlits
  slots : outFlits + 2 ^ (Nat.clog 2 maxBytes - 3) < 2 ^ ReservationBuffer.countBits outFlits
  addr_ge : 15 ≤ addrBits
  addr_le : addrBits ≤ 48

/-- `log2Ceil(maxBytes)` -/
def StreamParams.lgMax (params : StreamParams) : ℕ := Nat.clog 2 params.maxBytes

/-- The addresses are words of 8 bytes, and more than the length register can count. -/
theorem StreamParams.exists_addr (params : StreamParams) :
    ∃ M, 2 ^ params.addrBits = 8 * M ∧ 2 ^ (params.addrBits - 3) = M ∧ 2 ^ 12 ≤ M ∧
      8 * M ∣ 2 ^ 48 := by
  obtain ⟨n, hn⟩ := Nat.exists_eq_add_of_le' (Nat.le_trans (by decide : 3 ≤ 15) params.addr_ge)
  have hpow : 2 ^ params.addrBits = 8 * 2 ^ n := by
    rw [hn, Nat.pow_add, Nat.mul_comm]
  refine ⟨2 ^ n, hpow, by rw [hn, Nat.add_sub_cancel], ?_, ?_⟩
  · have := params.addr_ge
    exact Nat.pow_le_pow_right Nat.two_pos (by omega)
  · rw [← hpow]
    exact Nat.pow_dvd_pow 2 params.addr_le

inductive StreamState
  | s_idle
  | s_read
  | s_resp
  deriving DecidableEq

structure StreamReaderCore where
  state : StreamState
  sendaddr : ℕ
  sendlen : ℕ
  sendpart : Bool
  xactBusy : ℕ → Bool
  xactLast : ℕ → Bool
  xactLeftKeep : ℕ → BitVec 8
  xactRightKeep : ℕ → BitVec 8
  loffset : ℕ
  roffset : ℕ
  first : Bool

/-- `tl.d`: one beat, and whether it is the first and the last one of its message. -/
structure ReadBeat where
  source : ℕ
  data : BitVec 64
  first : Bool
  last : Bool

/-- The `Get` on `tl.a`. -/
structure ReadGet where
  fromSource : ℕ
  toAddress : ℕ
  lgSize : ℕ
  deriving DecidableEq

def fullKeep : BitVec 8 := BitVec.allOnes 8

namespace StreamReaderCore

variable (params : StreamParams) (c : StreamReaderCore)

/-- The registers with an initial value have it. -/
def reset : StreamReaderCore := { c with state := .s_idle, xactBusy := fun _ => false }

/-- The first size from above at which the address is aligned and enough is left. -/
def reqSize : ℕ :=
  ((List.range (params.lgMax - 3)).map fun i => params.lgMax - i).find? (fun lgSize =>
    decide (c.sendaddr % 2 ^ lgSize = 0) && decide (c.sendlen / 2 ^ lgSize ≠ 0)) |>.getD 3

def canSend : Bool :=
  decide (c.state = .s_read) && (List.range params.nXacts).any fun i => !c.xactBusy i

/-- The first source that is free. -/
def xactId : ℕ := ((List.range params.nXacts).find? fun i => !c.xactBusy i).getD 0

/-- `tl.a.fire` and `io.alloc.fire`, which come together. -/
def sendFire (aReady allocReady : Bool) : Bool := c.canSend params && aReady && allocReady

def get : ReadGet := ⟨c.xactId params, c.sendaddr, c.reqSize params⟩

/-- `io.alloc.bits.count` -/
def allocCount : ℕ := 2 ^ (c.reqSize params - 3)

/-- `io.out.bits.data` for a beat on `tl.d`. -/
def out (d : ReadBeat) : StreamChannel where
  data := d.data
  keep :=
    if d.first ∧ d.last then c.xactLeftKeep d.source &&& c.xactRightKeep d.source
    else if d.first then c.xactLeftKeep d.source
    else if d.last then c.xactRightKeep d.source
    else fullKeep
  last := c.xactLast d.source && d.last

/-- `when(io.req.fire)` -/
def onReq (r : StreamReadRequest) : StreamReaderCore :=
  let lastaddr := (r.address + r.length) % 2 ^ 48
  let startword := r.address % 2 ^ params.addrBits / 2 ^ 3
  let endword := (lastaddr % 2 ^ params.addrBits / 2 ^ 3 +
    if lastaddr % 2 ^ 3 = 0 then 0 else 1) % 2 ^ (params.addrBits - 3)
  { c with
    loffset := r.address % 2 ^ 3
    roffset := (endword * 2 ^ 3 + 2 ^ 48 - lastaddr) % 2 ^ 48 % 2 ^ 3
    first := true
    sendaddr := startword * 2 ^ 3
    sendlen := (endword + 2 ^ (params.addrBits - 3) - startword) % 2 ^ (params.addrBits - 3) *
      2 ^ 3 % 2 ^ 15
    sendpart := r.part
    state := .s_read }

/-- `when(tl.a.fire)` -/
def onSend : StreamReaderCore :=
  let id := c.xactId params
  let reqBytes := 2 ^ c.reqSize params
  let isLast := decide (c.sendlen = reqBytes)
  { c with
    sendaddr := (c.sendaddr + reqBytes) % 2 ^ params.addrBits
    sendlen := (c.sendlen + 2 ^ 15 - reqBytes) % 2 ^ 15
    xactLast := Function.update c.xactLast id (isLast && !c.sendpart)
    xactRightKeep :=
      Function.update c.xactRightKeep id (if isLast then fullKeep >>> c.roffset else fullKeep)
    xactLeftKeep :=
      Function.update c.xactLeftKeep id (if c.first then fullKeep <<< c.loffset else fullKeep)
    first := false
    state := if isLast then .s_resp else c.state }

/-- One clock cycle, with the request, the beat and the readiness of the other sides. -/
def cycle (req : Option StreamReadRequest) (aReady allocReady respReady : Bool)
    (d : Option ReadBeat) : StreamReaderCore :=
  let sent := c.sendFire params aReady allocReady
  let next :=
    match c.state with
    | .s_idle => req.elim c (c.onReq params)
    | .s_read => if sent then c.onSend params else c
    | .s_resp => if respReady then { c with state := .s_idle } else c
  { next with
    xactBusy := fun i => (c.xactBusy i || (sent && decide (i = c.xactId params))) &&
      !d.any fun d => d.last && decide (i = d.source) }

end StreamReaderCore

namespace StreamReadRequest

variable (mem : ℕ → BitVec 64) (r : StreamReadRequest)

/-- The words the bytes are in. -/
def startword : ℕ := r.address / 8

def endword : ℕ := (r.address + r.length + 7) / 8

def words : ℕ := r.endword - r.startword

/-- What the `i`-th word is given out as. -/
def flit (i : ℕ) : StreamChannel where
  data := mem (8 * (r.startword + i))
  keep := (if i = 0 then fullKeep <<< (r.address % 8) else fullKeep) &&&
    if i + 1 = r.words then fullKeep >>> (8 * r.endword - (r.address + r.length)) else fullKeep
  last := decide (i + 1 = r.words) && !r.part

def flits : List StreamChannel := stretch (r.flit mem) 0 r.words

/-- The bytes are in the address space and their words fit into the length register. -/
structure Fits (params : StreamParams) : Prop where
  pos : 0 < r.length
  ends : r.address + r.length ≤ 2 ^ params.addrBits
  words : 8 * r.words < 2 ^ 15

instance (params : StreamParams) : Decidable (r.Fits params) :=
  decidable_of_iff (0 < r.length ∧ r.address + r.length ≤ 2 ^ params.addrBits ∧
    8 * r.words < 2 ^ 15) ⟨fun ⟨hpos, hends, hwords⟩ => ⟨hpos, hends, hwords⟩,
      fun ⟨hpos, hends, hwords⟩ => ⟨hpos, hends, hwords⟩⟩

end StreamReadRequest

variable {params : StreamParams} {mem : ℕ → BitVec 64} {c : StreamReaderCore}
  {r : StreamReadRequest} {m k : ℕ}

namespace StreamReadRequest

theorem Fits.words_pos (h : r.Fits params) : 0 < r.words := by
  have := h.pos
  simp only [StreamReadRequest.words, endword, startword]
  omega

theorem Fits.le_addr (h : r.Fits params) : 8 * (r.startword + r.words) ≤ 2 ^ params.addrBits := by
  have hends := h.ends
  have hwords := h.words_pos
  obtain ⟨M, hM, -⟩ := params.exists_addr
  rw [hM] at hends ⊢
  simp only [StreamReadRequest.words, endword, startword] at hwords ⊢
  omega

end StreamReadRequest

namespace StreamReaderCore

theorem reqSize_spec (haddr : c.sendaddr % 8 = 0) (hlen : c.sendlen % 8 = 0)
    (hpos : 0 < c.sendlen) :
    3 ≤ c.reqSize params ∧ c.reqSize params ≤ max 3 params.lgMax ∧
      c.sendaddr % 2 ^ c.reqSize params = 0 ∧ 2 ^ c.reqSize params ≤ c.sendlen := by
  rw [reqSize]
  cases hfind : ((List.range (params.lgMax - 3)).map fun i => params.lgMax - i).find? _ with
  | none => exact ⟨le_rfl, le_max_left _ _, haddr, by simp; omega⟩
  | some lg =>
    have hmem := List.mem_of_find?_eq_some hfind
    have hcond := List.find?_some hfind
    simp only [List.mem_map, List.mem_range] at hmem
    simp only [Bool.and_eq_true, decide_eq_true_eq] at hcond
    obtain ⟨i, hi, rfl⟩ := hmem
    refine ⟨?_, ?_, hcond.1, ?_⟩
    · rw [Option.getD_some]
      omega
    · rw [Option.getD_some]
      omega
    · exact Nat.le_of_not_lt fun hlt => hcond.2 (Nat.div_eq_of_lt hlt)

theorem firstFree_spec {n : ℕ} {busy : ℕ → Bool}
    (h : ((List.range n).any fun i => !busy i) = true) :
    ((List.range n).find? fun i => !busy i).getD 0 < n ∧
      busy (((List.range n).find? fun i => !busy i).getD 0) = false := by
  obtain ⟨i, hi, hfree⟩ := List.any_eq_true.mp h
  cases hfind : (List.range n).find? fun i => !busy i with
  | none => exact absurd hfree (List.find?_eq_none.mp hfind i hi)
  | some id =>
    rw [Option.getD_some]
    exact ⟨List.mem_range.mp (List.mem_of_find?_eq_some hfind), by
      simpa using List.find?_some hfind⟩

theorem xactId_spec (h : c.canSend params = true) :
    c.state = .s_read ∧ c.xactId params < params.nXacts ∧
      c.xactBusy (c.xactId params) = false := by
  rw [canSend, Bool.and_eq_true] at h
  obtain ⟨hstate, hany⟩ := h
  exact ⟨of_decide_eq_true hstate, firstFree_spec hany⟩

/-- `m` words of the request are asked for, and more are left. -/
structure Sending (params : StreamParams) (c : StreamReaderCore) (r : StreamReadRequest) (m : ℕ) :
    Prop where
  fits : r.Fits params
  lt : m < r.words
  addr : c.sendaddr = 8 * (r.startword + m)
  len : c.sendlen = 8 * (r.words - m)
  part : c.sendpart = r.part
  loffset : c.loffset = r.address % 8
  roffset : c.roffset = 8 * r.endword - (r.address + r.length)
  first : c.first = decide (m = 0)

theorem sending_onReq (h : r.Fits params) : (c.onReq params r).Sending params r 0 := by
  obtain ⟨M, haddr, hword, hM, hdvd⟩ := params.exists_addr
  have hpos := h.pos
  have hends := h.ends
  have hwords := h.words
  simp only [StreamReadRequest.words, StreamReadRequest.endword,
    StreamReadRequest.startword] at hwords
  rw [haddr] at hends
  have hlast : (r.address + r.length) % 2 ^ 48 % (8 * M) = (r.address + r.length) % (8 * M) :=
    Nat.mod_mod_of_dvd _ hdvd
  have hstart : r.address % (8 * M) = r.address := Nat.mod_eq_of_lt (by omega)
  have hend : ((r.address + r.length) % (8 * M) / 2 ^ 3 +
      if (r.address + r.length) % 2 ^ 48 % 2 ^ 3 = 0 then 0 else 1) % M =
        (r.address + r.length + 7) / 8 % M := by
    rcases Nat.lt_or_eq_of_le hends with hlt | heq
    · rw [Nat.mod_eq_of_lt hlt]
      congr 1
      split <;> omega
    · rw [heq, Nat.mod_self, if_pos (by omega)]
      rw [show (8 * M + 7) / 8 = M by omega, Nat.mod_self]
      exact Nat.zero_mod _
  constructor
  case fits => exact h
  case lt => exact h.words_pos
  case addr =>
    simp only [onReq, StreamReadRequest.startword, haddr, hstart]
    omega
  case len =>
    simp only [onReq, StreamReadRequest.words, StreamReadRequest.startword,
      StreamReadRequest.endword, haddr, hword, hstart, hlast, hend]
    have hsub : ((r.address + r.length + 7) / 8 % M + M - r.address / 2 ^ 3) % M =
        (r.address + r.length + 7) / 8 - r.address / 8 := by
      rcases Nat.lt_or_eq_of_le (show (r.address + r.length + 7) / 8 ≤ M by omega) with hlt | heq
      · rw [Nat.mod_eq_of_lt hlt, Nat.sub_add_comm (by omega), Nat.add_mod_right,
          Nat.mod_eq_of_lt (by omega)]
        rfl
      · rw [heq, Nat.mod_self, Nat.zero_add, Nat.mod_eq_of_lt (by omega)]
        rfl
    rw [hsub, Nat.mod_eq_of_lt (by omega)]
    omega
  case part => rfl
  case loffset => rfl
  case roffset =>
    simp only [onReq, StreamReadRequest.endword, haddr, hword, hlast, hend]
    generalize (r.address + r.length + 7) / 8 % M = e
    omega
  case first => rfl

/-- The words of the next read. -/
theorem Sending.allocCount (h : c.Sending params r m) :
    0 < c.allocCount params ∧ m + c.allocCount params ≤ r.words ∧
      2 ^ c.reqSize params = 8 * c.allocCount params ∧
      c.allocCount params ≤ 2 ^ (params.lgMax - 3) := by
  have hlen := h.len
  have haddr := h.addr
  have hlt := h.lt
  obtain ⟨hge, hle, -, hpow⟩ := @reqSize_spec params c (by omega) (by omega)
    (by omega)
  have hsplit : 2 ^ c.reqSize params = 8 * c.allocCount params := by
    obtain ⟨n, hn⟩ := Nat.exists_eq_add_of_le' hge
    rw [StreamReaderCore.allocCount, hn, Nat.add_sub_cancel, Nat.pow_add, Nat.mul_comm]
  refine ⟨Nat.pow_pos Nat.two_pos, ?_, hsplit, Nat.pow_le_pow_right Nat.two_pos (by omega)⟩
  omega

/-- What the source `id` has to make of the beats for the `k` words from the `m`-th on. -/
structure Carries (c : StreamReaderCore) (r : StreamReadRequest) (m k id : ℕ) : Prop where
  last : c.xactLast id = (decide (m + k = r.words) && !r.part)
  left : c.xactLeftKeep id = if m = 0 then fullKeep <<< (r.address % 8) else fullKeep
  right : c.xactRightKeep id =
    if m + k = r.words then fullKeep >>> (8 * r.endword - (r.address + r.length)) else fullKeep

theorem Carries.out {id j : ℕ} (h : c.Carries r m k id) (hj : j < k) (hk : m + k ≤ r.words) :
    c.out ⟨id, mem (8 * (r.startword + m) + 8 * j), decide (j = 0), decide (j + 1 = k)⟩ =
      r.flit mem (m + j) := by
  have hword : 8 * (r.startword + m) + 8 * j = 8 * (r.startword + (m + j)) := by omega
  have hfirst : m + j = 0 ↔ m = 0 ∧ j = 0 := by omega
  have hlast : m + j + 1 = r.words ↔ m + k = r.words ∧ j + 1 = k := by omega
  have hfull : ∀ x, fullKeep &&& x = x := fun x => BitVec.allOnes_and
  have hfull' : ∀ x, x &&& fullKeep = x := fun x => BitVec.and_allOnes
  simp only [StreamReaderCore.out, StreamReadRequest.flit, hword, hfirst, hlast, h.last, h.left,
    h.right, StreamChannel.mk.injEq, true_and]
  rcases Nat.eq_zero_or_pos j with rfl | hj0
  · rcases Nat.lt_or_eq_of_le (show 1 ≤ k by omega) with hk1 | rfl
    · simp [hk1.ne, hfull']
    · simp
  · rcases Nat.lt_or_eq_of_le (show j + 1 ≤ k by omega) with hjk | hjk
    · simp [hj0.ne', hjk.ne, hfull]
    · simp [hj0.ne', hjk, hfull]

theorem Sending.carries (h : c.Sending params r m) :
    (c.onSend params).Carries r m (c.allocCount params) (c.xactId params) := by
  have hlen := h.len
  obtain ⟨hpos, hle, hpow, -⟩ := h.allocCount
  have hlast : (c.sendlen = 2 ^ c.reqSize params) ↔ m + c.allocCount params = r.words := by
    omega
  constructor
  · simp [onSend, hlast, h.part]
  · simp [onSend, h.first, h.loffset]
  · simp [onSend, hlast, h.roffset]

/-- After a read the rest is left, or nothing. -/
theorem Sending.onSend (h : c.Sending params r m) (hstate : c.state = .s_read) :
    if m + c.allocCount params = r.words then (c.onSend params).state = .s_resp
    else (c.onSend params).state = .s_read ∧
      (c.onSend params).Sending params r (m + c.allocCount params) := by
  have hlen := h.len
  have haddr := h.addr
  have hlt := h.lt
  have hwords := h.fits.words
  have hends := h.fits.le_addr
  obtain ⟨hpos, hle, hpow, -⟩ := h.allocCount
  have hlast : (c.sendlen = 2 ^ c.reqSize params) ↔ m + c.allocCount params = r.words := by
    omega
  split
  next heq => simp [StreamReaderCore.onSend, hlast, heq]
  next hne =>
    refine ⟨by simp [StreamReaderCore.onSend, hlast, hne, hstate], h.fits, by omega, ?_, ?_, h.part,
      h.loffset, h.roffset, ?_⟩
    · change (c.sendaddr + 2 ^ c.reqSize params) % 2 ^ params.addrBits = _
      rw [Nat.mod_eq_of_lt (by omega)]
      omega
    · change (c.sendlen + 2 ^ 15 - 2 ^ c.reqSize params) % 2 ^ 15 = _
      omega
    · simp [StreamReaderCore.onSend]
      omega

variable {req : Option StreamReadRequest} {aReady allocReady respReady : Bool}
  {d : Option ReadBeat} {id : ℕ}

theorem sendFire_spec (h : c.sendFire params aReady allocReady = true) :
    c.canSend params = true ∧ aReady = true ∧ allocReady = true := by
  simpa only [sendFire, Bool.and_eq_true, and_assoc] using h

/-- A source keeps its registers until it is used again. -/
theorem keeps_cycle (req : Option StreamReadRequest) (respReady : Bool) (d : Option ReadBeat)
    (hid : c.sendFire params aReady allocReady = true → id ≠ c.xactId params) :
    (c.cycle params req aReady allocReady respReady d).xactLast id = c.xactLast id ∧
      (c.cycle params req aReady allocReady respReady d).xactLeftKeep id = c.xactLeftKeep id ∧
      (c.cycle params req aReady allocReady respReady d).xactRightKeep id = c.xactRightKeep id := by
  simp only [StreamReaderCore.cycle]
  cases hstate : c.state with
  | s_idle =>
    cases req with
    | none => exact ⟨rfl, rfl, rfl⟩
    | some r => exact ⟨rfl, rfl, rfl⟩
  | s_read =>
    cases hsent : c.sendFire params aReady allocReady with
    | true => simp [StreamReaderCore.onSend, Function.update_of_ne (hid hsent)]
    | false => simp
  | s_resp =>
    dsimp only
    split <;> exact ⟨rfl, rfl, rfl⟩

theorem Carries.cycle (h : c.Carries r m k id)
    (hid : c.sendFire params aReady allocReady = true → id ≠ c.xactId params) :
    (c.cycle params req aReady allocReady respReady d).Carries r m k id := by
  obtain ⟨hlast, hleft, hright⟩ := keeps_cycle req respReady d hid
  exact ⟨hlast.trans h.last, hleft.trans h.left, hright.trans h.right⟩

theorem cycle_of_sent (hsent : c.sendFire params aReady allocReady = true) :
    c.cycle params req aReady allocReady respReady d =
      { c.onSend params with
        xactBusy := (c.cycle params req aReady allocReady respReady d).xactBusy } := by
  have hstate := (xactId_spec (sendFire_spec hsent).1).1
  simp only [StreamReaderCore.cycle, hstate, hsent, if_true]

theorem Sending.carries_cycle (h : c.Sending params r m)
    (hsent : c.sendFire params aReady allocReady = true) :
    (c.cycle params req aReady allocReady respReady d).Carries r m (c.allocCount params)
      (c.xactId params) := by
  rw [cycle_of_sent hsent]
  exact ⟨h.carries.last, h.carries.left, h.carries.right⟩

theorem Sending.busy (h : c.Sending params r m) (busy : ℕ → Bool) :
    { c with xactBusy := busy }.Sending params r m :=
  ⟨h.fits, h.lt, h.addr, h.len, h.part, h.loffset, h.roffset, h.first⟩

end StreamReaderCore

end Course.Gemm
