import Course.Gemm.DMAReadCtl
import Course.Lib.Leads
import Course.Lib.Stretch

/-! Every word of a request reaches its place on chip once and in order, as long as its length
fits the register and it ends before the last page of the address space. -/

namespace Course.Gemm

open Lib (stretch)

namespace DMAReadReq

variable (addrWidth : ℕ) (mem : ℕ → BitVec 64) (r : DMAReadReq)

/-- The address of the `i`-th word in DRAM. -/
def addr (i : ℕ) : ℕ := r.baseAddr_DRAM + 8 * i

/-- The `i`-th word. -/
def word (i : ℕ) : BitVec 64 := mem (r.addr i)

/-- The address of the `i`-th word on chip and what the port takes of it. -/
def write (i : ℕ) : ℕ × BitVec 32 :=
  ((r.baseAddr_OnChipMem + i) % 2 ^ addrWidth, (r.word mem i).setWidth 32)

/-- What the bundle can carry, for an aligned base from which the words do not wrap. -/
structure Carried : Prop where
  len_lt : r.len < 2 ^ addrWidth
  base_lt : r.baseAddr_DRAM < 2 ^ 32
  chip_lt : r.baseAddr_OnChipMem < 2 ^ addrWidth
  aligned : r.baseAddr_DRAM % 8 = 0
  ends : r.addr r.len ≤ 2 ^ 32

/-- The length fits its register, and the last page of the address space is not reached. -/
def Fits : Prop := r.len = 0 ∨ r.len < 2 ^ 16 ∧ r.addr r.len ≤ 2 ^ 32 - 2 ^ 12

end DMAReadReq

/-- Requests of an address and a length, each from where the last one ends. -/
def Covers : ℕ → List (ℕ × ℕ) → ℕ → Prop
  | a, [], b => a = b
  | a, st :: sts, b => st.1 = a ∧ Covers (a + st.2) sts b

theorem covers_concat {a b : ℕ} {sts : List (ℕ × ℕ)} (h : Covers a sts b) (l : ℕ) :
    Covers a (sts ++ [(b, l)]) (b + l) := by
  induction sts generalizing a with
  | nil =>
    obtain rfl := h
    exact ⟨rfl, rfl⟩
  | cons st sts ih => exact ⟨h.1, ih h.2⟩

namespace DMAReader

variable {addrWidth : ℕ} {mem : ℕ → BitVec 64}

/-- What has happened of the request so far is right, and nothing is missing when the controller
is not busy. -/
structure Delivers (addrWidth : ℕ) (mem : ℕ → BitVec 64) (s : DMAReader) : Prop where
  covers : ∃ b ≤ s.req.addr s.req.len, Covers (s.req.addr 0) s.streams b
  page : ∀ st ∈ s.streams, 0 < st.2 ∧ st.1 % 2 ^ 12 + st.2 ≤ 2 ^ 12
  written : s.written <+: stretch (s.req.write addrWidth mem) 0 s.req.len
  idle : s.ctl.main_state = .main_idle →
    Covers (s.req.addr 0) s.streams (s.req.addr s.req.len) ∧
      s.written = stretch (s.req.write addrWidth mem) 0 s.req.len ∧ s.ctl.data_queue = []

/-- A block of `l` bytes from the `m`-th word: to the end of the page or of the request. -/
structure Block (r : DMAReadReq) (m l : ℕ) : Prop where
  pos : 0 < l
  whole : l % 8 = 0
  page : r.addr m % 2 ^ 12 + l ≤ 2 ^ 12
  le : r.addr m + l ≤ r.addr r.len
  ends : r.addr m + l = (r.addr m / 2 ^ 12 + 1) * 2 ^ 12 ∨ r.addr m + l = r.addr r.len

/-- Where the main state machine is when `n` words are written and `k` are read. -/
def Position (r : DMAReadReq) (n k : ℕ) (c : ReaderCtl) (pending : List ℕ)
    (streams : List (ℕ × ℕ)) : Prop :=
  match c.main_state with
  | .main_idle => n = k ∧ k = r.len ∧ pending = [] ∧ c.read_ptr = 0 ∧
      Covers (r.addr 0) streams (r.addr r.len)
  | .pre_process => n = k ∧ pending = [] ∧ c.read_ptr = 0 ∧
      Covers (r.addr 0) streams (r.addr k) ∧
      (c.v_addr_ptr = r.addr k ∨ k = r.len ∧ r.addr k ≤ c.v_addr_ptr)
  | .query_TLB => n = k ∧ pending = [] ∧ c.read_ptr = 0 ∧
      Covers (r.addr 0) streams (r.addr k) ∧ c.v_addr_ptr = r.addr k ∧ Block r k c.cur_block_len
  | .dma_request => n = k ∧ pending = [] ∧ c.read_ptr = 0 ∧
      Covers (r.addr 0) streams (r.addr k) ∧ c.v_addr_ptr = r.addr k ∧
      Block r k c.cur_block_len ∧ c.p_page_id = c.v_addr_ptr / 2 ^ 12
  | .dma_reading => ∃ m, k = m + c.read_ptr ∧ c.v_addr_ptr = r.addr m ∧
      Block r m c.cur_block_len ∧ c.read_ptr ≤ c.cur_64b_len ∧
      pending = stretch r.addr k (m + c.cur_64b_len) ∧
      Covers (r.addr 0) streams (r.addr (m + c.cur_64b_len))
  | .dma_finish => ∃ m, k = m + c.cur_64b_len ∧ c.v_addr_ptr = r.addr m ∧
      Block r m c.cur_block_len ∧ pending = [] ∧ Covers (r.addr 0) streams (r.addr k)

/-- `n` words are written and `k` words read. -/
structure Moves (addrWidth : ℕ) (mem : ℕ → BitVec 64) (n k : ℕ) (s : DMAReader) : Prop where
  carried : s.req.Carried addrWidth
  fits : s.req.Fits
  len : s.ctl.len_64b = s.req.len
  base : s.ctl.baseAddr_DRAM = s.req.baseAddr_DRAM
  chip : s.ctl.baseAddr_OnChipMem = s.req.baseAddr_OnChipMem
  le : n ≤ k
  le_len : k ≤ s.req.len
  queue : s.ctl.data_queue = stretch (s.req.word mem) n k
  written : s.written = stretch (s.req.write addrWidth mem) 0 n
  ptr : s.ctl.main_state ≠ .main_idle → s.ctl.write_array_addr_ptr = n
  page : ∀ st ∈ s.streams, 0 < st.2 ∧ st.1 % 2 ^ 12 + st.2 ≤ 2 ^ 12
  position : Position s.req n k s.ctl s.pending s.streams

variable {n k : ℕ} {s : DMAReader} {e : ReaderStimulus}

theorem Block.words {r : DMAReadReq} {m l : ℕ} (h : Block r m l) :
    m + l / 2 ^ 3 ≤ r.len ∧ r.addr (m + l / 2 ^ 3) = r.addr m + l := by
  have hle := h.le
  have hwhole := h.whole
  simp only [DMAReadReq.addr] at hle ⊢
  omega

theorem Moves.delivers (h : Moves addrWidth mem n k s) : Delivers addrWidth mem s where
  covers := by
    have hmono : ∀ {i}, i ≤ s.req.len → s.req.addr i ≤ s.req.addr s.req.len :=
      fun hi => Nat.add_le_add_left (Nat.mul_le_mul_left 8 hi) _
    have hpos := h.position
    have hle := h.le_len
    cases hmain : s.ctl.main_state <;> simp only [Position, hmain] at hpos
    case main_idle => exact ⟨_, le_rfl, hpos.2.2.2.2⟩
    case dma_reading =>
      obtain ⟨m, -, -, hblock, -, -, hcovers⟩ := hpos
      exact ⟨_, hmono hblock.words.1, hcovers⟩
    case dma_finish =>
      obtain ⟨m, -, -, -, -, hcovers⟩ := hpos
      exact ⟨_, hmono hle, hcovers⟩
    all_goals exact ⟨_, hmono hle, hpos.2.2.2.1⟩
  page := h.page
  written := by
    rw [h.written]
    exact Lib.stretch_prefix (Nat.zero_le _) (h.le.trans h.le_len)
  idle := by
    intro hidle
    have hpos := h.position
    simp only [Position, hidle] at hpos
    obtain ⟨rfl, hk, -, -, hcovers⟩ := hpos
    refine ⟨hcovers, ?_, by rw [h.queue, Lib.stretch_self]⟩
    rw [h.written, hk]

theorem moves_start : Moves addrWidth mem 0 0 {} where
  carried := ⟨Nat.two_pow_pos _, by decide, Nat.two_pow_pos _, rfl, by decide⟩
  fits := .inl rfl
  len := rfl
  base := rfl
  chip := rfl
  le := le_rfl
  le_len := le_rfl
  queue := rfl
  written := rfl
  ptr h := absurd rfl h
  page st hst := nomatch hst
  position := ⟨rfl, rfl, rfl, rfl, rfl⟩

/-! ### One cycle without a new request -/

theorem dmaOutFire_of_ne {c : ReaderCtl} {p : ReaderPorts} (h : c.main_state ≠ .dma_reading) :
    c.dmaOutFire p = none := by
  simp [ReaderCtl.dmaOutFire, ReaderCtl.dmaOutReady, h]

theorem dmaReqFire_of_ne {c : ReaderCtl} {p : ReaderPorts} (h : c.main_state ≠ .dma_request) :
    c.dmaReqFire p = false := by
  simp [ReaderCtl.dmaReqFire, h]

theorem accessFire_of_nil {c : ReaderCtl} {p : ReaderPorts} (h : c.data_queue = []) :
    c.accessFire p = none := by
  simp [ReaderCtl.accessFire, h]

/-- The registers of the request only change when a new one is accepted. -/
theorem reader_request (addrWidth : ℕ) {c : ReaderCtl} {p : ReaderPorts}
    (h : c.main_state = .main_idle → p.req = none) :
    (c.main addrWidth p).len_64b = c.len_64b ∧
      (c.main addrWidth p).baseAddr_DRAM = c.baseAddr_DRAM ∧
      (c.main addrWidth p).baseAddr_OnChipMem = c.baseAddr_OnChipMem ∧
      (c.main_state ≠ .main_idle →
        (c.main addrWidth p).write_array_addr_ptr = c.write_array_addr_ptr) := by
  cases hmain : c.main_state <;> simp only [ReaderCtl.main, hmain]
  case main_idle =>
    rw [h hmain]
    simp
  case query_TLB => simp
  case dma_reading => simp
  all_goals split_ifs <;> simp

/-- The words that the on-chip memory takes in a cycle. -/
def taken (mem : ℕ → BitVec 64) (s : DMAReader) (e : ReaderStimulus) : ℕ :=
  (s.ctl.accessFire (s.ports mem e)).isSome.toNat

/-- The words that the stream reader returns in a cycle. -/
def returned (mem : ℕ → BitVec 64) (s : DMAReader) (e : ReaderStimulus) : ℕ :=
  (s.ctl.dmaOutFire (s.ports mem e)).isSome.toNat

/-- The next word of the queue is written at its place, or none is. -/
theorem Moves.access (h : Moves addrWidth mem n k s) :
    n + taken mem s e ≤ k ∧
      (if (s.ctl.accessFire (s.ports mem e)).isSome then s.ctl.data_queue.tail
        else s.ctl.data_queue) = stretch (s.req.word mem) (n + taken mem s e) k ∧
      s.nextWrites addrWidth mem e =
        stretch (s.req.write addrWidth mem) n (n + taken mem s e) := by
  rw [nextWrites, taken]
  cases hfire : s.ctl.accessFire (s.ports mem e) with
  | none => exact ⟨h.le, h.queue, by simp⟩
  | some w =>
    have hne : s.ctl.data_queue ≠ [] := fun hnil => by
      rw [accessFire_of_nil hnil] at hfire
      cases hfire
    have hlt : n < k := by
      rw [h.queue, ← List.length_pos_iff, Lib.length_stretch] at hne
      omega
    have hqueue := h.queue.trans (Lib.stretch_cons hlt)
    have hw : w = s.req.word mem n := by
      rw [ReaderCtl.accessFire, hqueue] at hfire
      split_ifs at hfire
      exact (Option.some.inj hfire).symm
    have hbusy : s.ctl.main_state ≠ .main_idle := fun hidle => by
      have hpos := h.position
      simp only [Position, hidle] at hpos
      omega
    refine ⟨hlt, by simp [hqueue], ?_⟩
    rw [hw, Option.isSome_some, Bool.toNat_true, Lib.stretch_succ le_rfl, Lib.stretch_self]
    simp [ReaderCtl.accessAddr, h.chip, h.ptr hbusy, DMAReadReq.write]

/-- What the main state machine does in a cycle without a new request. -/
structure ReadStep (addrWidth : ℕ) (mem : ℕ → BitVec 64) (n k : ℕ) (s : DMAReader)
    (e : ReaderStimulus) : Prop where
  le_len : k + returned mem s e ≤ s.req.len
  enq : (s.ctl.dmaOutFire (s.ports mem e)).toList =
    stretch (s.req.word mem) k (k + returned mem s e)
  page : ∀ st ∈ s.nextStreams mem e, 0 < st.2 ∧ st.1 % 2 ^ 12 + st.2 ≤ 2 ^ 12
  position : Position s.req (n + taken mem s e) (k + returned mem s e)
    (s.ctl.main addrWidth (s.ports mem e)) (s.nextPending mem e)
    (s.streams ++ s.nextStreams mem e)

/-- No word is taken from an empty queue. -/
theorem Moves.taken_eq (h : Moves addrWidth mem n k s) (hnk : n = k) : taken mem s e = 0 := by
  have hnil : s.ctl.data_queue = [] := by rw [h.queue, hnk, Lib.stretch_self]
  rw [taken, accessFire_of_nil hnil]
  rfl

theorem returned_eq (h : s.ctl.main_state ≠ .dma_reading) : returned mem s e = 0 := by
  rw [returned, dmaOutFire_of_ne h]
  rfl

theorem nextPending_eq (h : s.ctl.main_state ≠ .dma_reading)
    (h' : s.ctl.main_state ≠ .dma_request) : s.nextPending mem e = s.pending := by
  simp [nextPending, dmaOutFire_of_ne h, dmaReqFire_of_ne h']

theorem nextStreams_eq (h : s.ctl.main_state ≠ .dma_request) : s.nextStreams mem e = [] := by
  simp [nextStreams, dmaReqFire_of_ne h]

theorem wordsOf_eq {r : DMAReadReq} {l : ℕ} :
    wordsOf (r.addr k) l = stretch r.addr k (k + l / 8) := by
  rw [wordsOf, stretch, Nat.add_sub_cancel_left, List.range'_eq_map_range, List.map_map]
  refine List.map_congr_left fun i _ => ?_
  simp only [DMAReadReq.addr, Function.comp_apply]
  omega

theorem Moves.final_v_addr (h : Moves addrWidth mem n k s) :
    s.ctl.final_v_addr = s.req.addr s.req.len := by
  have hbase := h.carried.base_lt
  have hfits := h.fits
  rw [ReaderCtl.final_v_addr, ReaderCtl.total_nbytes, h.len, h.base]
  simp only [DMAReadReq.Fits, DMAReadReq.addr] at hfits ⊢
  omega

/-- Before the end of the request the next page begins at a 32-bit address. -/
theorem Moves.next_page_begin_addr (h : Moves addrWidth mem n k s) {m : ℕ} (hm : m < s.req.len)
    (hv : s.ctl.v_addr_ptr = s.req.addr m) :
    s.ctl.next_page_begin_addr = (s.req.addr m / 2 ^ 12 + 1) * 2 ^ 12 ∧
      (s.req.addr m / 2 ^ 12 + 1) * 2 ^ 12 < 2 ^ 32 := by
  have hfits := h.fits
  rw [ReaderCtl.next_page_begin_addr, hv]
  simp only [DMAReadReq.Fits, DMAReadReq.addr] at hfits ⊢
  omega

/-- The block that `pre_process` computes. -/
theorem Moves.block (h : Moves addrWidth mem n k s) (hv : s.ctl.v_addr_ptr = s.req.addr k)
    (hk : k < s.req.len) :
    Block s.req k ((if s.ctl.next_page_begin_addr < s.ctl.final_v_addr then
      (s.ctl.next_page_begin_addr + 2 ^ 32 - s.ctl.v_addr_ptr) % 2 ^ 32
    else (s.ctl.final_v_addr + 2 ^ 32 - s.ctl.v_addr_ptr) % 2 ^ 32) % 2 ^ 13) := by
  obtain ⟨hnext, hnext'⟩ := h.next_page_begin_addr hk hv
  have haligned := h.carried.aligned
  have hends := h.carried.ends
  have hlt : s.req.addr k < s.req.addr s.req.len := by
    simp only [DMAReadReq.addr]
    omega
  have hmod : s.req.addr k % 8 = 0 ∧ s.req.addr s.req.len % 8 = 0 := by
    simp only [DMAReadReq.addr]
    omega
  have hvalue : (if s.ctl.next_page_begin_addr < s.ctl.final_v_addr then
      (s.ctl.next_page_begin_addr + 2 ^ 32 - s.ctl.v_addr_ptr) % 2 ^ 32
    else (s.ctl.final_v_addr + 2 ^ 32 - s.ctl.v_addr_ptr) % 2 ^ 32) % 2 ^ 13 =
      min ((s.req.addr k / 2 ^ 12 + 1) * 2 ^ 12) (s.req.addr s.req.len) - s.req.addr k := by
    rw [h.final_v_addr, hnext, hv]
    split_ifs <;> omega
  rw [hvalue]
  constructor <;> omega

/-- A state in which the stream reader is left alone. -/
theorem Moves.read_step_of_ne (h : Moves addrWidth mem n k s)
    (hreading : s.ctl.main_state ≠ .dma_reading) (hrequest : s.ctl.main_state ≠ .dma_request)
    (hpos : Position s.req (n + taken mem s e) k (s.ctl.main addrWidth (s.ports mem e)) s.pending
      s.streams) : ReadStep addrWidth mem n k s e := by
  refine ⟨?_, ?_, ?_, ?_⟩
  · rw [returned_eq hreading]
    exact h.le_len
  · rw [returned_eq hreading, dmaOutFire_of_ne hreading]
    simp
  · rw [nextStreams_eq hrequest]
    simp
  · rwa [returned_eq hreading, nextPending_eq hreading hrequest, nextStreams_eq hrequest,
      List.append_nil, Nat.add_zero]

theorem Moves.read_step_pre_process (h : Moves addrWidth mem n k s)
    (hmain : s.ctl.main_state = .pre_process) : ReadStep addrWidth mem n k s e := by
  have hpos := h.position
  simp only [Position, hmain] at hpos
  obtain ⟨hnk, hpending, hptr, hcovers, hv⟩ := hpos
  have hreading : s.ctl.main_state ≠ .dma_reading := by simp [hmain]
  have hrequest : s.ctl.main_state ≠ .dma_request := by simp [hmain]
  have hfinal := h.final_v_addr
  have hle := h.le_len
  refine h.read_step_of_ne hreading hrequest ?_
  rw [h.taken_eq hnk, Nat.add_zero]
  by_cases hlt : s.ctl.v_addr_ptr < s.ctl.final_v_addr
  · have hv' : s.ctl.v_addr_ptr = s.req.addr k := by
      refine hv.resolve_right fun ⟨hk, hge⟩ => ?_
      rw [hk] at hge
      omega
    have hk : k < s.req.len := by
      simp only [DMAReadReq.addr] at hfinal hv'
      omega
    simp only [ReaderCtl.main, hmain, if_pos hlt, Position]
    exact ⟨hnk, hpending, hptr, hcovers, hv', h.block hv' hk⟩
  · have hk : k = s.req.len := by
      rcases hv with hv | ⟨hk, -⟩
      · simp only [DMAReadReq.addr] at hfinal hv
        omega
      · exact hk
    simp only [ReaderCtl.main, hmain, if_neg hlt, Position]
    exact ⟨hnk, hk, hpending, hptr, hk ▸ hcovers⟩

theorem Moves.read_step_query_TLB (h : Moves addrWidth mem n k s)
    (hmain : s.ctl.main_state = .query_TLB) : ReadStep addrWidth mem n k s e := by
  have hpos := h.position
  simp only [Position, hmain] at hpos
  obtain ⟨hnk, hpending, hptr, hcovers, hv, hblock⟩ := hpos
  have hreading : s.ctl.main_state ≠ .dma_reading := by simp [hmain]
  have hrequest : s.ctl.main_state ≠ .dma_request := by simp [hmain]
  refine h.read_step_of_ne hreading hrequest ?_
  rw [h.taken_eq hnk, Nat.add_zero]
  simp only [ReaderCtl.main, hmain, Position]
  exact ⟨hnk, hpending, hptr, hcovers, hv, hblock, trivial⟩

theorem Moves.read_step_dma_request (h : Moves addrWidth mem n k s)
    (hmain : s.ctl.main_state = .dma_request) : ReadStep addrWidth mem n k s e := by
  have hpos := h.position
  simp only [Position, hmain] at hpos
  obtain ⟨hnk, hpending, hptr, hcovers, hv, hblock, hpage⟩ := hpos
  have hreading : s.ctl.main_state ≠ .dma_reading := by simp [hmain]
  have haddr : s.ctl.p_baseAddr_to_dma = s.req.addr k := by
    have hends := h.carried.ends
    have hle := hblock.le
    rw [ReaderCtl.p_baseAddr_to_dma, hpage, hv]
    omega
  refine ⟨?_, ?_, ?_, ?_⟩
  · rw [returned_eq hreading]
    exact h.le_len
  · rw [returned_eq hreading, dmaOutFire_of_ne hreading]
    simp
  · intro st hst
    rw [nextStreams] at hst
    split_ifs at hst
    · obtain rfl := List.mem_singleton.mp hst
      rw [haddr]
      exact ⟨hblock.pos, hblock.page⟩
    · cases hst
  rw [h.taken_eq hnk, returned_eq hreading, Nat.add_zero, Nat.add_zero, nextPending, nextStreams,
    dmaOutFire_of_ne hreading, haddr]
  cases hfire : s.ctl.dmaReqFire (s.ports mem e)
  · simp only [ReaderCtl.main, hmain, hfire, Bool.false_eq_true, if_false, Position]
    simpa [hmain] using ⟨hnk, hpending, hptr, hcovers, hv, hblock, hpage⟩
  · simp only [ReaderCtl.main, hmain, hfire, if_true, Position]
    refine ⟨k, by omega, hv, hblock, by omega, ?_, ?_⟩
    · rw [wordsOf_eq, hpending]
      rfl
    · have hnext := covers_concat hcovers s.ctl.cur_block_len
      rwa [← hblock.words.2] at hnext

theorem Moves.read_step_dma_finish (h : Moves addrWidth mem n k s)
    (hmain : s.ctl.main_state = .dma_finish) : ReadStep addrWidth mem n k s e := by
  have hpos := h.position
  simp only [Position, hmain] at hpos
  obtain ⟨m, hk, hv, hblock, hpending, hcovers⟩ := hpos
  have hreading : s.ctl.main_state ≠ .dma_reading := by simp [hmain]
  have hrequest : s.ctl.main_state ≠ .dma_request := by simp [hmain]
  refine h.read_step_of_ne hreading hrequest ?_
  by_cases hnil : s.ctl.data_queue = []
  · have hnk : n = k := by
      have hlen := congrArg List.length (h.queue.symm.trans hnil)
      rw [Lib.length_stretch, List.length_nil] at hlen
      have hle := h.le
      omega
    have hm : m < s.req.len := by
      have hpos := hblock.pos
      have hle := hblock.le
      simp only [DMAReadReq.addr] at hle
      omega
    have hwords := hblock.words.2
    have hends := hblock.ends
    have hpage := hblock.page
    have hnext := (h.next_page_begin_addr hm hv).1
    rw [ReaderCtl.cur_64b_len] at hk
    rw [h.taken_eq hnk]
    simp only [ReaderCtl.main, hmain, if_pos hnil, Position]
    refine ⟨hnk, hpending, trivial, hcovers, ?_⟩
    rw [hnext, hk, hwords]
    rcases hends with hends | hends
    · exact .inl hends.symm
    · refine .inr ⟨?_, by omega⟩
      simp only [DMAReadReq.addr] at hends hwords
      omega
  · simp only [ReaderCtl.main, hmain, if_neg hnil, Position]
    exact ⟨m, hk, hv, hblock, hpending, hcovers⟩

/-- What the stream reader returns is the next word. -/
theorem dmaOutFire_some {w : BitVec 64} {l : ℕ} (hfire : s.ctl.dmaOutFire (s.ports mem e) = some w)
    (hpending : s.pending = stretch s.req.addr k l)
    (hk : s.ctl.read_ptr < s.ctl.cur_64b_len → k < l) :
    s.ctl.read_ptr < s.ctl.cur_64b_len ∧ w = s.req.word mem k ∧
      s.pending = s.req.addr k :: stretch s.req.addr (k + 1) l := by
  obtain ⟨hlt, hout⟩ : s.ctl.read_ptr < s.ctl.cur_64b_len ∧
      (s.ports mem e).dmaOut = some w := by
    simp only [ReaderCtl.dmaOutFire, ReaderCtl.dmaOutReady, Option.ite_none_right_eq_some,
      Bool.and_eq_true, decide_eq_true_eq] at hfire
    exact ⟨hfire.1.1.2, hfire.2⟩
  have hcons := hpending.trans (Lib.stretch_cons (hk hlt))
  simp only [ports, hcons, Option.ite_none_right_eq_some] at hout
  exact ⟨hlt, (Option.some.inj hout.2).symm, hcons⟩

theorem Moves.read_step_dma_reading (h : Moves addrWidth mem n k s)
    (hmain : s.ctl.main_state = .dma_reading) : ReadStep addrWidth mem n k s e := by
  have hpos := h.position
  simp only [Position, hmain] at hpos
  obtain ⟨m, hk, hv, hblock, hptr, hpending, hcovers⟩ := hpos
  have hrequest : s.ctl.main_state ≠ .dma_request := by simp [hmain]
  have hstreams : s.nextStreams mem e = [] := nextStreams_eq hrequest
  have hreq : s.ctl.dmaReqFire (s.ports mem e) = false := dmaReqFire_of_ne hrequest
  have hlast : m + s.ctl.cur_64b_len ≤ s.req.len := hblock.words.1
  have hsmall : s.ctl.cur_64b_len < 2 ^ 12 := by
    have hpage := hblock.page
    rw [ReaderCtl.cur_64b_len]
    omega
  have hnone : ∀ st ∈ s.nextStreams mem e, 0 < st.2 ∧ st.1 % 2 ^ 12 + st.2 ≤ 2 ^ 12 := by
    rw [hstreams]
    exact fun st hst => nomatch hst
  cases hfire : s.ctl.dmaOutFire (s.ports mem e) with
  | none =>
    have hret : returned mem s e = 0 := by
      rw [returned, hfire]
      rfl
    refine ⟨?_, ?_, hnone, ?_⟩
    · rw [hret]
      exact h.le_len
    · rw [hret, hfire, Nat.add_zero, Lib.stretch_self]
      rfl
    have hsame : s.nextPending mem e = s.pending := by
      simp [nextPending, hfire, hreq]
    rw [hret, hsame, hstreams, List.append_nil, Nat.add_zero]
    by_cases hdone : s.ctl.read_ptr = s.ctl.cur_64b_len
    · simp only [ReaderCtl.main, hmain, hfire, hdone, if_true, Position]
      rw [hdone] at hk
      refine ⟨m, hk, hv, hblock, ?_, ?_⟩
      · rw [hpending, hk, Lib.stretch_self]
      · rwa [hk]
    · simp only [ReaderCtl.main, hmain, hfire, if_neg hdone, Position]
      exact ⟨m, hk, hv, hblock, hptr, hpending, hcovers⟩
  | some w =>
    have hret : returned mem s e = 1 := by
      rw [returned, hfire]
      rfl
    obtain ⟨hlt, hw, hcons⟩ := dmaOutFire_some hfire hpending (fun hlt => by omega)
    refine ⟨?_, ?_, hnone, ?_⟩
    · rw [hret]
      omega
    · rw [hret, hfire, hw, Lib.stretch_succ le_rfl, Lib.stretch_self]
      rfl
    have htail : s.nextPending mem e = stretch s.req.addr (k + 1) (m + s.ctl.cur_64b_len) := by
      simp [nextPending, hfire, hreq, hcons]
    rw [hret, htail, hstreams, List.append_nil]
    simp only [ReaderCtl.main, hmain, hfire, if_neg hlt.ne, Position]
    have hnext : (s.ctl.read_ptr + 1) % 2 ^ 12 = s.ctl.read_ptr + 1 :=
      Nat.mod_eq_of_lt (by omega)
    rw [Option.isSome_some, if_pos rfl, hnext]
    exact ⟨m, by omega, hv, hblock, hlt, rfl, hcovers⟩

theorem Moves.read_step (h : Moves addrWidth mem n k s)
    (hreq : s.ctl.main_state = .main_idle → e.req = none) :
    ReadStep addrWidth mem n k s e := by
  cases hmain : s.ctl.main_state with
  | main_idle =>
    have hpos := h.position
    simp only [Position, hmain] at hpos
    obtain ⟨hnk, hk, hpending, hptr, hcovers⟩ := hpos
    have hreading : s.ctl.main_state ≠ .dma_reading := by simp [hmain]
    have hrequest : s.ctl.main_state ≠ .dma_request := by simp [hmain]
    have hnone : (s.ports mem e).req = none := hreq hmain
    refine h.read_step_of_ne hreading hrequest ?_
    rw [h.taken_eq hnk, Nat.add_zero]
    simp only [ReaderCtl.main, hmain, hnone, Position]
    exact ⟨hnk, hk, hpending, hptr, hcovers⟩
  | pre_process => exact h.read_step_pre_process hmain
  | query_TLB => exact h.read_step_query_TLB hmain
  | dma_request => exact h.read_step_dma_request hmain
  | dma_reading => exact h.read_step_dma_reading hmain
  | dma_finish => exact h.read_step_dma_finish hmain

/-! ### Runs -/

theorem Moves.cycle (h : Moves addrWidth mem n k s)
    (hreq : s.ctl.main_state = .main_idle → e.req = none) :
    Moves addrWidth mem (n + taken mem s e) (k + returned mem s e)
      (s.cycle addrWidth mem e) := by
  have hstep := h.read_step hreq
  obtain ⟨hle, hqueue, hwrites⟩ := h.access (e := e)
  obtain ⟨hlen, hbase, hchip, hptr⟩ :=
    reader_request addrWidth (c := s.ctl) (p := s.ports mem e) hreq
  have hfresh : (if s.ctl.main_state = .main_idle then e.req else none) = none := by
    split_ifs with hidle
    · exact hreq hidle
    · rfl
  have hcycle : s.cycle addrWidth mem e =
      { ctl := s.ctl.cycle addrWidth (s.ports mem e)
        pending := s.nextPending mem e
        req := s.req
        streams := s.streams ++ s.nextStreams mem e
        written := s.written ++ s.nextWrites addrWidth mem e } := by
    simp [DMAReader.cycle, hfresh]
  rw [hcycle]
  refine ⟨h.carried, h.fits, hlen.trans h.len, hbase.trans h.base, hchip.trans h.chip,
    hle.trans (Nat.le_add_right ..), hstep.le_len, ?_, ?_, fun hbusy => ?_, fun st hst => ?_,
    hstep.position⟩
  · have hmore := Nat.le_add_right k (returned mem s e)
    have hsplit := Lib.stretch_append (f := s.req.word mem) hle hmore
    rw [← hsplit, ← hqueue, ← hstep.enq]
    rfl
  · rw [h.written, hwrites]
    exact Lib.stretch_append (Nat.zero_le n) (Nat.le_add_right ..)
  · have hidle : s.ctl.main_state ≠ .main_idle := fun hidle => by
      have hnone : (s.ports mem e).req = none := hreq hidle
      have hstay : (s.ctl.main addrWidth (s.ports mem e)).main_state = .main_idle := by
        simp only [ReaderCtl.main, hidle, hnone]
      exact hbusy hstay
    have hn := h.ptr hidle
    have hfits := h.fits
    have hlast := h.le_len
    have hmod : n + taken mem s e < 2 ^ 16 := by
      simp only [DMAReadReq.Fits] at hfits
      omega
    simp only [ReaderCtl.cycle, hptr hidle, hn]
    rw [taken] at hmod ⊢
    cases hfire : (s.ctl.accessFire (s.ports mem e)).isSome
    · rfl
    · rw [hfire, Bool.toNat_true] at hmod
      exact Nat.mod_eq_of_lt hmod
  · rcases List.mem_append.mp hst with hst | hst
    · exact h.page st hst
    · exact hstep.page st hst

/-- A new request is accepted when nothing of the last one is left. -/
theorem Moves.accept (h : Moves addrWidth mem n k s) {r : DMAReadReq} (hreq : e.req = some r)
    (hidle : s.ctl.main_state = .main_idle) (hr : r.Carried addrWidth) (hfits : r.Fits) :
    Moves addrWidth mem 0 0 (s.cycle addrWidth mem e) := by
  have hpos := h.position
  simp only [Position, hidle] at hpos
  obtain ⟨hnk, hk, hpending, hptr, hcovers⟩ := hpos
  have hqueue : s.ctl.data_queue = [] := by rw [h.queue, hnk, Lib.stretch_self]
  have hreading : s.ctl.main_state ≠ .dma_reading := by simp [hidle]
  have hrequest : s.ctl.main_state ≠ .dma_request := by simp [hidle]
  have hports : (s.ports mem e).req = some r := hreq
  have hsmall : r.len < 2 ^ 16 := by
    simp only [DMAReadReq.Fits] at hfits
    omega
  have hcycle : s.cycle addrWidth mem e =
      { ctl := { s.ctl with
          len_64b := r.len
          baseAddr_DRAM := r.baseAddr_DRAM
          baseAddr_OnChipMem := r.baseAddr_OnChipMem
          v_addr_ptr := r.baseAddr_DRAM
          write_array_addr_ptr := 0
          main_state := .pre_process
          deq_queue_state := .deq_idle }
        req := r } := by
    simp only [DMAReader.cycle, ReaderCtl.cycle, ReaderCtl.main, nextWrites, hidle, hreq, hports,
      accessFire_of_nil hqueue, dmaOutFire_of_ne hreading, nextStreams_eq hrequest,
      nextPending_eq hreading hrequest, hqueue, hpending, Nat.mod_eq_of_lt hsmall,
      Nat.mod_eq_of_lt hr.base_lt, Nat.mod_eq_of_lt hr.chip_lt]
    simp
  rw [hcycle]
  refine ⟨hr, hfits, rfl, rfl, rfl, le_rfl, Nat.zero_le _, hqueue, rfl, fun _ => rfl,
    (fun st hst => nomatch hst), ?_⟩
  exact ⟨rfl, rfl, hptr, rfl, .inl rfl⟩

/-- The requests accepted can be carried and fit. -/
def Permitted (addrWidth : ℕ) (s : DMAReader) (e : ReaderStimulus) : Prop :=
  s.ctl.main_state = .main_idle → ∀ r, e.req = some r → r.Carried addrWidth ∧ r.Fits

theorem moves_run {s t : DMAReader} {es : List ReaderStimulus} (h : Moves addrWidth mem n k s)
    (hrun : (machine addrWidth mem).Run (Permitted addrWidth) s es t) :
    ∃ n k, Moves addrWidth mem n k t := by
  refine hrun.invariant (I := fun s => ∃ n k, Moves addrWidth mem n k s) ?_ ⟨n, k, h⟩
  rintro s e t ⟨n, k, h⟩ he hstep
  obtain rfl := Option.some.inj hstep
  by_cases hidle : s.ctl.main_state = .main_idle
  · cases hreq : e.req with
    | none => exact ⟨_, _, h.cycle fun _ => hreq⟩
    | some r => exact ⟨0, 0, h.accept hreq hidle (he hidle r hreq).1 (he hidle r hreq).2⟩
  · exact ⟨_, _, h.cycle fun h => absurd h hidle⟩

/-! ### The end of a request -/

/-- What the controller may wait for. -/
inductive Awaited
  | dmaReq
  | dmaOut
  | access
  deriving DecidableEq

def Awaited.signal : Awaited → ReaderStimulus → Prop
  | dmaReq, e => e.dmaReqReady = true
  | dmaOut, e => e.dmaOutValid = true
  | access, e => e.accessReady = true

def awaits (s : DMAReader) : Awaited :=
  if s.ctl.main_state = .dma_request then .dmaReq
  else if s.ctl.data_queue = [] then .dmaOut
  else .access

/-- How far the main state machine is from its end. -/
def rank (s : DMAReader) : ℕ :=
  let left := s.req.addr s.req.len - s.ctl.v_addr_ptr
  match s.ctl.main_state with
  | .main_idle => 0
  | .pre_process => left + 1
  | .query_TLB => left
  | .dma_request => left - 1
  | .dma_reading => left - 2
  | .dma_finish => left - 3

/-- One while `deq_queue_state` has still to follow the queue. -/
def unsettled (s : DMAReader) : ℕ :=
  if s.ctl.data_queue = [] ↔ s.ctl.deq_queue_state = .write_array then 1 else 0

def work (s : DMAReader) : ℕ :=
  rank s + 2 * (s.req.len - (s.written.length + s.ctl.data_queue.length)) +
    2 * (s.req.len - s.written.length) + unsettled s

theorem unsettled_le : unsettled s ≤ 1 := by
  rw [unsettled]
  split_ifs <;> omega

theorem unsettled_cycle (hsame : (s.cycle addrWidth mem e).ctl.data_queue = s.ctl.data_queue) :
    unsettled (s.cycle addrWidth mem e) = 0 := by
  rw [unsettled, hsame]
  by_cases hnil : s.ctl.data_queue = [] <;> simp [DMAReader.cycle, ReaderCtl.cycle, hnil]

theorem Moves.work_eq (h : Moves addrWidth mem n k s) :
    work s = rank s + 2 * (s.req.len - k) + 2 * (s.req.len - n) + unsettled s := by
  have hle := h.le
  rw [work, h.written, h.queue, Lib.length_stretch, Lib.length_stretch, Nat.sub_zero,
    Nat.add_sub_cancel' hle]

/-- A state in which the main state machine may stay. -/
def Waits (s : DMAReader) (e : ReaderStimulus) : Prop :=
  s.ctl.main_state = .dma_request ∧ e.dmaReqReady = false ∨
    s.ctl.main_state = .dma_reading ∧ s.ctl.read_ptr ≠ s.ctl.cur_64b_len ∨
    s.ctl.main_state = .dma_finish ∧ s.ctl.data_queue ≠ []

theorem Moves.rank_cycle (h : Moves addrWidth mem n k s) (hbusy : s.ctl.main_state ≠ .main_idle) :
    rank (s.cycle addrWidth mem e) < rank s ∨
      rank (s.cycle addrWidth mem e) = rank s ∧
        (s.cycle addrWidth mem e).ctl.main_state = s.ctl.main_state ∧ Waits s e := by
  have hpos := h.position
  have hreq : (s.cycle addrWidth mem e).req = s.req := by simp [DMAReader.cycle, hbusy]
  have hstate : (s.cycle addrWidth mem e).ctl.main_state =
      (s.ctl.main addrWidth (s.ports mem e)).main_state := rfl
  have hptr : (s.cycle addrWidth mem e).ctl.v_addr_ptr =
      (s.ctl.main addrWidth (s.ports mem e)).v_addr_ptr := rfl
  have hleft : ∀ {m l}, Block s.req m l → s.ctl.v_addr_ptr = s.req.addr m →
      8 ≤ l ∧ s.ctl.v_addr_ptr + l ≤ s.req.addr s.req.len := by
    intro m l hblock hv
    have hpos := hblock.pos
    have hwhole := hblock.whole
    rw [hv]
    exact ⟨by omega, hblock.le⟩
  rw [rank, rank, hreq]
  cases hmain : s.ctl.main_state <;> simp only [Position, hmain] at hpos
  case main_idle => exact absurd hmain hbusy
  case pre_process =>
    left
    by_cases hlt : s.ctl.v_addr_ptr < s.ctl.final_v_addr
    · simp only [hstate, hptr, ReaderCtl.main, hmain, if_pos hlt]
      omega
    · simp only [hstate, ReaderCtl.main, hmain, if_neg hlt]
      omega
  case query_TLB =>
    obtain ⟨-, -, -, -, hv, hblock⟩ := hpos
    have hlarge := hleft hblock hv
    left
    simp only [hstate, hptr, ReaderCtl.main, hmain]
    omega
  case dma_request =>
    obtain ⟨-, -, -, -, hv, hblock, -⟩ := hpos
    have hlarge := hleft hblock hv
    cases hfire : s.ctl.dmaReqFire (s.ports mem e)
    · simp only [hstate, hptr, ReaderCtl.main, hmain, hfire, Bool.false_eq_true, if_false]
      refine .inr ⟨trivial, trivial, .inl ⟨hmain, ?_⟩⟩
      simpa [ReaderCtl.dmaReqFire, hmain, ports] using hfire
    · left
      simp only [hstate, hptr, ReaderCtl.main, hmain, hfire, if_true]
      omega
  case dma_reading =>
    obtain ⟨m, -, hv, hblock, -⟩ := hpos
    have hlarge := hleft hblock hv
    by_cases hdone : s.ctl.read_ptr = s.ctl.cur_64b_len
    · left
      simp only [hstate, hptr, ReaderCtl.main, hmain, if_pos hdone]
      omega
    · simp only [hstate, hptr, ReaderCtl.main, hmain, if_neg hdone]
      exact .inr ⟨trivial, trivial, .inr (.inl ⟨hmain, hdone⟩)⟩
  case dma_finish =>
    obtain ⟨m, -, hv, hblock, -⟩ := hpos
    have hlarge := hleft hblock hv
    by_cases hnil : s.ctl.data_queue = []
    · have hm : m < s.req.len := by
        rw [hv] at hlarge
        simp only [DMAReadReq.addr] at hlarge
        omega
      have hnext := (h.next_page_begin_addr hm hv).1
      have hpage := hblock.page
      left
      simp only [hstate, hptr, ReaderCtl.main, hmain, if_pos hnil, hnext]
      omega
    · simp only [hstate, hptr, ReaderCtl.main, hmain, if_neg hnil]
      exact .inr ⟨trivial, trivial, .inr (.inr ⟨hmain, hnil⟩)⟩

/-- Where no word moves and the main state machine stays, what it waits for is not there. -/
theorem Moves.not_signal (h : Moves addrWidth mem n k s) (hwaits : Waits s e)
    (htaken : taken mem s e = 0) (hreturned : returned mem s e = 0) (hsettled : unsettled s = 0) :
    ¬(awaits s).signal e := by
  have haccess : s.ctl.data_queue ≠ [] → ¬e.accessReady = true := by
    intro hne hready
    have hdeq : s.ctl.deq_queue_state = .write_array := by
      rw [unsettled, ite_eq_right_iff] at hsettled
      by_contra hdeq
      exact absurd (hsettled (iff_of_false hne hdeq)) Nat.one_ne_zero
    obtain ⟨w, l, hcons⟩ := List.exists_cons_of_ne_nil hne
    simp [taken, ReaderCtl.accessFire, hdeq, ports, hready, hcons] at htaken
  rw [awaits]
  obtain ⟨hmain, hready⟩ | ⟨hmain, hptr⟩ | ⟨hmain, hne⟩ := hwaits
  · rw [if_pos hmain, Awaited.signal, hready]
    exact Bool.false_ne_true
  · rw [if_neg (by simp [hmain])]
    split_ifs with hnil
    · intro hvalid
      have hpos := h.position
      simp only [Position, hmain] at hpos
      obtain ⟨m, hk, -, -, hle, hpending, -⟩ := hpos
      have hlt : s.ctl.read_ptr < s.ctl.cur_64b_len := lt_of_le_of_ne hle hptr
      rw [Lib.stretch_cons (by omega)] at hpending
      have hvalid : e.dmaOutValid = true := hvalid
      simp [returned, ReaderCtl.dmaOutFire, ReaderCtl.dmaOutReady, hmain, hlt, hnil, ports, hvalid,
        hpending] at hreturned
    · exact haccess hnil
  · rw [if_neg (by simp [hmain]), if_neg hne]
    exact haccess hne

theorem Moves.progress_waits (h : Moves addrWidth mem n k s)
    (hbusy : s.ctl.main_state ≠ .main_idle) :
    work (s.cycle addrWidth mem e) < work s ∨
      work (s.cycle addrWidth mem e) = work s ∧
        awaits (s.cycle addrWidth mem e) = awaits s ∧ ¬(awaits s).signal e ∧ Waits s e := by
  have hnext := h.cycle (e := e) fun hidle => absurd hidle hbusy
  have hreq : (s.cycle addrWidth mem e).req = s.req := by simp [DMAReader.cycle, hbusy]
  have hunsettled := unsettled_le (s := s.cycle addrWidth mem e)
  have hrank := h.rank_cycle (e := e) hbusy
  have hn := hnext.le
  have hk := hnext.le_len
  rw [hnext.work_eq, h.work_eq, hreq]
  rw [hreq] at hk
  by_cases hmoves : 0 < taken mem s e + returned mem s e
  · left
    omega
  · have htaken : taken mem s e = 0 := by omega
    have hreturned : returned mem s e = 0 := by omega
    have hsame : (s.cycle addrWidth mem e).ctl.data_queue = s.ctl.data_queue := by
      rw [hnext.queue, hreq, htaken, hreturned, h.queue]
      rfl
    rw [unsettled_cycle hsame, htaken, hreturned]
    obtain hlt | ⟨heq, hstate, hwaits⟩ := hrank
    · left
      omega
    · by_cases hsettled : unsettled s = 0
      · refine .inr ⟨by omega, ?_, h.not_signal hwaits htaken hreturned hsettled, hwaits⟩
        rw [awaits, awaits, hstate, hsame]
      · left
        omega

theorem Moves.progress (h : Moves addrWidth mem n k s) (hbusy : s.ctl.main_state ≠ .main_idle) :
    work (s.cycle addrWidth mem e) < work s ∨
      work (s.cycle addrWidth mem e) = work s ∧
        awaits (s.cycle addrWidth mem e) = awaits s ∧ ¬(awaits s).signal e :=
  (h.progress_waits hbusy).imp_right fun ⟨hwork, hawaits, hsignal, _⟩ => ⟨hwork, hawaits, hsignal⟩

/-- The states that follow `s`. -/
def after (addrWidth : ℕ) (mem : ℕ → BitVec 64) (s : DMAReader) (es : ℕ → ReaderStimulus) :
    ℕ → DMAReader
  | 0 => s
  | n + 1 => (after addrWidth mem s es n).cycle addrWidth mem (es n)

/-- Every port is ready again and again. -/
def Fair (es : ℕ → ReaderStimulus) : Prop := ∀ (a : Awaited) n, ∃ m, n ≤ m ∧ a.signal (es m)

/-- In every run, whatever the ports do: what has been requested and written is right, nothing
is missing when the controller is not busy, and it comes to that. -/
theorem run_transfers {s : DMAReader} {es : List ReaderStimulus}
    (h : (machine addrWidth mem).Run (Permitted addrWidth) {} es s) :
    Delivers addrWidth mem s ∧
      ∀ es', Fair es' → ∃ n, (after addrWidth mem s es' n).ctl.main_state = .main_idle := by
  obtain ⟨n, k, hmoves⟩ := moves_run moves_start h
  refine ⟨hmoves.delivers, fun es' hfair => ?_⟩
  let f := after addrWidth mem s es'
  have hstep : ∀ i, (∃ n k, Moves addrWidth mem n k (f i)) →
      ¬(f i).ctl.main_state = .main_idle →
      (∃ n k, Moves addrWidth mem n k (f (i + 1))) ∧ (work (f (i + 1)) < work (f i) ∨
        work (f (i + 1)) = work (f i) ∧ awaits (f (i + 1)) = awaits (f i) ∧
          ¬(awaits (f i)).signal (es' i)) := by
    rintro i ⟨n, k, hi⟩ hbusy
    exact ⟨⟨_, _, hi.cycle fun hidle => absurd hidle hbusy⟩, hi.progress hbusy⟩
  exact Lib.exists_of_fair (I := fun t => ∃ n k, Moves addrWidth mem n k t)
    (Q := fun t : DMAReader => t.ctl.main_state = .main_idle) (f := f) (v := work) hfair hstep
    ⟨n, k, hmoves⟩

/-- Everybody is ready all the time. -/
def eagerReader (req : Option DMAReadReq) : ReaderStimulus := ⟨req, true, true, true⟩

/-- The memory shows the address that it is asked for. -/
def shows (a : ℕ) : BitVec 64 := BitVec.ofNat 64 a

/-- Three words across the end of a page, and time to move them. -/
def crossing : List ReaderStimulus :=
  eagerReader (some ⟨3, 2 ^ 31 + 4080, 5⟩) :: List.replicate 30 (eagerReader none)

def runAll (es : List ReaderStimulus) : DMAReader := es.foldl (fun s e => s.cycle 17 shows e) {}

theorem run_foldl {es : List ReaderStimulus} (h : ∀ s, ∀ e ∈ es, Permitted addrWidth s e)
    (s : DMAReader) : (machine addrWidth mem).Run (Permitted addrWidth) s es
      (es.foldl (fun s e => s.cycle addrWidth mem e) s) := by
  induction es generalizing s with
  | nil => exact .nil
  | cons e es ih =>
    obtain ⟨he, hes⟩ := List.forall_mem_cons.mp (h s)
    exact .cons he rfl (ih (fun s e' he' => h s e' (List.mem_cons_of_mem e he')) _)

theorem permitted_crossing (s : DMAReader) : ∀ e ∈ crossing, Permitted 17 s e := by
  intro e he _ r hr
  obtain rfl | he := List.mem_cons.mp he
  · obtain rfl := Option.some.inj hr
    exact ⟨⟨by decide, by decide, by decide, by decide, by decide⟩, .inr ⟨by decide, by decide⟩⟩
  · rw [List.eq_of_mem_replicate he] at hr
    cases hr

theorem run_transfers_crossing :
    (runAll crossing).ctl.main_state = .main_idle ∧ (runAll crossing).written.length = 3 ∧
      Delivers 17 shows (runAll crossing) :=
  ⟨by decide +kernel, by decide +kernel, (run_transfers (run_foldl permitted_crossing {})).1⟩

/-- Addresses of `Configs.scala` have 17 bits, and so has the length of a request. That of 65536
words does not fit its register: nothing is read. -/
theorem not_delivers_long : ¬∀ {s : DMAReader} {es : List ReaderStimulus},
    (machine 17 shows).Run (fun s e => s.ctl.main_state = .main_idle →
      ∀ r, e.req = some r → r.Carried 17) {} es s → Delivers 17 shows s := by
  intro h
  have hrun : (machine 17 shows).Run (fun s e => s.ctl.main_state = .main_idle →
      ∀ r, e.req = some r → r.Carried 17) {}
      [eagerReader (some ⟨2 ^ 16, 0, 0⟩), eagerReader none]
      (runAll [eagerReader (some ⟨2 ^ 16, 0, 0⟩), eagerReader none]) := by
    refine .cons (fun _ r hr => ?_) rfl (.cons (fun _ r hr => nomatch hr) rfl .nil)
    obtain rfl := Option.some.inj hr
    exact ⟨by decide, by decide, by decide, by decide, by decide⟩
  have hwritten := congrArg List.length ((h hrun).idle (by decide +kernel)).2.1
  rw [Lib.length_stretch] at hwritten
  exact absurd hwritten (by decide +kernel)

end DMAReader

end Course.Gemm
