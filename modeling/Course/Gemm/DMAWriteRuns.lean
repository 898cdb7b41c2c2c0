import Course.Gemm.DMAWriteCtl
import Course.Lib.Stretch
import Mathlib.Tactic.Ring

/-! Every word of a request reaches its place in DRAM once and in order, as long
as the end of the request is a 32-bit address. -/

namespace Course.Gemm

namespace DMAWriteReq

variable (addrWidth : ℕ) (mem : ℕ → Word) (r : DMAWriteReq)

/-- The `i`-th word on chip. -/
def word (i : ℕ) : Word := mem ((r.baseAddr_OnChipMem + i) % 2 ^ addrWidth)

/-- The `i`-th word and its address in DRAM. -/
def write (i : ℕ) : ℕ × Word := (r.baseAddr_DRAM + 8 * i, r.word addrWidth mem i)

end DMAWriteReq

namespace DMAWriter

open Lib (stretch)

variable {addrWidth : ℕ} {mem : ℕ → Word}

/-- What has happened of the request so far is right, and nothing is missing when
the controller is idle. -/
structure Delivers (addrWidth : ℕ) (mem : ℕ → Word) (s : DMAWriter) : Prop where
  enqueued : s.enqueued <+: stretch (s.req.word addrWidth mem) 0 s.req.len
  written : s.written <+: stretch (s.req.write addrWidth mem) 0 s.req.len
  page : ∀ st ∈ s.streams, st.1 % 2 ^ 12 + st.2 ≤ 2 ^ 12
  idle : s.ctl.main_state = .main_idle →
    s.enqueued = stretch (s.req.word addrWidth mem) 0 s.req.len ∧
      s.written = stretch (s.req.write addrWidth mem) 0 s.req.len ∧ s.ctl.data_queue = []

/-- The length fits its register and the base is aligned. -/
structure Aligned (r : DMAWriteReq) : Prop where
  len : r.len < 2 ^ 16
  base : r.baseAddr_DRAM % 8 = 0
  base_lt : r.baseAddr_DRAM < 2 ^ 32

/-- The address after the last word does not wrap around. -/
def Ends (r : DMAWriteReq) : Prop := r.baseAddr_DRAM + 8 * r.len < 2 ^ 32

/-- The reading side works on word `k`, which is in `data` if it arrives. -/
structure Reading (w : ℕ → Word) (len k : ℕ) (c : WriterCtl) (data : Word) : Prop where
  state : c.enq_state = .read_array
  enq : c.array_ptr_for_enq = k
  access : c.array_ptr_for_accessOnChipMem = k + c.data_arrive.toNat
  access_le : c.array_ptr_for_accessOnChipMem ≤ len
  data : c.data_arrive = true → data = w k

/-- The reading side is done with all `k` words. -/
structure Read (len k : ℕ) (c : WriterCtl) : Prop where
  state : c.enq_state = .enq_idle
  enq : c.array_ptr_for_enq = 0
  access : c.array_ptr_for_accessOnChipMem = 0
  arrive : c.data_arrive = false
  all : k = len

/-- A block of `l` bytes from the `m`-th word: to the end of the page or of the request. -/
structure Block (r : DMAWriteReq) (m l : ℕ) : Prop where
  lt : m < r.len
  pos : 0 < l
  page : (r.baseAddr_DRAM + 8 * m) % 2 ^ 12 + l ≤ 2 ^ 12
  ends : r.baseAddr_DRAM + 8 * m + l = ((r.baseAddr_DRAM + 8 * m) / 2 ^ 12 + 1) * 2 ^ 12 ∨
    r.baseAddr_DRAM + 8 * m + l = r.baseAddr_DRAM + 8 * r.len ∧
      ((r.baseAddr_DRAM + 8 * m) / 2 ^ 12 + 1) * 2 ^ 12 < 2 ^ 32

/-- Where the main state machine is when `n` words are written. -/
def Position (r : DMAWriteReq) (n : ℕ) (c : WriterCtl) (stream : Option Stream) : Prop :=
  match c.main_state with
  | .main_idle => n = r.len ∧ stream = none ∧ c.cur_block_ptr_64b = 0
  | .pre_process => stream = none ∧ c.cur_block_ptr_64b = 0 ∧
      (c.v_addr_ptr = r.baseAddr_DRAM + 8 * n ∨
        n = r.len ∧ r.baseAddr_DRAM + 8 * r.len ≤ c.v_addr_ptr)
  | .query_TLB => stream = none ∧ c.cur_block_ptr_64b = 0 ∧
      c.v_addr_ptr = r.baseAddr_DRAM + 8 * n ∧ Block r n c.cur_block_len_byte
  | .dma_request => stream = none ∧ c.cur_block_ptr_64b = 0 ∧
      c.v_addr_ptr = r.baseAddr_DRAM + 8 * n ∧ Block r n c.cur_block_len_byte ∧
      c.p_page_id = c.v_addr_ptr / 2 ^ 12
  | .dma_writing => ∃ m, n = m + c.cur_block_ptr_64b ∧ c.v_addr_ptr = r.baseAddr_DRAM + 8 * m ∧
      Block r m c.cur_block_len_byte ∧ 8 * c.cur_block_ptr_64b ≤ c.cur_block_len_byte ∧
      stream = some ⟨c.v_addr_ptr, c.cur_block_len_byte, 8 * c.cur_block_ptr_64b⟩

/-- `n` words are written and `k` words enqueued. -/
structure Moves (addrWidth : ℕ) (mem : ℕ → Word) (n k : ℕ) (s : DMAWriter) : Prop where
  aligned : Aligned s.req
  ends : Ends s.req
  len : s.ctl.len_64b = s.req.len
  base : s.ctl.baseAddr_DRAM = s.req.baseAddr_DRAM
  chip : s.ctl.baseAddr_OnChipMem = s.req.baseAddr_OnChipMem % 2 ^ addrWidth
  le : n ≤ k
  le_len : k ≤ s.req.len
  queue : s.ctl.data_queue = stretch (s.req.word addrWidth mem) n k
  enqueued : s.enqueued = stretch (s.req.word addrWidth mem) 0 k
  written : s.written = stretch (s.req.write addrWidth mem) 0 n
  page : ∀ st ∈ s.streams, st.1 % 2 ^ 12 + st.2 ≤ 2 ^ 12
  reads : Reading (s.req.word addrWidth mem) s.req.len k s.ctl s.dataReadFromOnChipMem ∨
    Read s.req.len k s.ctl
  position : Position s.req n s.ctl s.stream
  settled : s.ctl.main_state = .main_idle → s.ctl.enq_state = .enq_idle

theorem Moves.delivers {n k : ℕ} {s : DMAWriter} (h : Moves addrWidth mem n k s) :
    Delivers addrWidth mem s where
  enqueued := by
    rw [h.enqueued]
    exact Lib.stretch_prefix (Nat.zero_le _) h.le_len
  written := by
    rw [h.written]
    exact Lib.stretch_prefix (Nat.zero_le _) (h.le.trans h.le_len)
  page := h.page
  idle := by
    intro hidle
    have hpos := h.position
    simp only [Position, hidle] at hpos
    obtain rfl := hpos.1
    obtain rfl := Nat.le_antisymm h.le_len h.le
    exact ⟨h.enqueued, h.written, by rw [h.queue, Lib.stretch_self]⟩

theorem moves_start : Moves addrWidth mem 0 0 {} :=
  ⟨⟨by decide, rfl, by decide⟩, (by decide : 0 + 8 * 0 < 2 ^ 32), rfl, rfl, (Nat.zero_mod _).symm,
    le_rfl, le_rfl, rfl, rfl, rfl, by simp, .inr ⟨rfl, rfl, rfl, rfl, rfl⟩, ⟨rfl, rfl, rfl⟩,
    fun _ => rfl⟩

section reading

variable {w : ℕ → Word} {len k : ℕ} {c : WriterCtl} {data data' : Word} {p : Ports}

variable (addrWidth) in
theorem Reading.cycle_done (h : Reading w len len c data) (hlen : c.len_64b = len) :
    c.enqFire = false ∧ Read len len (c.cycle addrWidth p) := by
  have harrive : c.data_arrive = false := by
    have haccess := h.access
    have hle := h.access_le
    cases harr : c.data_arrive
    · rfl
    · rw [harr, Bool.toNat_true] at haccess
      omega
  have hdone : c.enq_state = .read_array ∧ c.array_ptr_for_enq = c.len_64b :=
    ⟨h.state, h.enq.trans hlen.symm⟩
  have hfire : c.accessFire p = false := by
    simp [WriterCtl.accessFire, WriterCtl.can_access_array, h.enq, hlen]
  refine ⟨by simp [WriterCtl.enqFire, harrive], ?_, ?_, ?_, hfire, rfl⟩
  · exact if_pos hdone
  · exact if_pos hdone
  · exact if_pos hdone

/-- A word arrives and is enqueued, or it is read again. -/
theorem Reading.cycle (h : Reading w len k c data) (hlen : c.len_64b = len) (hlt : len < 2 ^ 16)
    (hk : k < len) (hstate : (c.main addrWidth p).enq_state = c.enq_state)
    (hdata : c.accessFire p = true → data' = w c.array_ptr_for_accessOnChipMem) :
    (c.enqFire = true → data = w k) ∧
      Reading w len (k + c.enqFire.toNat) (c.cycle addrWidth p) data' := by
  obtain ⟨hread, henq, haccess, hle, hword⟩ := h
  have hnot : ¬ (c.enq_state = .read_array ∧ c.array_ptr_for_enq = c.len_64b) := by
    omega
  have hptr : c.nextEnqPtr = k + c.enqFire.toNat := by
    rw [WriterCtl.nextEnqPtr, if_neg hnot, henq]
    cases c.enqFire <;> simp; omega
  have hfire : c.accessFire p = true →
      c.is_queue_has_space = true ∧ c.array_ptr_for_accessOnChipMem < len := by
    simp only [WriterCtl.accessFire, WriterCtl.can_access_array, Bool.and_eq_true,
      decide_eq_true_eq, hlen]
    tauto
  -- a read is only sent while there is space, so then the word before it was enqueued
  have hsame : c.accessFire p = true →
      c.array_ptr_for_accessOnChipMem = k + c.enqFire.toNat := by
    intro hf
    rw [haccess, WriterCtl.enqFire, (hfire hf).1, Bool.and_true]
  have hnext : c.nextAccessPtr p = k + c.enqFire.toNat + (c.accessFire p).toNat := by
    rw [WriterCtl.nextAccessPtr, if_neg hnot]
    cases hf : c.accessFire p
    · rw [WriterCtl.enqFire]
      cases ha : c.data_arrive <;> cases hs : c.is_queue_has_space <;>
        simp [ha] at haccess ⊢ <;> omega
    · have hbound := (hfire hf).2
      rw [← hsame hf]
      simp
      omega
  refine ⟨fun he => hword ?_, ⟨?_, hptr, hnext, ?_, fun hf => ?_⟩⟩
  · rw [WriterCtl.enqFire, Bool.and_eq_true] at he
    exact he.1
  · exact (if_neg hnot).trans (hstate.trans hread)
  · have haccess' : (c.cycle addrWidth p).array_ptr_for_accessOnChipMem =
        k + c.enqFire.toNat + (c.accessFire p).toNat := hnext
    rw [haccess']
    cases hf : c.accessFire p
    · have hbit := Bool.toNat_le c.enqFire
      rw [Bool.toNat_false]
      omega
    · have hbound := (hfire hf).2
      rw [← hsame hf, Bool.toNat_true]
      omega
  · rw [hdata hf, hsame hf]

theorem Read.cycle (h : Read len k c)
    (hstate : (c.main addrWidth p).enq_state = c.enq_state) :
    c.enqFire = false ∧ Read len k (c.cycle addrWidth p) := by
  obtain ⟨hidle, henq, haccess, harrive, hall⟩ := h
  have hnot : ¬ (c.enq_state = .read_array ∧ c.array_ptr_for_enq = c.len_64b) := by
    rw [hidle]
    exact fun h => nomatch h.1
  have henqFire : c.enqFire = false := by simp [WriterCtl.enqFire, harrive]
  have hfire : c.accessFire p = false := by simp [WriterCtl.accessFire, hidle]
  refine ⟨henqFire, ?_, ?_, ?_, hfire, hall⟩
  · exact (if_neg hnot).trans (hstate.trans hidle)
  · rw [← henq]
    exact (if_neg hnot).trans (if_neg (by simp [henqFire]))
  · rw [← haccess]
    exact (if_neg hnot).trans
      ((if_neg (by simp [hfire])).trans (if_neg (by simp [harrive])))

end reading

section writing

variable {n k : ℕ} {s : DMAWriter} {e : Stimulus}

variable (addrWidth) in
/-- The registers of the request only change when a new one is accepted. -/
theorem main_request {c : WriterCtl} {p : Ports}
    (h : c.main_state = .main_idle → p.req = none) :
    (c.main addrWidth p).len_64b = c.len_64b ∧
      (c.main addrWidth p).baseAddr_DRAM = c.baseAddr_DRAM ∧
      (c.main addrWidth p).baseAddr_OnChipMem = c.baseAddr_OnChipMem ∧
      (c.main addrWidth p).enq_state = c.enq_state := by
  cases hmain : c.main_state <;> simp only [WriterCtl.main, hmain]
  case main_idle =>
    rw [h hmain]
    simp
  case query_TLB => simp
  all_goals split_ifs <;> simp

/-- What the main state machine does in a cycle without a new request. -/
structure MainStep (addrWidth : ℕ) (mem : ℕ → Word) (n k n' : ℕ) (s : DMAWriter) (e : Stimulus) :
    Prop where
  le : n ≤ n'
  le_enqueued : n' ≤ k
  queue : (s.ctl.main addrWidth (s.ports e)).data_queue = stretch (s.req.word addrWidth mem) n' k
  writes : s.nextWrites e = stretch (s.req.write addrWidth mem) n n'
  position : Position s.req n' (s.ctl.main addrWidth (s.ports e)) (s.nextStream e)
  page : s.ctl.dmaReqFire (s.ports e) = true →
    s.ctl.p_baseAddr_to_dma % 2 ^ 12 + s.ctl.cur_block_len_byte ≤ 2 ^ 12

theorem Moves.final_v_addr (h : Moves addrWidth mem n k s) :
    s.ctl.final_v_addr = s.req.baseAddr_DRAM + 8 * s.req.len := by
  have hends := h.ends
  rw [WriterCtl.final_v_addr, WriterCtl.total_nbytes, h.len, h.base]
  rw [Ends] at hends
  omega

/-- The block that `pre_process` computes. -/
theorem Moves.block (h : Moves addrWidth mem n k s) (hn : n < s.req.len)
    (hv : s.ctl.v_addr_ptr = s.req.baseAddr_DRAM + 8 * n) :
    Block s.req n ((if s.ctl.next_page_begin_addr < s.ctl.final_v_addr then
      (s.ctl.next_page_begin_addr + 2 ^ 32 - s.ctl.v_addr_ptr) % 2 ^ 32
    else (s.ctl.final_v_addr + 2 ^ 32 - s.ctl.v_addr_ptr) % 2 ^ 32) % 2 ^ 16) := by
  have hends := h.ends
  rw [Ends] at hends
  have hnext : s.ctl.next_page_begin_addr =
      ((s.req.baseAddr_DRAM + 8 * n) / 2 ^ 12 + 1) % 2 ^ 20 * 2 ^ 12 := by
    rw [WriterCtl.next_page_begin_addr, hv]
  rw [h.final_v_addr, hv, hnext]
  constructor
  · exact hn
  all_goals split_ifs <;> omega

variable (addrWidth) in
theorem main_data_queue {c : WriterCtl} {p : Ports} (h : c.main_state ≠ .dma_writing) :
    (c.main addrWidth p).data_queue = c.data_queue := by
  cases hmain : c.main_state <;> simp only [WriterCtl.main, hmain]
  case main_idle => cases p.req <;> rfl
  case dma_writing => exact absurd hmain h
  all_goals split_ifs <;> rfl

/-- A state in which the stream writer has nothing to do and is asked for nothing. -/
theorem Moves.main_step_of_ne (h : Moves addrWidth mem n k s) (hstream : s.stream = none)
    (hrequest : s.ctl.main_state ≠ .dma_request) (hwriting : s.ctl.main_state ≠ .dma_writing)
    (hpos : Position s.req n (s.ctl.main addrWidth (s.ports e)) none) :
    MainStep addrWidth mem n k n s e := by
  have hfire : s.ctl.dmaReqFire (s.ports e) = false := by
    simp [WriterCtl.dmaReqFire, hrequest]
  have hnext : s.nextStream e = none := by
    simp [nextStream, hstream, hfire]
  refine ⟨le_rfl, h.le, ?_, by simp [nextWrites, hstream], ?_, by simp [hfire]⟩
  · rw [main_data_queue addrWidth hwriting, h.queue]
  · rwa [hnext]

theorem main_step_pre_process (h : Moves addrWidth mem n k s)
    (hmain : s.ctl.main_state = .pre_process) : MainStep addrWidth mem n k n s e := by
  have hpos := h.position
  simp only [Position, hmain] at hpos
  obtain ⟨hstream, hptr, hv⟩ := hpos
  refine h.main_step_of_ne hstream (by simp [hmain]) (by simp [hmain]) ?_
  have hfinal := h.final_v_addr
  have hle := h.le.trans h.le_len
  by_cases hlt : s.ctl.v_addr_ptr < s.ctl.final_v_addr
  · have hn : n < s.req.len := by omega
    have hv : s.ctl.v_addr_ptr = s.req.baseAddr_DRAM + 8 * n := by omega
    simp only [WriterCtl.main, hmain, if_pos hlt, Position]
    exact ⟨trivial, hptr, hv, h.block hn hv⟩
  · simp only [WriterCtl.main, hmain, if_neg hlt, Position]
    exact ⟨by omega, trivial, hptr⟩

theorem main_step_query_TLB (h : Moves addrWidth mem n k s)
    (hmain : s.ctl.main_state = .query_TLB) : MainStep addrWidth mem n k n s e := by
  have hpos := h.position
  simp only [Position, hmain] at hpos
  obtain ⟨hstream, hptr, hv, hblock⟩ := hpos
  refine h.main_step_of_ne hstream (by simp [hmain]) (by simp [hmain]) ?_
  simp only [WriterCtl.main, hmain, Position]
  exact ⟨trivial, hptr, hv, hblock, trivial⟩

theorem main_step_dma_request (h : Moves addrWidth mem n k s)
    (hmain : s.ctl.main_state = .dma_request) : MainStep addrWidth mem n k n s e := by
  have hpos := h.position
  simp only [Position, hmain] at hpos
  obtain ⟨hstream, hptr, hv, hblock, hpage⟩ := hpos
  have hends := h.ends
  rw [Ends] at hends
  have haddr : s.ctl.p_baseAddr_to_dma = s.ctl.v_addr_ptr := by
    have hlt := hblock.lt
    rw [WriterCtl.p_baseAddr_to_dma, hpage]
    omega
  have hwrites : s.nextWrites e = stretch (s.req.write addrWidth mem) n n := by
    simp [nextWrites, hstream]
  have hinside : s.ctl.p_baseAddr_to_dma % 2 ^ 12 + s.ctl.cur_block_len_byte ≤ 2 ^ 12 := by
    rw [haddr, hv]
    exact hblock.page
  cases hfire : s.ctl.dmaReqFire (s.ports e)
  · refine ⟨le_rfl, h.le, ?_, hwrites, ?_, fun _ => hinside⟩
    · simp only [WriterCtl.main, hmain, hfire, Bool.false_eq_true, if_false, h.queue]
    · simp only [WriterCtl.main, hmain, hfire, Bool.false_eq_true, if_false, Position]
      exact ⟨by simp [nextStream, hstream, hfire], hptr, hv, hblock, hpage⟩
  · refine ⟨le_rfl, h.le, ?_, hwrites, ?_, fun _ => hinside⟩
    · simp only [WriterCtl.main, hmain, hfire, if_true, h.queue]
    · simp only [WriterCtl.main, hmain, hfire, if_true, Position]
      refine ⟨n, by omega, hv, hblock, by omega, ?_⟩
      simp [nextStream, hstream, hfire, haddr, hptr]

theorem main_step_dma_writing (h : Moves addrWidth mem n k s)
    (hmain : s.ctl.main_state = .dma_writing) :
    ∃ n', MainStep addrWidth mem n k n' s e := by
  have hpos := h.position
  simp only [Position, hmain] at hpos
  obtain ⟨m, rfl, hv, hblock, hle, hstream⟩ := hpos
  have hends := h.ends
  rw [Ends] at hends
  have hreq : s.ctl.dmaReqFire (s.ports e) = false := by
    simp [WriterCtl.dmaReqFire, hmain]
  have hpage : s.ctl.dmaReqFire (s.ports e) = true →
      s.ctl.p_baseAddr_to_dma % 2 ^ 12 + s.ctl.cur_block_len_byte ≤ 2 ^ 12 := by
    simp [hreq]
  have hlong := hblock.page
  cases hfire : s.ctl.dmaInFire (s.ports e)
  · have hwrites : s.nextWrites e =
        stretch (s.req.write addrWidth mem) (m + s.ctl.cur_block_ptr_64b)
          (m + s.ctl.cur_block_ptr_64b) := by
      rw [Lib.stretch_self, nextWrites]
      split <;> simp [hfire]
    cases hresp : (s.ports e).dmaRespValid
    · refine ⟨_, le_rfl, h.le, ?_, hwrites, ?_, hpage⟩
      · simp only [WriterCtl.main, hmain, hfire, hresp, Bool.false_eq_true, if_false, h.queue]
      · simp only [WriterCtl.main, hmain, hfire, hresp, Bool.false_eq_true, if_false, Position]
        exact ⟨m, rfl, hv, hblock, hle, by simp [nextStream, hstream, hfire, hresp]⟩
    · have hall : s.ctl.cur_block_len_byte ≤ 8 * s.ctl.cur_block_ptr_64b := by
        simp [ports, hstream] at hresp
        exact hresp.2
      refine ⟨_, le_rfl, h.le, ?_, hwrites, ?_, hpage⟩
      · simp only [WriterCtl.main, hmain, hfire, hresp, Bool.false_eq_true, if_false, if_true,
          h.queue]
      · simp only [WriterCtl.main, hmain, hfire, hresp, Bool.false_eq_true, if_false, if_true,
          Position]
        refine ⟨by simp [nextStream, hstream, hresp], trivial, ?_⟩
        have hn := h.le.trans h.le_len
        have hends' := hblock.ends
        rw [WriterCtl.next_page_begin_addr, hv]
        omega
  · obtain ⟨hval, hbound, hready⟩ : s.ctl.data_queue ≠ [] ∧
        s.ctl.cur_block_ptr_64b < s.ctl.cur_block_len_byte / 2 ^ 3 ∧
        8 * s.ctl.cur_block_ptr_64b < s.ctl.cur_block_len_byte := by
      simp [WriterCtl.dmaInFire, WriterCtl.is_queue_has_val, ports, hstream] at hfire
      tauto
    have hlt : m + s.ctl.cur_block_ptr_64b < k := by
      rw [h.queue, ← List.length_pos_iff, Lib.length_stretch] at hval
      omega
    have hresp : (s.ports e).dmaRespValid = false := by
      simp [ports, hstream]
      omega
    have hqueue : s.ctl.data_queue = _ := h.queue.trans (Lib.stretch_cons hlt)
    refine ⟨m + s.ctl.cur_block_ptr_64b + 1, Nat.le_succ _, hlt, ?_, ?_, ?_, hpage⟩
    · simp only [WriterCtl.main, hmain, hfire, hresp, Bool.false_eq_true, if_false, if_true,
        hqueue, List.tail_cons]
    · rw [Lib.stretch_succ le_rfl, Lib.stretch_self, List.nil_append, nextWrites, hstream, hqueue]
      simp only [hfire, if_true, DMAWriteReq.write, hv]
      congr 2
      ring
    · simp only [WriterCtl.main, hmain, hfire, hresp, Bool.false_eq_true, if_false, if_true,
        Position]
      refine ⟨m, by omega, hv, hblock, by omega, ?_⟩
      simp [nextStream, hstream, hfire, hresp]
      omega

theorem main_step (h : Moves addrWidth mem n k s)
    (hreq : s.ctl.main_state = .main_idle → e.req = none) :
    ∃ n', MainStep addrWidth mem n k n' s e := by
  cases hmain : s.ctl.main_state with
  | main_idle =>
    have hpos := h.position
    simp only [Position, hmain] at hpos
    obtain ⟨hn, hstream, hptr⟩ := hpos
    have hnone : (s.ports e).req = none := hreq hmain
    refine ⟨n, h.main_step_of_ne hstream (by simp [hmain]) (by simp [hmain]) ?_⟩
    simp only [WriterCtl.main, hmain, hnone, Position]
    exact ⟨hn, trivial, hptr⟩
  | pre_process => exact ⟨n, main_step_pre_process h hmain⟩
  | query_TLB => exact ⟨n, main_step_query_TLB h hmain⟩
  | dma_request => exact ⟨n, main_step_dma_request h hmain⟩
  | dma_writing => exact main_step_dma_writing h hmain

/-- A new request is accepted when nothing of the last one is left. -/
theorem Moves.accept (h : Moves addrWidth mem n k s) {r : DMAWriteReq} (hreq : e.req = some r)
    (hidle : s.ctl.main_state = .main_idle) (hr : Aligned r) (hends : Ends r) :
    Moves addrWidth mem 0 0 (s.cycle addrWidth mem e) := by
  have hpos := h.position
  simp only [Position, hidle] at hpos
  obtain ⟨hn, hstream, hptr⟩ := hpos
  have hread : Read s.req.len k s.ctl := by
    refine h.reads.resolve_left fun hread => ?_
    exact nomatch (h.settled hidle).symm.trans hread.state
  obtain ⟨hstate, henq, haccess, harrive, hall⟩ := hread
  have hqueue : s.ctl.data_queue = [] := by
    rw [h.queue, hn, hall, Lib.stretch_self]
  have henqFire : s.ctl.enqFire = false := by simp [WriterCtl.enqFire, harrive]
  have hfire : s.ctl.accessFire (s.ports e) = false := by simp [WriterCtl.accessFire, hstate]
  have hdma : s.ctl.dmaReqFire (s.ports e) = false := by simp [WriterCtl.dmaReqFire, hidle]
  have hmain : s.ctl.main addrWidth (s.ports e) = { s.ctl with
      len_64b := r.len
      baseAddr_DRAM := r.baseAddr_DRAM
      baseAddr_OnChipMem := r.baseAddr_OnChipMem % 2 ^ addrWidth
      v_addr_ptr := r.baseAddr_DRAM
      main_state := .pre_process
      enq_state := .read_array } := by
    have hports : (s.ports e).req = some r := hreq
    simp only [WriterCtl.main, hidle, hports, Nat.mod_eq_of_lt hr.len, Nat.mod_eq_of_lt hr.base_lt]
  have hcycle : s.cycle addrWidth mem e =
      { ctl := { s.ctl with
          len_64b := r.len
          baseAddr_DRAM := r.baseAddr_DRAM
          baseAddr_OnChipMem := r.baseAddr_OnChipMem % 2 ^ addrWidth
          v_addr_ptr := r.baseAddr_DRAM
          main_state := .pre_process
          enq_state := .read_array }
        dataReadFromOnChipMem := e.noData
        req := r } := by
    simp only [cycle, WriterCtl.cycle, hmain, WriterCtl.nextAccessPtr, WriterCtl.nextEnqPtr,
      henqFire, hfire, hstate, harrive, nextStream, hstream, hdma, hidle, hreq]
    simp
  rw [hcycle]
  refine ⟨hr, hends, rfl, rfl, rfl, le_rfl, Nat.zero_le _, hqueue, rfl, rfl, by simp, .inl ?_, ?_,
    ?_⟩
  · exact ⟨rfl, henq, by simp [haccess, harrive], by simp [haccess], by simp [harrive]⟩
  · exact ⟨rfl, hptr, .inl rfl⟩
  · exact fun h => nomatch h

/-- What the reading side does in a cycle without a new request. -/
theorem Moves.reads_cycle (h : Moves addrWidth mem n k s)
    (hreq : s.ctl.main_state = .main_idle → e.req = none) :
    (s.ctl.enqFire = true → s.dataReadFromOnChipMem = s.req.word addrWidth mem k) ∧
      k + s.ctl.enqFire.toNat ≤ s.req.len ∧
      (Reading (s.req.word addrWidth mem) s.req.len (k + s.ctl.enqFire.toNat)
          (s.ctl.cycle addrWidth (s.ports e)) (s.cycle addrWidth mem e).dataReadFromOnChipMem ∨
        Read s.req.len (k + s.ctl.enqFire.toNat) (s.ctl.cycle addrWidth (s.ports e))) ∧
      (k = s.req.len → (s.ctl.cycle addrWidth (s.ports e)).enq_state = .enq_idle) := by
  obtain ⟨-, -, -, hstate⟩ := main_request addrWidth (c := s.ctl)
    (p := s.ports e) hreq
  have hdata : s.ctl.accessFire (s.ports e) = true →
      (s.cycle addrWidth mem e).dataReadFromOnChipMem =
        s.req.word addrWidth mem s.ctl.array_ptr_for_accessOnChipMem := by
    intro hf
    simp only [DMAWriter.cycle, hf, if_true, WriterCtl.accessAddr, h.chip, DMAWriteReq.word,
      Nat.mod_add_mod]
  have hle := h.le_len
  rcases h.reads with hread | hread
  · rcases Nat.eq_or_lt_of_le hle with rfl | hlt
    · obtain ⟨hfire, hdone⟩ := hread.cycle_done addrWidth (p := s.ports e) h.len
      rw [hfire, Bool.toNat_false]
      exact ⟨(nomatch ·), le_rfl, .inr hdone, fun _ => hdone.state⟩
    · obtain ⟨hword, hnext⟩ := hread.cycle h.len h.aligned.len hlt hstate hdata
      have hbit := Bool.toNat_le s.ctl.enqFire
      exact ⟨hword, by omega, .inl hnext, fun heq => absurd heq hlt.ne⟩
  · obtain ⟨hfire, hnext⟩ := hread.cycle hstate
    rw [hfire, Bool.toNat_false]
    exact ⟨(nomatch ·), hle, .inr hnext, fun _ => hnext.state⟩

theorem Moves.cycle (h : Moves addrWidth mem n k s)
    (hreq : s.ctl.main_state = .main_idle → e.req = none) :
    ∃ n' k', Moves addrWidth mem n' k' (s.cycle addrWidth mem e) := by
  obtain ⟨n', hmain⟩ := main_step h hreq
  obtain ⟨hlen, hbase, hchip, -⟩ := main_request addrWidth (c := s.ctl)
    (p := s.ports e) hreq
  obtain ⟨hword, hle, hreads, hdone⟩ := h.reads_cycle hreq
  have hfresh : (if s.ctl.main_state = .main_idle then e.req else none) = none := by
    split_ifs with hidle
    · exact hreq hidle
    · rfl
  have hsame : (s.cycle addrWidth mem e).req = s.req := by simp [DMAWriter.cycle, hfresh]
  have hgrow : ∀ {m : ℕ} {l : List Word}, m ≤ k → l = stretch (s.req.word addrWidth mem) m k →
      (if s.ctl.enqFire then l ++ [s.dataReadFromOnChipMem] else l) =
        stretch (s.req.word addrWidth mem) m (k + s.ctl.enqFire.toNat) := by
    intro m l hm hl
    cases hf : s.ctl.enqFire
    · exact hl
    · rw [if_pos rfl, Bool.toNat_true, Lib.stretch_succ hm, hl, hword hf]
  refine ⟨n', k + s.ctl.enqFire.toNat, ?_⟩
  constructor <;> try rw [hsame]
  · exact h.aligned
  · exact h.ends
  · exact hlen.trans h.len
  · exact hbase.trans h.base
  · exact hchip.trans h.chip
  · exact hmain.le_enqueued.trans (Nat.le_add_right ..)
  · exact hle
  · exact hgrow hmain.le_enqueued hmain.queue
  · simp only [DMAWriter.cycle, hfresh]
    exact hgrow (Nat.zero_le k) h.enqueued
  · simp only [DMAWriter.cycle, hfresh]
    rw [h.written, hmain.writes]
    exact Lib.stretch_append (Nat.zero_le n) hmain.le
  · simp only [DMAWriter.cycle, hfresh]
    intro st hst
    cases hf : s.ctl.dmaReqFire (s.ports e)
    · simp only [hf] at hst
      exact h.page st hst
    · simp only [hf] at hst
      rcases List.mem_append.mp hst with hst | hst
      · exact h.page st hst
      · obtain rfl := List.mem_singleton.mp hst
        exact hmain.page hf
  · exact hreads
  · exact hmain.position
  · intro hidle
    have hpos := hmain.position
    have hidle : (s.ctl.main addrWidth (s.ports e)).main_state = .main_idle := hidle
    simp only [Position, hidle] at hpos
    have hk := hmain.le_enqueued
    have hlen := h.le_len
    exact hdone (by omega)

end writing

/-- The requests that arrive are aligned and end at a 32-bit address. -/
def Permitted (e : Stimulus) : Prop := ∀ r, e.req = some r → Aligned r ∧ Ends r

theorem Moves.step {s : DMAWriter} {e : Stimulus} {n k : ℕ} (h : Moves addrWidth mem n k s)
    (he : Permitted e) : ∃ n k, Moves addrWidth mem n k (s.cycle addrWidth mem e) := by
  by_cases hidle : s.ctl.main_state = .main_idle
  · cases hreq : e.req with
    | none => exact h.cycle fun _ => hreq
    | some r => exact ⟨0, 0, h.accept hreq hidle (he r hreq).1 (he r hreq).2⟩
  · exact h.cycle fun h => absurd h hidle

/-- Whatever the memory and the stream writer do, the words of a request are
enqueued and written once each and in order. -/
theorem moves_run {s t : DMAWriter} {es : List Stimulus} {n k : ℕ}
    (h : Moves addrWidth mem n k s)
    (hrun : (machine addrWidth mem).Run (fun _ => Permitted) s es t) :
    ∃ n k, Moves addrWidth mem n k t := by
  induction hrun generalizing n k with
  | nil => exact ⟨n, k, h⟩
  | cons he hstep _ ih =>
    obtain rfl := Option.some.inj hstep
    obtain ⟨n', k', hnext⟩ := h.step he
    exact ih hnext

instance : DecidablePred Permitted := fun e =>
  match h : e.req with
  | none => isTrue fun r hr => nomatch h.symm.trans hr
  | some r =>
    decidable_of_iff (r.len < 2 ^ 16 ∧ r.baseAddr_DRAM % 8 = 0 ∧ r.baseAddr_DRAM < 2 ^ 32 ∧
        r.baseAddr_DRAM + 8 * r.len < 2 ^ 32)
      ⟨fun hr r' hr' => by
        obtain rfl := Option.some.inj (h.symm.trans hr')
        exact ⟨⟨hr.1, hr.2.1, hr.2.2.1⟩, hr.2.2.2⟩,
      fun hr => ⟨(hr r h).1.len, (hr r h).1.base, (hr r h).1.base_lt, (hr r h).2⟩⟩

/-- The memory shows the address that it is asked for. -/
def addresses (a : ℕ) : Word := BitVec.ofNat 64 a

end DMAWriter

end Course.Gemm
