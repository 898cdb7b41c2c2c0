import Mathlib.Data.Finset.Card
import Mathlib.Data.Finset.Range
import Course.Lib.Leads
import Course.Gemm.DMAWritePath

/-! A request to `DMA_writer_Ctl` comes to its end if it keeps away from the last page of the
address space, and only then: there the page ends behind the request, and the controller waits for
words that do not come. First with a stream writer that keeps to the rules, then with its
`StreamWriter` and DRAM. -/

open Course.Lib

namespace Course.Gemm

/-- The last page of the address space is not reached. -/
def DMAWriteReq.Short (r : DMAWriteReq) : Prop :=
  r.len = 0 ∨ r.baseAddr_DRAM + 8 * r.len ≤ 2 ^ 32 - 2 ^ 12

/-! ### The controller -/

namespace DMAWriter

variable {addrWidth : ℕ} {chip : ℕ → Word} {a : DMAWriter} {e : Stimulus} {n k : ℕ}

/-- How far the main state machine is from its end. -/
def rank (a : DMAWriter) : ℕ :=
  let left := a.req.baseAddr_DRAM + 8 * a.req.len - a.ctl.v_addr_ptr
  match a.ctl.main_state with
  | .main_idle => 0
  | .pre_process => left + 1
  | .query_TLB => left
  | .dma_request => left - 1
  | .dma_writing => left - 2

/-- One while a word has to be asked for, or to be dropped, before one can be enqueued. -/
def unread (c : WriterCtl) : ℕ := if c.is_queue_has_space = c.data_arrive then 0 else 1

/-- What is left to do: the blocks, the words to take and the words to enqueue. -/
def toDo (a : DMAWriter) : ℕ :=
  rank a + 3 * (a.req.len - a.written.length) + 2 * (a.req.len - a.enqueued.length) + unread a.ctl

/-- There is a block, and it ends with the request at the latest. -/
def Within (a : DMAWriter) : Prop :=
  a.ctl.main_state ≠ .main_idle → a.ctl.main_state ≠ .pre_process →
    a.ctl.v_addr_ptr + a.ctl.cur_block_len_byte ≤ a.req.baseAddr_DRAM + 8 * a.req.len

/-- There is a block, and it ends with its page. -/
def Overruns (a : DMAWriter) : Prop :=
  match a.ctl.main_state with
  | .main_idle => False
  | .pre_process => a.ctl.v_addr_ptr < a.req.baseAddr_DRAM + 8 * a.req.len
  | _ => a.ctl.v_addr_ptr + a.ctl.cur_block_len_byte = (a.ctl.v_addr_ptr / 2 ^ 12 + 1) * 2 ^ 12

theorem req_cycle (hbusy : a.ctl.main_state ≠ .main_idle) :
    (a.cycle addrWidth chip e).req = a.req := by
  simp [cycle, hbusy]

/-- The block that `pre_process` computes, in a request that is short and in one that is not. -/
theorem Moves.block_ends (h : Moves addrWidth chip n k a) (hmain : a.ctl.main_state = .pre_process)
    (hlt : a.ctl.v_addr_ptr < a.ctl.final_v_addr) :
    let t := a.ctl.main addrWidth (a.ports e)
    t.main_state = .query_TLB ∧ t.v_addr_ptr = a.ctl.v_addr_ptr ∧
      (a.req.Short → a.ctl.v_addr_ptr + t.cur_block_len_byte ≤
        a.req.baseAddr_DRAM + 8 * a.req.len) ∧
      (¬a.req.Short → a.ctl.v_addr_ptr + t.cur_block_len_byte =
        (a.ctl.v_addr_ptr / 2 ^ 12 + 1) * 2 ^ 12) := by
  have hends := h.ends
  have hfinal := h.final_v_addr
  have hpos := h.position
  rw [Ends] at hends
  simp only [Position, hmain] at hpos
  obtain ⟨-, -, hv⟩ := hpos
  obtain ⟨next, hnext⟩ : ∃ next, next = a.ctl.next_page_begin_addr := ⟨_, rfl⟩
  simp only [WriterCtl.main, hmain, if_pos hlt, DMAWriteReq.Short, ← hnext]
  rw [WriterCtl.next_page_begin_addr] at hnext
  refine ⟨trivial, trivial, fun hshort => ?_, fun hlong => ?_⟩
  · split_ifs <;> omega
  · rw [if_pos (by omega)]
    omega

theorem Moves.within_cycle (h : Moves addrWidth chip n k a) (hshort : a.req.Short)
    (hwithin : a.Within) (hbusy : a.ctl.main_state ≠ .main_idle) :
    (a.cycle addrWidth chip e).Within := by
  intro hidle hpre
  have hidle : (a.ctl.main addrWidth (a.ports e)).main_state ≠ .main_idle := hidle
  have hpre : (a.ctl.main addrWidth (a.ports e)).main_state ≠ .pre_process := hpre
  rw [req_cycle hbusy]
  change (a.ctl.main addrWidth (a.ports e)).v_addr_ptr +
    (a.ctl.main addrWidth (a.ports e)).cur_block_len_byte ≤ _
  cases hmain : a.ctl.main_state with
  | main_idle => exact absurd hmain hbusy
  | pre_process =>
    by_cases hlt : a.ctl.v_addr_ptr < a.ctl.final_v_addr
    · obtain ⟨-, hv, hle, -⟩ := h.block_ends (e := e) hmain hlt
      rw [hv]
      exact hle hshort
    · simp [WriterCtl.main, hmain, hlt] at hidle
  | query_TLB =>
    simp only [WriterCtl.main, hmain]
    exact hwithin (by simp [hmain]) (by simp [hmain])
  | dma_request =>
    have hle := hwithin (by simp [hmain]) (by simp [hmain])
    simp only [WriterCtl.main, hmain]
    split_ifs <;> exact hle
  | dma_writing =>
    have hle := hwithin (by simp [hmain]) (by simp [hmain])
    simp only [WriterCtl.main, hmain] at hpre ⊢
    split_ifs at hpre ⊢ <;> first | exact hle | exact absurd rfl hpre

theorem Moves.overruns_cycle (h : Moves addrWidth chip n k a) (hlong : ¬a.req.Short)
    (hover : a.Overruns) : (a.cycle addrWidth chip e).Overruns := by
  have hbusy : a.ctl.main_state ≠ .main_idle := by
    intro hidle
    rw [Overruns, hidle] at hover
    exact hover
  have hpos := h.position
  have hends := h.ends
  rw [Ends] at hends
  rw [Overruns, req_cycle hbusy]
  change match (a.ctl.main addrWidth (a.ports e)).main_state with
    | .main_idle => False
    | .pre_process => (a.ctl.main addrWidth (a.ports e)).v_addr_ptr < _
    | _ => (a.ctl.main addrWidth (a.ports e)).v_addr_ptr +
        (a.ctl.main addrWidth (a.ports e)).cur_block_len_byte =
      ((a.ctl.main addrWidth (a.ports e)).v_addr_ptr / 2 ^ 12 + 1) * 2 ^ 12
  cases hmain : a.ctl.main_state with
  | main_idle => exact absurd hmain hbusy
  | pre_process =>
    rw [Overruns, hmain] at hover
    obtain ⟨hstate, hv, -, hpage⟩ := h.block_ends (e := e) hmain
      (by rw [h.final_v_addr]; exact hover)
    rw [hstate, hv]
    exact hpage hlong
  | query_TLB =>
    rw [Overruns, hmain] at hover
    simp only [WriterCtl.main, hmain]
    exact hover
  | dma_request =>
    rw [Overruns, hmain] at hover
    simp only [WriterCtl.main, hmain]
    cases a.ctl.dmaReqFire (a.ports e) <;> simpa [hmain] using hover
  | dma_writing =>
    rw [Overruns, hmain] at hover
    simp only [Position, hmain] at hpos
    obtain ⟨m, hn, hv, -, -, hstream⟩ := hpos
    have hle := h.le.trans h.le_len
    simp only [WriterCtl.main, hmain]
    cases hresp : (a.ports e).dmaRespValid with
    | false => cases a.ctl.dmaInFire (a.ports e) <;> simpa [hmain] using hover
    | true =>
      -- all words of the block are taken, so that it is not in the last page
      have hall : a.ctl.cur_block_len_byte ≤ 8 * a.ctl.cur_block_ptr_64b := by
        simp only [ports, hstream, Option.any_some, Bool.and_eq_true, decide_eq_true_eq] at hresp
        exact hresp.2
      rw [DMAWriteReq.Short, not_or] at hlong
      simp only [if_true, WriterCtl.next_page_begin_addr]
      dsimp only at hover
      omega

/-- The stream writer does not take the request of the controller, or has not yet answered it. -/
def Held (a : DMAWriter) (e : Stimulus) : Prop :=
  a.ctl.main_state = .dma_request ∧ e.dmaReqReady = false ∨
    a.ctl.main_state = .dma_writing ∧ (a.ports e).dmaRespValid = false

/-- The main state machine comes nearer to the end, or it waits for the stream writer. -/
theorem Moves.rank_cycle (h : Moves addrWidth chip n k a) (hwithin : a.Within)
    (hbusy : a.ctl.main_state ≠ .main_idle) :
    rank (a.cycle addrWidth chip e) < rank a ∨
      rank (a.cycle addrWidth chip e) = rank a ∧ a.Held e := by
  have hpos := h.position
  have hends := h.ends
  rw [Ends] at hends
  have hstate : (a.cycle addrWidth chip e).ctl.main_state =
      (a.ctl.main addrWidth (a.ports e)).main_state := rfl
  have hptr : (a.cycle addrWidth chip e).ctl.v_addr_ptr =
      (a.ctl.main addrWidth (a.ports e)).v_addr_ptr := rfl
  rw [rank, rank, req_cycle hbusy, hstate, hptr]
  cases hmain : a.ctl.main_state <;> simp only [Position, hmain] at hpos
  case main_idle => exact absurd hmain hbusy
  case pre_process =>
    left
    by_cases hlt : a.ctl.v_addr_ptr < a.ctl.final_v_addr
    · simp only [WriterCtl.main, hmain, if_pos hlt]
      omega
    · simp only [WriterCtl.main, hmain, if_neg hlt]
      omega
  case query_TLB =>
    obtain ⟨-, -, hv, hblock⟩ := hpos
    have hlt := hblock.lt
    left
    simp only [WriterCtl.main, hmain]
    omega
  case dma_request =>
    obtain ⟨hstream, -, hv, hblock, -⟩ := hpos
    have hlt := hblock.lt
    have hfire : a.ctl.dmaReqFire (a.ports e) = e.dmaReqReady := by
      simp [WriterCtl.dmaReqFire, hmain, ports, hstream]
    cases hready : e.dmaReqReady with
    | false =>
      right
      simp [WriterCtl.main, hmain, hfire, hready, Held]
    | true =>
      left
      simp only [WriterCtl.main, hmain, hfire, hready, if_true]
      omega
  case dma_writing =>
    obtain ⟨m, -, hv, hblock, -⟩ := hpos
    have hlt := hblock.lt
    cases hresp : (a.ports e).dmaRespValid with
    | false =>
      right
      cases hin : a.ctl.dmaInFire (a.ports e) <;> simp [WriterCtl.main, hmain, hresp, hin, Held]
    | true =>
      left
      simp only [WriterCtl.main, hmain, hresp, if_true, WriterCtl.next_page_begin_addr]
      have hle := hwithin (by simp [hmain]) (by simp [hmain])
      have hpage := hblock.page
      have hbase := h.aligned.base
      have hlast := hblock.ends
      omega

theorem data_queue_main {c : WriterCtl} {p : Ports} (hin : c.dmaInFire p = false) :
    (c.main addrWidth p).data_queue = c.data_queue := by
  by_cases hmain : c.main_state = .dma_writing
  · simp only [WriterCtl.main, hmain, hin, Bool.false_eq_true, if_false]
    split_ifs <;> rfl
  · exact main_data_queue addrWidth hmain

theorem unread_le (c : WriterCtl) : unread c ≤ 1 := by
  rw [unread]
  split_ifs <;> omega

/-- As long as the queue stays as it is, a word is asked for or dropped once. -/
theorem unread_cycle {c : WriterCtl} {p : Ports} (hin : c.dmaInFire p = false)
    (henq : c.enqFire = false) :
    unread (c.cycle addrWidth p) + (c.accessFire p).toNat ≤ unread c := by
  have hqueue : (c.cycle addrWidth p).data_queue = c.data_queue := by
    simp only [WriterCtl.cycle, henq, Bool.false_eq_true, if_false]
    exact data_queue_main hin
  have harrive : (c.cycle addrWidth p).data_arrive = c.accessFire p := rfl
  have hspace : c.accessFire p = true → c.is_queue_has_space = true := by
    simp only [WriterCtl.accessFire, WriterCtl.can_access_array, Bool.and_eq_true]
    exact fun h => h.1.2.1.2
  rw [WriterCtl.enqFire] at henq
  rw [unread, unread, harrive, WriterCtl.is_queue_has_space, hqueue, ← WriterCtl.is_queue_has_space]
  revert hspace henq
  generalize c.is_queue_has_space = space
  generalize c.accessFire p = fire
  generalize c.data_arrive = arrive
  cases space <;> cases fire <;> cases arrive <;> simp

theorem length_nextWrites : (a.nextWrites e).length = (a.ctl.dmaInFire (a.ports e)).toNat := by
  rw [nextWrites]
  split
  next => split <;> simp [*]
  next hnot =>
    cases hfire : a.ctl.dmaInFire (a.ports e) with
    | false => rfl
    | true =>
      simp only [WriterCtl.dmaInFire, WriterCtl.is_queue_has_val, ports, Bool.and_eq_true,
        Bool.not_eq_true', List.isEmpty_eq_false_iff, Option.any_eq_true] at hfire
      obtain ⟨⟨⟨-, hqueue⟩, -⟩, -, st, hst, -⟩ := hfire
      obtain ⟨w, ws, hcons⟩ := List.exists_cons_of_ne_nil hqueue
      exact absurd hcons (hnot st w ws hst)

/-- Every word that is taken makes up for the write that may begin with it; what does not change
anything waits for the stream writer. -/
theorem Moves.toDo_cycle (h : Moves addrWidth chip n k a) (hwithin : a.Within)
    (hbusy : a.ctl.main_state ≠ .main_idle) :
    toDo (a.cycle addrWidth chip e) + 2 * (a.ctl.dmaInFire (a.ports e)).toNat ≤ toDo a ∧
      (toDo a ≤ toDo (a.cycle addrWidth chip e) →
        a.ctl.dmaInFire (a.ports e) = false ∧ a.ctl.enqFire = false ∧
          a.ctl.accessFire (a.ports e) = false ∧ a.Held e) := by
  obtain ⟨n', k', hnext⟩ := h.cycle (e := e) fun hidle => absurd hidle hbusy
  have hle := hnext.le
  have hlen := hnext.le_len
  have hrank := h.rank_cycle (e := e) hwithin hbusy
  have hwritten : (a.cycle addrWidth chip e).written.length =
      a.written.length + (a.ctl.dmaInFire (a.ports e)).toNat := by
    simp [DMAWriter.cycle, hbusy, length_nextWrites]
  have henqueued : (a.cycle addrWidth chip e).enqueued.length =
      a.enqueued.length + a.ctl.enqFire.toNat := by
    cases hfire : a.ctl.enqFire <;> simp [DMAWriter.cycle, hbusy, hfire]
  have hn : (a.cycle addrWidth chip e).written.length = n' := by
    rw [hnext.written, Lib.length_stretch, Nat.sub_zero]
  have hk : (a.cycle addrWidth chip e).enqueued.length = k' := by
    rw [hnext.enqueued, Lib.length_stretch, Nat.sub_zero]
  have hreq := @req_cycle addrWidth chip a e hbusy
  rw [hreq] at hlen
  have hunread := unread_le (a.cycle addrWidth chip e).ctl
  rw [toDo, toDo, hreq]
  cases hin : a.ctl.dmaInFire (a.ports e) with
  | true =>
    simp only [hin, Bool.toNat_true] at hwritten ⊢
    omega
  | false =>
    cases henq : a.ctl.enqFire with
    | true =>
      simp only [hin, henq, Bool.toNat_true, Bool.toNat_false] at hwritten henqueued ⊢
      omega
    | false =>
      have hread : unread (a.cycle addrWidth chip e).ctl + (a.ctl.accessFire (a.ports e)).toNat ≤
          unread a.ctl := unread_cycle hin henq
      simp only [hin, henq, Bool.toNat_false] at hwritten henqueued ⊢
      refine ⟨by omega, fun hge => ⟨trivial, trivial, ?_, ?_⟩⟩
      · cases hfire : a.ctl.accessFire (a.ports e) with
        | false => rfl
        | true =>
          rw [hfire, Bool.toNat_true] at hread
          omega
      · exact (hrank.resolve_left (by omega)).2

/-- The word for which the controller has no place in its queue yet is asked for. -/
theorem Moves.accessFire (h : Moves addrWidth chip n k a) (hwithin : a.Within)
    (hmain : a.ctl.main_state = .dma_writing)
    (hlt : 8 * a.ctl.cur_block_ptr_64b < a.ctl.cur_block_len_byte)
    (hempty : a.ctl.data_queue = []) (henq : a.ctl.enqFire = false) :
    a.ctl.accessFire (a.ports e) = e.accessReady := by
  have hpos := h.position
  simp only [Position, hmain] at hpos
  obtain ⟨m, hn, hv, -⟩ := hpos
  have hle := hwithin (by simp [hmain]) (by simp [hmain])
  have hnk : n = k := by
    have hlen := congrArg List.length (h.queue.symm.trans hempty)
    rw [length_stretch, List.length_nil] at hlen
    have := h.le
    omega
  have hread := h.reads.resolve_right fun hread => by
    have := hread.all
    omega
  have hspace : a.ctl.is_queue_has_space = true := by
    rw [WriterCtl.is_queue_has_space, hempty]
    rfl
  have harrive : a.ctl.data_arrive = false := by
    rwa [WriterCtl.enqFire, hspace, Bool.and_true] at henq
  have haccess := hread.access
  rw [harrive, Bool.toNat_false] at haccess
  rw [WriterCtl.accessFire, WriterCtl.can_access_array, hread.state, hspace, hread.enq, haccess,
    h.len]
  simp [show k < a.req.len by omega, ports]

/-- A word that is there is taken when the stream writer is ready for it. -/
theorem Moves.dmaInFire (h : Moves addrWidth chip n k a) (hmain : a.ctl.main_state = .dma_writing)
    (hlt : 8 * a.ctl.cur_block_ptr_64b < a.ctl.cur_block_len_byte)
    (hne : a.ctl.data_queue ≠ []) : a.ctl.dmaInFire (a.ports e) = e.dmaInReady := by
  have hpos := h.position
  simp only [Position, hmain] at hpos
  obtain ⟨m, -, -, -, -, hstream⟩ := hpos
  have hwhole := h.whole hmain hstream
  have hval : a.ctl.is_queue_has_val = true := by
    rw [WriterCtl.is_queue_has_val]
    simpa using hne
  dsimp only at hwhole
  rw [WriterCtl.dmaInFire, hmain, hval, ports, hstream]
  simp [hlt, show a.ctl.cur_block_ptr_64b < a.ctl.cur_block_len_byte / 8 by omega]

/-! ### Runs of the controller -/

/-- What the controller may wait for. -/
inductive Awaited
  | access
  | dmaReq
  | dmaIn
  | dmaResp

def Awaited.signal : Awaited → Stimulus → Prop
  | access, e => e.accessReady = true
  | dmaReq, e => e.dmaReqReady = true
  | dmaIn, e => e.dmaInReady = true
  | dmaResp, e => e.dmaRespValid = true

def awaits (a : DMAWriter) : Awaited :=
  if a.ctl.main_state = .dma_writing then
    if a.ctl.cur_block_len_byte ≤ 8 * a.ctl.cur_block_ptr_64b then .dmaResp
    else if a.ctl.data_queue = [] then .access
    else .dmaIn
  else .dmaReq

/-- Nothing is taken from a controller that is held, and it stays as it is. -/
theorem Held.main_eq (hheld : a.Held e) (hin : a.ctl.dmaInFire (a.ports e) = false) :
    a.ctl.main addrWidth (a.ports e) = a.ctl := by
  rcases hheld with ⟨hmain, hready⟩ | ⟨hmain, hresp⟩
  · have hfire : a.ctl.dmaReqFire (a.ports e) = false := by
      simp [WriterCtl.dmaReqFire, ports, hready]
    simp [WriterCtl.main, hmain, hfire]
  · simp [WriterCtl.main, hmain, hin, hresp]

/-- While the controller is busy, it comes nearer to the end, or it waits for the same signal as
before. -/
theorem Moves.progress (h : Moves addrWidth chip n k a) (hwithin : a.Within)
    (hbusy : a.ctl.main_state ≠ .main_idle) :
    toDo (a.cycle addrWidth chip e) < toDo a ∨
      toDo (a.cycle addrWidth chip e) = toDo a ∧
        (a.cycle addrWidth chip e).awaits = a.awaits ∧ ¬a.awaits.signal e := by
  obtain ⟨htodo, hsame⟩ := h.toDo_cycle (e := e) hwithin hbusy
  refine or_iff_not_imp_left.mpr fun hge => ?_
  obtain ⟨hin, henq, haccess, hheld⟩ := hsame (not_lt.mp hge)
  have hmain := @Held.main_eq addrWidth a e hheld hin
  have hctl : (a.cycle addrWidth chip e).awaits = a.awaits := by
    simp only [awaits, DMAWriter.cycle, WriterCtl.cycle, hmain, henq, Bool.false_eq_true, if_false]
  refine ⟨by omega, hctl, ?_⟩
  rw [awaits]
  rcases hheld with ⟨hstate, hready⟩ | ⟨hstate, hresp⟩
  · rw [hstate, if_neg (by decide)]
    simp [Awaited.signal, hready]
  rw [if_pos hstate]
  split_ifs with hall hempty
  · have hpos := h.position
    simp only [Position, hstate] at hpos
    obtain ⟨m, -, -, -, -, hstream⟩ := hpos
    simpa [Awaited.signal, ports, hstream, hall] using hresp
  · rw [h.accessFire hwithin hstate (not_le.mp hall) hempty henq] at haccess
    simp [Awaited.signal, haccess]
  · rw [h.dmaInFire hstate (not_le.mp hall) hempty] at hin
    simp [Awaited.signal, hin]

section runs

variable {f : ℕ → DMAWriter} {e : ℕ → Stimulus}

/-- The requests that arrive are aligned and keep away from the last page. -/
def Admitted (e : Stimulus) : Prop := ∀ r, e.req = some r → Aligned r ∧ r.Short

theorem Admitted.permitted {e : Stimulus} (h : Admitted e) : Permitted e := by
  intro r hr
  obtain ⟨haligned, hshort⟩ := h r hr
  have hlt := haligned.base_lt
  refine ⟨haligned, ?_⟩
  rw [Ends]
  rcases hshort with hlen | hends <;> omega

/-- A signal of the on-chip memory or of the stream writer comes if the controller keeps waiting for
it. -/
def Fair (f : ℕ → DMAWriter) (e : ℕ → Stimulus) : Prop := WeakFair awaits Awaited.signal f e

/-- All of a request is done. -/
structure Finished (addrWidth : ℕ) (chip : ℕ → Word) (r : DMAWriteReq) (a : DMAWriter) : Prop where
  idle : a.ctl.main_state = .main_idle
  enqueued : a.enqueued = stretch (r.word addrWidth chip) 0 r.len
  written : a.written = stretch (r.write addrWidth chip) 0 r.len
  queue : a.ctl.data_queue = []

theorem moves_all (hstart : f 0 = {})
    (hstep : ∀ n, (machine addrWidth chip).step (f n) (e n) = some (f (n + 1)))
    (hperm : ∀ n, Admitted (e n)) (i : ℕ) : ∃ n k, Moves addrWidth chip n k (f i) := by
  induction i with
  | zero => exact ⟨0, 0, hstart ▸ moves_start⟩
  | succ i ih =>
    obtain ⟨n, k, h⟩ := ih
    rw [← Option.some.inj (hstep i)]
    exact h.step (hperm i).permitted

/-- The cycle in which a request is taken. -/
theorem taken {a : DMAWriter} {e : Stimulus} {r : DMAWriteReq}
    (hidle : a.ctl.main_state = .main_idle) (hreq : e.req = some r) :
    (a.cycle addrWidth chip e).req = r ∧
      (a.cycle addrWidth chip e).ctl.main_state = .pre_process := by
  have hports : (a.ports e).req = some r := hreq
  constructor
  · simp [DMAWriter.cycle, hidle, hreq]
  · simp [DMAWriter.cycle, WriterCtl.cycle, WriterCtl.main, hidle, hports]

/-- In every run whose requests keep away from the last page of the address space, whatever the
memory and the stream writer do, the words of a request are enqueued and written once each and in
order; and if they do not keep the controller waiting for ever, it is idle again with all of them
written. -/
theorem run_delivers (hstart : f 0 = {})
    (hstep : ∀ n, (machine addrWidth chip).step (f n) (e n) = some (f (n + 1)))
    (hadmitted : ∀ n, Admitted (e n)) :
    (∀ n, Delivers addrWidth chip (f n)) ∧
      (Fair f e → ∀ n r, (f n).ctl.main_state = .main_idle → (e n).req = some r →
        ∃ m, n < m ∧ Finished addrWidth chip r (f m)) := by
  have hmoves := moves_all hstart hstep hadmitted
  have hdelivers : ∀ n, Delivers addrWidth chip (f n) := by
    intro n
    obtain ⟨_, _, h⟩ := hmoves n
    exact h.delivers
  refine ⟨hdelivers, fun hfair n r hidle hreq => ?_⟩
  obtain ⟨hr, hpre⟩ := @taken addrWidth chip _ _ r hidle hreq
  have hnext : ∀ i, f (i + 1) = (f i).cycle addrWidth chip (e i) :=
    fun i => (Option.some.inj (hstep i)).symm
  rw [← hnext] at hr hpre
  obtain ⟨m, hend, hreqm⟩ := exists_of_weak_fair
    (I := fun a => (∃ i k, Moves addrWidth chip i k a) ∧ a.Within ∧ a.req = r)
    (Q := fun a => a.ctl.main_state = .main_idle ∧ a.req = r) (v := toDo) Nat.lt_wfRel.wf
    (WeakFair.drop hfair (n + 1))
    (fun i ⟨⟨j, k, hmove⟩, hwithin, hreqi⟩ hnot => by
      have hbusy : (f (n + 1 + i)).ctl.main_state ≠ .main_idle := fun hi => hnot ⟨hi, hreqi⟩
      have hshort : (f (n + 1 + i)).req.Short := by
        rw [hreqi]
        exact (hadmitted n r hreq).2
      rw [← Nat.add_assoc, hnext]
      exact ⟨⟨hmove.step (hadmitted _).permitted, hmove.within_cycle hshort hwithin hbusy,
        (req_cycle hbusy).trans hreqi⟩, hmove.progress hwithin hbusy⟩)
    ⟨hmoves _, fun _ hne => absurd hpre hne, hr⟩
  obtain ⟨henqueued, hwritten, hqueue⟩ := (hdelivers (n + 1 + m)).idle hend
  rw [hreqm] at henqueued hwritten
  exact ⟨n + 1 + m, by omega, hend, henqueued, hwritten, hqueue⟩

/-- Twenty words across the end of a page, for a stream writer that takes every fourth cycle a word:
the queue fills up, and words are read again. -/
def slowly (n : ℕ) : Stimulus where
  req := if n = 0 then some ⟨20, 2 ^ 31 + 4016, 5⟩ else none
  accessReady := true
  noData := 0
  dmaReqReady := true
  dmaInReady := decide (n % 4 = 0)
  dmaRespValid := true

def slow : ℕ → DMAWriter
  | 0 => {}
  | n + 1 => (slow n).cycle 17 addresses (slowly n)

theorem run_delivers_slow :
    (∃ n, (slow n).ctl.data_arrive = true ∧ (slow n).ctl.is_queue_has_space = false) ∧
      (∀ n, Delivers 17 addresses (slow n)) ∧
      ∃ m, Finished 17 addresses ⟨20, 2 ^ 31 + 4016, 5⟩ (slow m) := by
  have hfair : Fair slow slowly := by
    intro n _
    cases (slow n).awaits with
    | access | dmaReq | dmaResp => exact ⟨n, le_rfl, rfl⟩
    | dmaIn => exact ⟨4 * n, by omega, by simp [Awaited.signal, slowly]⟩
  have hadmitted : ∀ n, Admitted (slowly n) := by
    intro n r hr
    cases n with
    | zero =>
      obtain rfl := Option.some.inj hr
      exact ⟨⟨by decide, by decide, by decide⟩, .inr (by decide)⟩
    | succ n => cases hr
  obtain ⟨hdelivers, hends⟩ :=
    @run_delivers 17 addresses slow slowly rfl (fun _ => rfl) hadmitted
  obtain ⟨m, -, hm⟩ := hends hfair 0 _ rfl rfl
  exact ⟨⟨12, by decide +kernel⟩, hdelivers, m, hm⟩

/-- A request for the last word of the address space. -/
def lastWord (n : ℕ) : Stimulus :=
  ⟨if n = 0 then some ⟨1, 2 ^ 32 - 8, 0⟩ else none, true, 0, true, true, true⟩

/-- The address after the last word of the address space is zero, and the controller takes the
request to be done. -/
theorem not_delivers_end : ¬ ∀ (f : ℕ → DMAWriter) (e : ℕ → Stimulus), f 0 = {} →
    (∀ n, (machine 17 addresses).step (f n) (e n) = some (f (n + 1))) →
    (∀ n r, (e n).req = some r → Aligned r) → ∀ n, Delivers 17 addresses (f n) := by
  intro h
  have hdelivers := h (Nat.rec {} fun n a => a.cycle 17 addresses (lastWord n)) lastWord rfl
    (fun _ => rfl) (fun n r hr => by
      cases n with
      | zero =>
        obtain rfl := Option.some.inj hr
        exact ⟨by decide, by decide, by decide⟩
      | succ n => cases hr) 2
  have hwritten := congrArg List.length (hdelivers.idle (by decide +kernel)).2.1
  exact absurd hwritten (by decide +kernel)

end runs

end DMAWriter

/-! ### The stream writer -/

namespace StreamStore

variable {params : WriterParams} {mem : ℕ → UInt8} {s : StreamStore} {e : WriteStimulus}

/-- The sources whose write is not yet acknowledged. -/
def openSources (params : WriterParams) (s : StreamStore) : Finset ℕ :=
  (Finset.range params.nXacts).filter fun i => s.owed i = true

/-- A write begins with a word that is taken, and an acknowledgement ends one. -/
theorem Inv.card_openSources (h : Inv params mem s) (hd : e.d.all s.owed = true) :
    ((s.next params e).openSources params).card + e.d.isSome.toNat ≤
      (s.openSources params).card + (s.writer.inFire params e).toNat := by
  obtain ⟨begun, hbegun⟩ : ∃ begun, begun = if s.writer.aFire params e = true then
      insert (s.writer.xactId params) (s.openSources params) else s.openSources params := ⟨_, rfl⟩
  have hcard : begun.card ≤ (s.openSources params).card + (s.writer.inFire params e).toNat := by
    rw [hbegun]
    split
    next hfire =>
      rw [h.inFire (aFire_data hfire), hfire]
      exact Finset.card_insert_le _ _
    next => exact Nat.le_add_right _ _
  have hsub : ∀ i ∈ (s.next params e).openSources params, i ∈ begun ∧ e.d ≠ some i := by
    intro i hi
    rw [openSources, Finset.mem_filter, Finset.mem_range, h.owed_next, next,
      StreamWriter.cycle] at hi
    simp only [Bool.and_eq_true, Bool.or_eq_true, Bool.not_eq_true', decide_eq_true_eq,
      decide_eq_false_iff_not] at hi
    obtain ⟨hlt, hbusy | ⟨⟨hfire, -⟩, hi⟩, hne⟩ := hi
    · have hmem : i ∈ s.openSources params :=
        Finset.mem_filter.mpr ⟨Finset.mem_range.mpr hlt, by rw [h.owed]; exact hbusy⟩
      rw [hbegun]
      split
      next => exact ⟨Finset.mem_insert_of_mem hmem, hne⟩
      next => exact ⟨hmem, hne⟩
    · rw [hbegun, if_pos hfire, hi]
      exact ⟨Finset.mem_insert_self _ _, hi ▸ hne⟩
  refine le_trans ?_ hcard
  cases hdi : e.d with
  | none => exact Finset.card_le_card fun i hi => (hsub i hi).1
  | some i =>
    rw [hdi, Option.all_some] at hd
    have hmem : i ∈ begun := by
      have hi : i ∈ s.openSources params :=
        Finset.mem_filter.mpr ⟨Finset.mem_range.mpr (h.busy_lt i hd), hd⟩
      rw [hbegun]
      split
      next => exact Finset.mem_insert_of_mem hi
      next => exact hi
    rw [Option.isSome_some, Bool.toNat_true, ← Finset.card_erase_add_one hmem]
    refine Nat.succ_le_succ (Finset.card_le_card fun j hj => ?_)
    obtain ⟨hj, hne⟩ := hsub j hj
    exact Finset.mem_erase.mpr ⟨fun heq => hne (by rw [hdi, heq]), hj⟩

/-- Nothing happens to a writer that sends nothing and is told nothing. -/
theorem writer_next (hfire : s.writer.aFire params e = false) (hd : e.d = none)
    (hresp : s.writer.respFire params e = false) (hbusy : s.writer.state ≠ .s_idle) :
    (s.next params e).writer = s.writer := by
  have hadvance : s.writer.advance params e = s.writer := by
    rw [StreamWriter.advance]
    split
    next hidle => exact absurd hidle hbusy
    next => rw [hfire, if_neg Bool.false_ne_true]
    next => rw [hresp, if_neg Bool.false_ne_true]
  simp [next, StreamWriter.cycle, hadvance, hfire, hd]

end StreamStore

/-! ### The path -/

namespace DMAWritePath

/-- What the controller and its stream writer may wait for. -/
inductive WriteAwaited
  | tlA
  | tlD
  | access
  deriving DecidableEq

def WriteAwaited.signal : WriteAwaited → PathStimulus → Prop
  | tlA, e => e.aReady = true
  | tlD, e => e.d.isSome = true
  | access, e => e.accessReady = true

variable {params : WriterParams} {addrWidth : ℕ} {chip : ℕ → Word} {mem : ℕ → UInt8}
  {s t : DMAWritePath} {a : DMAWriter} {e : PathStimulus}

def awaits (params : WriterParams) (s : DMAWritePath) : WriteAwaited :=
  if s.dram.writer.state = .s_data ∧ s.dram.writer.canSend params = true then
    if s.ctl.data_queue = [] then .access else .tlA
  else if (List.range params.nXacts).any s.dram.owed then .tlD
  else .tlA

/-- What the controller has to do, and the acknowledgements to come. -/
def work (params : WriterParams) (a : DMAWriter) (s : DMAWritePath) : ℕ :=
  a.toDo + (s.dram.openSources params).card

/-- The stream writer has not yet all of the block. -/
theorem Refines.block_lt (h : Refines params addrWidth chip mem s a)
    (hmain : a.ctl.main_state = .dma_writing) (hdata : s.dram.writer.state = .s_data) :
    8 * a.ctl.cur_block_ptr_64b < a.ctl.cur_block_len_byte := by
  obtain ⟨n, k, hmoves⟩ := h.moves
  have hpos := hmoves.position
  simp only [DMAWriter.Position, hmain] at hpos
  obtain ⟨m, -, -, -, -, hstream⟩ := hpos
  have hsending := (h.dram.data hdata).lt
  have hst := hstream.symm.trans (h.stream.trans (if_neg (by simp [hdata])))
  simp only [Option.some.injEq, Stream.mk.injEq] at hst
  omega

/-- A writer that cannot go on has a write that is not yet acknowledged. -/
theorem Refines.any_owed (h : Refines params addrWidth chip mem s a) (hsources : 0 < params.nXacts)
    (hidle : s.dram.writer.state ≠ .s_idle) (hresp : s.dram.writer.respValid params = false)
    (hsend : ¬(s.dram.writer.state = .s_data ∧ s.dram.writer.canSend params = true)) :
    (List.range params.nXacts).any s.dram.owed = true := by
  rw [h.dram.owed]
  by_contra hnone
  rw [Bool.not_eq_true, List.any_eq_false] at hnone
  cases hstate : s.dram.writer.state with
  | s_idle => exact hidle hstate
  | s_data =>
    refine hsend ⟨hstate, ?_⟩
    rw [StreamWriter.canSend, Bool.or_eq_true, List.any_eq_true]
    exact .inl ⟨0, List.mem_range.mpr hsources, by simp [hnone 0 (List.mem_range.mpr hsources)]⟩
  | s_resp =>
    rw [StreamWriter.respValid, hstate] at hresp
    simp only [decide_true, Bool.true_and, List.all_eq_false] at hresp
    obtain ⟨i, hi, hbusy⟩ := hresp
    exact hnone i hi (by simpa using hbusy)

/-- While the controller is busy, it comes nearer to the end, or it waits for the same signal as
before. -/
theorem Refines.progress (h : Refines params addrWidth chip mem s a) (hwithin : a.Within)
    (hsources : 0 < params.nXacts) (hbusy : s.ctl.main_state ≠ .main_idle)
    (hstep : (machine params addrWidth chip).step s e = some t) :
    work params (a.cycle addrWidth chip (s.answers params e)) t < work params a s ∨
      work params (a.cycle addrWidth chip (s.answers params e)) t = work params a s ∧
        t.awaits params = s.awaits params ∧ ¬(s.awaits params).signal e := by
  obtain ⟨n, k, hmoves⟩ := h.moves
  obtain ⟨dram, hdram, rfl⟩ := Option.map_eq_some_iff.mp hstep
  simp only [StreamStore.machine, Option.ite_none_right_eq_some, Option.some.injEq] at hdram
  obtain ⟨hd, rfl⟩ := hdram
  obtain ⟨htodo, hsame⟩ := hmoves.toDo_cycle (e := s.answers params e) hwithin (by rwa [h.ctl])
  have hcard := h.dram.card_openSources hd
  rw [h.inFire_eq] at hcard
  have hdram : (s.next params addrWidth chip e
      (s.dram.next params (s.stimulus params e))).dram =
        s.dram.next params (s.stimulus params e) := rfl
  rw [work, work, hdram]
  refine or_iff_not_imp_left.mpr fun hge => ?_
  obtain ⟨hin, henq, haccess, hheld⟩ := hsame (by omega)
  obtain ⟨hmain, hresp⟩ := hheld.resolve_left fun hready => Bool.false_ne_true hready.2.symm
  have hnone : e.d = none := by
    refine Option.not_isSome_iff_eq_none.mp fun hsome => ?_
    rw [show (s.stimulus params e).d.isSome = true from hsome, Bool.toNat_true] at hcard
    rw [hin, Bool.toNat_false] at hcard htodo
    omega
  -- the stream writer stays as it is, and so does the queue
  have hfire : s.dram.writer.aFire params (s.stimulus params e) = false := by
    by_cases hdata : s.dram.writer.state = .s_data
    · rw [← h.dram.inFire hdata, h.inFire_eq, hin]
    · simp [StreamWriter.aFire, hdata]
  have hvalid : s.dram.writer.respValid params = false := by
    rw [h.ports_eq] at hresp
    exact hresp
  have hidle : s.dram.writer.state ≠ .s_idle := by
    intro hidle
    have hpos := hmoves.position
    simp only [DMAWriter.Position, hmain] at hpos
    obtain ⟨m, -, -, -, -, hstream⟩ := hpos
    rw [h.stream, StreamStore.stream, if_pos hidle] at hstream
    cases hstream
  have hwriter := StreamStore.writer_next hfire hnone
    (by rw [StreamWriter.respFire, hvalid, Bool.false_and]) hidle
  have howed : (s.dram.next params (s.stimulus params e)).owed = s.dram.owed := by
    rw [h.dram.owed_next, hwriter, h.dram.owed]
  have hqueue : (s.next params addrWidth chip e
      (s.dram.next params (s.stimulus params e))).ctl.data_queue = s.ctl.data_queue := by
    rw [h.ctl] at henq
    rw [h.ports_eq, h.ctl] at hin
    simp only [next, WriterCtl.cycle, henq, Bool.false_eq_true, if_false]
    exact DMAWriter.data_queue_main hin
  refine ⟨?_, ?_, ?_⟩
  · have hopen : (s.dram.next params (s.stimulus params e)).openSources params =
        s.dram.openSources params := by
      rw [StreamStore.openSources, StreamStore.openSources, howed]
    rw [hopen] at hge ⊢
    omega
  · rw [awaits, awaits, hdram, hwriter, howed, hqueue]
  · rw [awaits]
    split_ifs with hsend hempty hany
    · intro hready
      rw [← h.ctl] at hempty
      rw [hmoves.accessFire hwithin hmain (h.block_lt hmain hsend.1) hempty henq] at haccess
      exact Bool.false_ne_true (haccess.symm.trans hready)
    · intro hready
      rw [← h.ctl] at hempty
      rw [hmoves.dmaInFire hmain (h.block_lt hmain hsend.1) hempty] at hin
      have hanswer : (s.answers params e).dmaInReady = true :=
        Bool.and_eq_true_iff.mpr ⟨hsend.2, hready⟩
      exact Bool.false_ne_true (hin.symm.trans hanswer)
    · intro hsome
      rw [WriteAwaited.signal, hnone] at hsome
      cases hsome
    · exact absurd (h.any_owed hsources hidle hvalid hsend) hany

/-! ### Runs -/

/-- Every port is ready again and again, and writes that have begun are acknowledged. -/
structure Fair (f : ℕ → DMAWritePath) (e : ℕ → PathStimulus) : Prop where
  tlA : ∀ n, ∃ m, n ≤ m ∧ (e m).aReady = true
  access : ∀ n, ∃ m, n ≤ m ∧ (e m).accessReady = true
  tlD : ∀ n, (∀ m, n ≤ m → ∃ i, (f m).dram.owed i = true) → ∃ m, n ≤ m ∧ (e m).d.isSome = true

theorem Fair.signal {f : ℕ → DMAWritePath} {e : ℕ → PathStimulus} (h : Fair f e) (n : ℕ)
    (hawaits : ∀ m, n ≤ m → (f m).awaits params = (f n).awaits params) :
    ∃ m, n ≤ m ∧ ((f n).awaits params).signal (e m) := by
  cases hn : (f n).awaits params with
  | tlA => exact h.tlA n
  | access => exact h.access n
  | tlD =>
    refine h.tlD n fun m hm => ?_
    have howed := (hawaits m hm).trans hn
    rw [awaits] at howed
    split_ifs at howed with _ _ hany
    obtain ⟨i, -, hi⟩ := List.any_eq_true.mp hany
    exact ⟨i, hi⟩

section runs

variable {f : ℕ → DMAWritePath} {e : ℕ → PathStimulus} {writer : StreamWriter}

/-- The controller's model along the run. -/
def models (params : WriterParams) (addrWidth : ℕ) (chip : ℕ → Word) (f : ℕ → DMAWritePath)
    (e : ℕ → PathStimulus) : ℕ → DMAWriter
  | 0 => {}
  | n + 1 => (models params addrWidth chip f e n).cycle addrWidth chip ((f n).answers params (e n))

theorem refines_models (haddr : 32 ≤ params.addrBits) (hstart : f 0 = init writer mem)
    (hstep : ∀ n, (machine params addrWidth chip).step (f n) (e n) = some (f (n + 1)))
    (hperm : ∀ n, Permitted (e n)) (n : ℕ) :
    Refines params addrWidth chip mem (f n) (models params addrWidth chip f e n) := by
  induction n with
  | zero =>
    rw [hstart]
    exact init_refines writer
  | succ n ih => exact ih.step haddr (hperm n) (hstep n)

/-- After a request has been taken. -/
theorem Refines.taken (h : Refines params addrWidth chip mem s a) {e : PathStimulus}
    {r : DMAWriteReq} (hidle : s.ctl.main_state = .main_idle) (hreq : e.req = some r)
    (hperm : Permitted e) :
    let b := a.cycle addrWidth chip (s.answers params e)
    b.req = r ∧ b.ctl.main_state = .pre_process ∧ b.ctl.v_addr_ptr = r.baseAddr_DRAM := by
  have hports : (a.ports (s.answers params e)).req = some r := hreq
  have hmain : a.ctl.main_state = .main_idle := by rw [h.ctl, hidle]
  have hbase : r.baseAddr_DRAM % 2 ^ 32 = r.baseAddr_DRAM :=
    Nat.mod_eq_of_lt (hperm r hreq).1.base_lt
  refine ⟨?_, ?_, ?_⟩
  · simp [DMAWriter.cycle, hmain, answers, hreq]
  · simp [DMAWriter.cycle, WriterCtl.cycle, WriterCtl.main, hmain, hports]
  · simpa [DMAWriter.cycle, WriterCtl.cycle, WriterCtl.main, hmain, hports] using hbase

/-- A request that reaches the last page is worked on for ever. -/
theorem overruns_models (haddr : 32 ≤ params.addrBits) (hstart : f 0 = init writer mem)
    (hstep : ∀ n, (machine params addrWidth chip).step (f n) (e n) = some (f (n + 1)))
    (hperm : ∀ n, Permitted (e n)) {n : ℕ} {r : DMAWriteReq}
    (hidle : (f n).ctl.main_state = .main_idle) (hreq : (e n).req = some r) (hlong : ¬r.Short)
    (k : ℕ) :
    (models params addrWidth chip f e (n + 1 + k)).req = r ∧
      (models params addrWidth chip f e (n + 1 + k)).Overruns := by
  induction k with
  | zero =>
    obtain ⟨hr, hpre, hv⟩ :=
      (refines_models haddr hstart hstep hperm n).taken hidle hreq (hperm n)
    rw [DMAWriteReq.Short, not_or] at hlong
    refine ⟨hr, ?_⟩
    rw [DMAWriter.Overruns, Nat.add_zero, models, hpre, hv, hr]
    dsimp only
    omega
  | succ k ih =>
    obtain ⟨hr, hover⟩ := ih
    obtain ⟨i, j, hmoves⟩ := (refines_models haddr hstart hstep hperm (n + 1 + k)).moves
    have hbusy : (models params addrWidth chip f e (n + 1 + k)).ctl.main_state ≠ .main_idle := by
      intro hidle
      rw [DMAWriter.Overruns, hidle] at hover
      exact hover
    refine ⟨(DMAWriter.req_cycle hbusy).trans hr, ?_⟩
    exact hmoves.overruns_cycle (by rwa [hr]) hover

/-- In every infinite run in which the ports are ready again and again and DRAM acknowledges what
has begun: the controller comes back to idle from a request if, and only if, the request keeps away
from the last page of the address space. -/
theorem dmaWrite_ends (writer : StreamWriter) (haddr : 32 ≤ params.addrBits)
    (hsources : 0 < params.nXacts) (hstart : f 0 = init writer mem)
    (hstep : ∀ n, (machine params addrWidth chip).step (f n) (e n) = some (f (n + 1)))
    (hperm : ∀ n, Permitted (e n)) (hfair : Fair f e) {n : ℕ} {r : DMAWriteReq}
    (hidle : (f n).ctl.main_state = .main_idle) (hreq : (e n).req = some r) :
    (∃ m, n < m ∧ (f m).ctl.main_state = .main_idle) ↔ r.Short := by
  have hmodels := refines_models haddr hstart hstep hperm
  constructor
  · rintro ⟨m, hm, hend⟩
    by_contra hlong
    obtain ⟨k, rfl⟩ := Nat.exists_eq_add_of_le hm
    have hover := (overruns_models haddr hstart hstep hperm hidle hreq hlong k).2
    rw [← (hmodels _).ctl] at hend
    rw [DMAWriter.Overruns, hend] at hover
    exact hover
  · intro hshort
    obtain ⟨hr, hpre, -⟩ := (hmodels n).taken hidle hreq (hperm n)
    have hfair' : WeakFair (fun p : DMAWriter × DMAWritePath => p.2.awaits params)
        WriteAwaited.signal (fun i => (models params addrWidth chip f e i, f i)) e := hfair.signal
    obtain ⟨m, hm⟩ := exists_of_weak_fair
      (I := fun p => Refines params addrWidth chip mem p.2 p.1 ∧ p.1.Within ∧ p.1.req.Short)
      (Q := fun p => p.2.ctl.main_state = .main_idle) (v := fun p => work params p.1 p.2)
      Nat.lt_wfRel.wf (hfair'.drop (n + 1))
      (fun i ⟨href, hwithin, hreqs⟩ hbusy => by
        obtain ⟨j, k, hmoves⟩ := href.moves
        have hmain :
            (models params addrWidth chip f e (n + 1 + i)).ctl.main_state ≠ .main_idle := by
          rw [href.ctl]
          exact hbusy
        refine ⟨⟨hmodels _, hmoves.within_cycle hreqs hwithin hmain, ?_⟩,
          href.progress hwithin hsources hbusy (hstep _)⟩
        exact (congrArg DMAWriteReq.Short (DMAWriter.req_cycle hmain)).mpr hreqs)
      ⟨hmodels _, fun _ hne => absurd hpre hne, by rw [Nat.add_zero, models, hr]; exact hshort⟩
    exact ⟨n + 1 + m, by omega, hm⟩

end runs

/-- The cycles of `acrossPage`, and then rest. -/
def endless (n : ℕ) : PathStimulus := acrossPage.getD n (eager none none)

def states : ℕ → DMAWritePath
  | 0 => init StreamStore.zeroWriter fun _ => 255
  | n + 1 => ((machine StreamStore.dmaWriter 17 DMAWriter.addresses).step (states n)
      (endless n)).getD (states n)

/-- Nothing happens any more. -/
theorem rests (s : DMAWritePath) : ∃ t,
    (machine params addrWidth chip).step s (eager none none) = some t ∧
      (s.ctl.main_state = .main_idle ∧ s.dram.writer.state = .s_idle →
        t.ctl.main_state = .main_idle ∧ t.dram.writer.state = .s_idle ∧
          t.dram.owed = s.dram.owed) := by
  refine ⟨_, rfl, fun ⟨hctl, hwriter⟩ => ⟨?_, ?_, ?_⟩⟩
  · simp [next, WriterCtl.cycle, WriterCtl.main, hctl, ports, eager]
  · simp [next, StreamStore.next, StreamWriter.cycle, StreamWriter.advance, hwriter, stimulus,
      WriterCtl.dmaReqFire, hctl]
  · funext i
    simp [next, StreamStore.next, StreamWriter.aFire, hwriter, stimulus, eager]

theorem endless_of_le {n : ℕ} (hn : 15 ≤ n) : endless n = eager none none := by
  rw [endless, List.getD_eq_getElem?_getD, List.getElem?_eq_none hn]
  rfl

theorem states_step (n : ℕ) : (machine StreamStore.dmaWriter 17 DMAWriter.addresses).step
    (states n) (endless n) = some (states (n + 1)) := by
  have hsome : ((machine StreamStore.dmaWriter 17 DMAWriter.addresses).step (states n)
      (endless n)).isSome = true := by
    have hfirst : ∀ n < 15, ((machine StreamStore.dmaWriter 17 DMAWriter.addresses).step
        (states n) (endless n)).isSome = true := by
      decide +kernel
    rcases Nat.lt_or_ge n 15 with hlt | hge
    · exact hfirst n hlt
    · rw [endless_of_le hge]
      rfl
  obtain ⟨t, ht⟩ := Option.isSome_iff_exists.mp hsome
  rw [states, ht]
  rfl

theorem endless_permitted (n : ℕ) : Permitted (endless n) := by
  have hfirst : ∀ n < 15, Permitted (endless n) := by
    decide +kernel
  rcases Nat.lt_or_ge n 15 with hlt | hge
  · exact hfirst n hlt
  · rw [endless_of_le hge]
    intro r hr
    cases hr

/-- From the end of `acrossPage` on every write is acknowledged. -/
theorem states_rest (k : ℕ) : (states (15 + k)).ctl.main_state = .main_idle ∧
    (states (15 + k)).dram.writer.state = .s_idle ∧
      ∀ i, (states (15 + k)).dram.owed i = false := by
  induction k with
  | zero =>
    refine ⟨by decide +kernel, by decide +kernel, fun i => ?_⟩
    have hinv := (refines_models (show 32 ≤ StreamStore.dmaWriter.addrBits by decide) rfl
      states_step endless_permitted 15).dram
    have hfew : ∀ i < StreamStore.dmaWriter.nXacts, (states 15).dram.owed i = false := by
      decide +kernel
    refine Bool.eq_false_iff.mpr fun howed => ?_
    rw [Nat.add_zero, hfew i (hinv.busy_lt i howed)] at howed
    cases howed
  | succ k ih =>
    obtain ⟨hctl, hwriter, howed⟩ := ih
    obtain ⟨t, ht, hrest⟩ := rests (states (15 + k))
    have hstep := states_step (15 + k)
    rw [endless_of_le (Nat.le_add_right ..), ht] at hstep
    obtain rfl := Option.some.inj hstep
    obtain ⟨hctl', hwriter', howed'⟩ := hrest ⟨hctl, hwriter⟩
    exact ⟨hctl', hwriter', fun i => (congrFun howed' i).trans (howed i)⟩

theorem dmaWrite_ends_acrossPage :
    (states 1).ctl.main_state ≠ .main_idle ∧
      ∃ m, 0 < m ∧ (states m).ctl.main_state = .main_idle := by
  refine ⟨by decide +kernel, ?_⟩
  refine (dmaWrite_ends _ (show 32 ≤ StreamStore.dmaWriter.addrBits by decide)
    (show 0 < StreamStore.dmaWriter.nXacts by decide) rfl states_step endless_permitted
    ⟨fun n => ⟨15 + n, by omega, ?_⟩, fun n => ⟨15 + n, by omega, ?_⟩, fun n howed => ?_⟩
    (show (states 0).ctl.main_state = .main_idle from rfl)
    (show (endless 0).req = some ⟨3, 2 ^ 31 + 4080, 5⟩ from rfl)).mpr (.inr (by decide))
  · rw [endless_of_le (by omega)]
    rfl
  · rw [endless_of_le (by omega)]
    rfl
  · obtain ⟨i, hi⟩ := howed (15 + n) (by omega)
    rw [(states_rest n).2.2] at hi
    cases hi

end DMAWritePath

end Course.Gemm
