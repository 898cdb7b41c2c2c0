import Course.Lib.Machine
import Mathlib.Algebra.Group.Nat.Defs

/-! `DMA_writer_Ctl` clock cycle by clock cycle, between the on-chip memory, whose
data arrive one cycle late, and a stream writer that accepts the words of a request
in order and answers after the last one. -/

namespace Course.Gemm

abbrev Word := BitVec 64

structure DMAWriteReq where
  len : ℕ
  baseAddr_DRAM : ℕ
  baseAddr_OnChipMem : ℕ
  deriving DecidableEq

/-- The states of `Enum(7)` that are used. -/
inductive MainState
  | main_idle
  | pre_process
  | query_TLB
  | dma_request
  | dma_writing
  deriving DecidableEq

inductive EnqState
  | enq_idle
  | read_array
  deriving DecidableEq

/-- The registers and the queue, as they are after reset. -/
structure WriterCtl where
  len_64b : ℕ := 0
  cur_block_len_byte : ℕ := 0
  baseAddr_DRAM : ℕ := 0
  baseAddr_OnChipMem : ℕ := 0
  p_page_id : ℕ := 0
  v_addr_ptr : ℕ := 0
  array_ptr_for_accessOnChipMem : ℕ := 0
  array_ptr_for_enq : ℕ := 0
  cur_block_ptr_64b : ℕ := 0
  main_state : MainState := .main_idle
  enq_state : EnqState := .enq_idle
  data_queue : List Word := []
  data_arrive : Bool := false

/-- What the controller reads from its ports in a cycle. -/
structure Ports where
  req : Option DMAWriteReq
  accessReady : Bool
  dataReadFromOnChipMem : Word
  dmaReqReady : Bool
  dmaInReady : Bool
  dmaRespValid : Bool

namespace WriterCtl

variable (addrWidth : ℕ) (s : WriterCtl) (p : Ports)

def total_nbytes : ℕ := s.len_64b * 2 ^ 3

def final_v_addr : ℕ := (s.baseAddr_DRAM + s.total_nbytes) % 2 ^ 32

def next_page_begin_addr : ℕ := (s.v_addr_ptr / 2 ^ 12 + 1) % 2 ^ 20 * 2 ^ 12

def p_baseAddr_to_dma : ℕ := (s.v_addr_ptr % 2 ^ 12 + s.p_page_id * 2 ^ 12) % 2 ^ 44

def is_queue_has_val : Bool := !s.data_queue.isEmpty

def is_queue_has_space : Bool := decide (s.data_queue.length < 8)

/-- `dmaWriterIO.req.fire` -/
def dmaReqFire : Bool := decide (s.main_state = .dma_request) && p.dmaReqReady

/-- `dmaWriterIO.in.fire` -/
def dmaInFire : Bool :=
  decide (s.main_state = .dma_writing) && s.is_queue_has_val &&
    decide (s.cur_block_ptr_64b < s.cur_block_len_byte / 2 ^ 3) && p.dmaInReady

/-- `data_queue.io.enq.fire` -/
def enqFire : Bool := s.data_arrive && s.is_queue_has_space

def can_access_array : Bool :=
  decide (s.array_ptr_for_enq < s.len_64b) && s.is_queue_has_space &&
    decide (s.array_ptr_for_accessOnChipMem < s.len_64b)

/-- `io.accessOnChipMem.fire` -/
def accessFire : Bool :=
  decide (s.enq_state = .read_array) && s.can_access_array && p.accessReady

def accessAddr : ℕ :=
  (s.baseAddr_OnChipMem + s.array_ptr_for_accessOnChipMem) % 2 ^ addrWidth

/-- `switch(main_state)`, with what it does to the queue. -/
def main : WriterCtl :=
  match s.main_state with
  | .main_idle =>
    match p.req with
    | none => s
    | some req => { s with
        len_64b := req.len % 2 ^ 16
        baseAddr_DRAM := req.baseAddr_DRAM % 2 ^ 32
        baseAddr_OnChipMem := req.baseAddr_OnChipMem % 2 ^ addrWidth
        v_addr_ptr := req.baseAddr_DRAM % 2 ^ 32
        main_state := .pre_process
        enq_state := .read_array }
  | .pre_process =>
    if s.v_addr_ptr < s.final_v_addr then { s with
      cur_block_len_byte :=
        (if s.next_page_begin_addr < s.final_v_addr then
          (s.next_page_begin_addr + 2 ^ 32 - s.v_addr_ptr) % 2 ^ 32
        else (s.final_v_addr + 2 ^ 32 - s.v_addr_ptr) % 2 ^ 32) % 2 ^ 16
      main_state := .query_TLB }
    else { s with main_state := .main_idle }
  | .query_TLB => { s with p_page_id := s.v_addr_ptr / 2 ^ 12, main_state := .dma_request }
  | .dma_request => if s.dmaReqFire p then { s with main_state := .dma_writing } else s
  | .dma_writing =>
    let t := if s.dmaInFire p then { s with
        cur_block_ptr_64b := (s.cur_block_ptr_64b + 1) % 2 ^ 12
        data_queue := s.data_queue.tail }
      else s
    if p.dmaRespValid then { t with
      v_addr_ptr := s.next_page_begin_addr
      cur_block_ptr_64b := 0
      main_state := .pre_process }
    else t

/-- `array_ptr_for_accessOnChipMem` in the next cycle; the last assignment counts. -/
def nextAccessPtr : ℕ :=
  if s.enq_state = .read_array ∧ s.array_ptr_for_enq = s.len_64b then 0
  else if s.accessFire p then (s.array_ptr_for_accessOnChipMem + 1) % 2 ^ 16
  else if s.data_arrive && !s.is_queue_has_space then
    (s.array_ptr_for_accessOnChipMem + 2 ^ 16 - 1) % 2 ^ 16
  else s.array_ptr_for_accessOnChipMem

def nextEnqPtr : ℕ :=
  if s.enq_state = .read_array ∧ s.array_ptr_for_enq = s.len_64b then 0
  else if s.enqFire then (s.array_ptr_for_enq + 1) % 2 ^ 16
  else s.array_ptr_for_enq

/-- One clock cycle. -/
def cycle : WriterCtl :=
  let t := s.main addrWidth p
  { t with
    data_queue :=
      if s.enqFire then t.data_queue ++ [p.dataReadFromOnChipMem] else t.data_queue
    data_arrive := s.accessFire p
    array_ptr_for_accessOnChipMem := s.nextAccessPtr p
    array_ptr_for_enq := s.nextEnqPtr
    enq_state :=
      if s.enq_state = .read_array ∧ s.array_ptr_for_enq = s.len_64b then .enq_idle
      else t.enq_state }

end WriterCtl

/-- The request that the stream writer carries out, and its bytes so far. -/
structure Stream where
  address : ℕ
  length : ℕ
  offset : ℕ
  deriving DecidableEq

/-- What the rest of the system does in a cycle: the requests, and who is ready.
`noData` is what the memory shows when nothing was read. -/
structure Stimulus where
  req : Option DMAWriteReq
  accessReady : Bool
  noData : Word
  dmaReqReady : Bool
  dmaInReady : Bool
  dmaRespValid : Bool

/-- The controller with its neighbours, and a record of the request it works on:
the words enqueued, the requests to the stream writer and the words written. -/
structure DMAWriter where
  ctl : WriterCtl := {}
  dataReadFromOnChipMem : Word := 0
  stream : Option Stream := none
  req : DMAWriteReq := ⟨0, 0, 0⟩
  enqueued : List Word := []
  streams : List (ℕ × ℕ) := []
  written : List (ℕ × Word) := []

namespace DMAWriter

/-- The stream writer is ready for a request when it has none, for words until it
has all of them, and answers then. -/
def ports (s : DMAWriter) (e : Stimulus) : Ports where
  req := e.req
  accessReady := e.accessReady
  dataReadFromOnChipMem := s.dataReadFromOnChipMem
  dmaReqReady := e.dmaReqReady && s.stream.isNone
  dmaInReady := e.dmaInReady && s.stream.any fun st => decide (st.offset < st.length)
  dmaRespValid := e.dmaRespValid && s.stream.any fun st => decide (st.length ≤ st.offset)

variable (addrWidth : ℕ) (mem : ℕ → Word) (s : DMAWriter) (e : Stimulus)

def nextStream : Option Stream :=
  match s.stream with
  | none =>
    if s.ctl.dmaReqFire (s.ports e) then
      some ⟨s.ctl.p_baseAddr_to_dma, s.ctl.cur_block_len_byte, 0⟩
    else none
  | some st =>
    if (s.ports e).dmaRespValid then none
    else if s.ctl.dmaInFire (s.ports e) then some { st with offset := st.offset + 8 }
    else some st

/-- The word that the stream writer takes, with its place in DRAM. -/
def nextWrites : List (ℕ × Word) :=
  match s.stream, s.ctl.data_queue with
  | some st, w :: _ =>
    if s.ctl.dmaInFire (s.ports e) then [(st.address + st.offset, w)] else []
  | _, _ => []

def cycle : DMAWriter :=
  let fresh := if s.ctl.main_state = .main_idle then e.req else none
  { ctl := s.ctl.cycle addrWidth (s.ports e)
    dataReadFromOnChipMem :=
      if s.ctl.accessFire (s.ports e) then mem (s.ctl.accessAddr addrWidth) else e.noData
    stream := s.nextStream e
    req := fresh.getD s.req
    enqueued :=
      if fresh.isSome then []
      else if s.ctl.enqFire then s.enqueued ++ [s.dataReadFromOnChipMem] else s.enqueued
    streams :=
      if fresh.isSome then []
      else if s.ctl.dmaReqFire (s.ports e) then
        s.streams ++ [(s.ctl.p_baseAddr_to_dma, s.ctl.cur_block_len_byte)]
      else s.streams
    written := if fresh.isSome then [] else s.written ++ s.nextWrites e }

def machine : Lib.Machine DMAWriter Stimulus where
  step s e := some (s.cycle addrWidth mem e)

end DMAWriter

end Course.Gemm
