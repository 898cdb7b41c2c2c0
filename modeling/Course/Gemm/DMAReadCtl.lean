import Course.Lib.Machine
import Mathlib.Algebra.Group.Nat.Defs

/-! `DMA_reader_Ctl` clock cycle by clock cycle, between a stream reader that returns the words
of its requests in order, and the port of the on-chip memory, which takes a write when it is
ready. -/

namespace Course.Gemm

structure DMAReadReq where
  len : ℕ
  baseAddr_DRAM : ℕ
  baseAddr_OnChipMem : ℕ
  deriving DecidableEq

/-- The states of `Enum(7)` that are used. -/
inductive ReadState
  | main_idle
  | pre_process
  | query_TLB
  | dma_request
  | dma_reading
  | dma_finish
  deriving DecidableEq

/-- The states of `Enum(3)` that are used. -/
inductive DeqState
  | deq_idle
  | write_array
  deriving DecidableEq

/-- The registers and the queue, as they are after reset. -/
structure ReaderCtl where
  len_64b : ℕ := 0
  cur_block_len : ℕ := 0
  baseAddr_DRAM : ℕ := 0
  baseAddr_OnChipMem : ℕ := 0
  p_page_id : ℕ := 0
  v_addr_ptr : ℕ := 0
  write_array_addr_ptr : ℕ := 0
  read_ptr : ℕ := 0
  main_state : ReadState := .main_idle
  deq_queue_state : DeqState := .deq_idle
  data_queue : List (BitVec 64) := []

/-- What the controller reads from its ports in a cycle: the stream reader's word is there when
it is valid. -/
structure ReaderPorts where
  req : Option DMAReadReq
  dmaReqReady : Bool
  dmaOut : Option (BitVec 64)
  accessReady : Bool

namespace ReaderCtl

variable (addrWidth : ℕ) (s : ReaderCtl) (p : ReaderPorts)

def total_nbytes : ℕ := s.len_64b * 2 ^ 3

def final_v_addr : ℕ := (s.baseAddr_DRAM + s.total_nbytes) % 2 ^ 32

def next_page_begin_addr : ℕ := (s.v_addr_ptr / 2 ^ 12 + 1) % 2 ^ 20 * 2 ^ 12

def p_baseAddr_to_dma : ℕ := (s.v_addr_ptr % 2 ^ 12 + s.p_page_id * 2 ^ 12) % 2 ^ 44

def cur_64b_len : ℕ := s.cur_block_len / 2 ^ 3

/-- `dmaReaderIO.req.fire` -/
def dmaReqFire : Bool := decide (s.main_state = .dma_request) && p.dmaReqReady

/-- `dmaReaderIO.out.ready` -/
def dmaOutReady : Bool :=
  decide (s.main_state = .dma_reading) && decide (s.read_ptr < s.cur_64b_len) &&
    decide (s.data_queue.length < 6)

/-- The word that `dmaReaderIO.out` transfers. -/
def dmaOutFire : Option (BitVec 64) := if s.dmaOutReady then p.dmaOut else none

/-- `io.accessOnChipMem.fire`, for the word at the head of the queue. -/
def accessFire : Option (BitVec 64) :=
  if s.deq_queue_state = .write_array ∧ p.accessReady then s.data_queue.head? else none

def accessAddr : ℕ := (s.baseAddr_OnChipMem + s.write_array_addr_ptr) % 2 ^ addrWidth

/-- `switch(main_state)` -/
def main : ReaderCtl :=
  match s.main_state with
  | .main_idle =>
    match p.req with
    | none => { s with write_array_addr_ptr := 0 }
    | some req => { s with
        write_array_addr_ptr := 0
        len_64b := req.len % 2 ^ 16
        baseAddr_DRAM := req.baseAddr_DRAM % 2 ^ 32
        baseAddr_OnChipMem := req.baseAddr_OnChipMem % 2 ^ addrWidth
        v_addr_ptr := req.baseAddr_DRAM % 2 ^ 32
        main_state := .pre_process }
  | .pre_process =>
    if s.v_addr_ptr < s.final_v_addr then { s with
      main_state := .query_TLB
      cur_block_len :=
        (if s.next_page_begin_addr < s.final_v_addr then
          (s.next_page_begin_addr + 2 ^ 32 - s.v_addr_ptr) % 2 ^ 32
        else (s.final_v_addr + 2 ^ 32 - s.v_addr_ptr) % 2 ^ 32) % 2 ^ 13 }
    else { s with main_state := .main_idle }
  | .query_TLB => { s with p_page_id := s.v_addr_ptr / 2 ^ 12, main_state := .dma_request }
  | .dma_request => if s.dmaReqFire p then { s with main_state := .dma_reading } else s
  | .dma_reading => { s with
      read_ptr := if (s.dmaOutFire p).isSome then (s.read_ptr + 1) % 2 ^ 12 else s.read_ptr
      main_state := if s.read_ptr = s.cur_64b_len then .dma_finish else .dma_reading }
  | .dma_finish =>
    if s.data_queue = [] then { s with
      v_addr_ptr := s.next_page_begin_addr
      main_state := .pre_process
      read_ptr := 0 }
    else s

/-- One clock cycle: the queue gets the word of the stream reader and loses the one that the
on-chip memory takes. -/
def cycle : ReaderCtl :=
  { s.main addrWidth p with
    data_queue :=
      (if (s.accessFire p).isSome then s.data_queue.tail else s.data_queue) ++
        (s.dmaOutFire p).toList
    write_array_addr_ptr :=
      if (s.accessFire p).isSome then (s.write_array_addr_ptr + 1) % 2 ^ 16
      else (s.main addrWidth p).write_array_addr_ptr
    deq_queue_state := if s.data_queue = [] then .deq_idle else .write_array }

end ReaderCtl

/-- What the rest of the system does in a cycle: the requests, who is ready, and whether the
stream reader has a word that is asked for. -/
structure ReaderStimulus where
  req : Option DMAReadReq
  dmaReqReady : Bool
  dmaOutValid : Bool
  accessReady : Bool

/-- The controller with the addresses of the words that the stream reader still owes it, and a
record of the request it works on: the requests to the stream reader and the writes on chip. -/
structure DMAReader where
  ctl : ReaderCtl := {}
  pending : List ℕ := []
  req : DMAReadReq := ⟨0, 0, 0⟩
  streams : List (ℕ × ℕ) := []
  written : List (ℕ × BitVec 32) := []

namespace DMAReader

variable (addrWidth : ℕ) (mem : ℕ → BitVec 64) (s : DMAReader) (e : ReaderStimulus)

def ports : ReaderPorts where
  req := e.req
  dmaReqReady := e.dmaReqReady
  dmaOut := if e.dmaOutValid then s.pending.head?.map mem else none
  accessReady := e.accessReady

/-- The addresses of the words of a stream request. -/
def wordsOf (address length : ℕ) : List ℕ :=
  (List.range (length / 8)).map fun i => address + 8 * i

def nextPending : List ℕ :=
  (if (s.ctl.dmaOutFire (s.ports mem e)).isSome then s.pending.tail else s.pending) ++
    if s.ctl.dmaReqFire (s.ports mem e) then
      wordsOf s.ctl.p_baseAddr_to_dma s.ctl.cur_block_len
    else []

def nextStreams : List (ℕ × ℕ) :=
  if s.ctl.dmaReqFire (s.ports mem e) then [(s.ctl.p_baseAddr_to_dma, s.ctl.cur_block_len)]
  else []

/-- The write of the cycle; the port is 32 bits wide. -/
def nextWrites : List (ℕ × BitVec 32) :=
  ((s.ctl.accessFire (s.ports mem e)).map fun w =>
    (s.ctl.accessAddr addrWidth, w.setWidth 32)).toList

def cycle : DMAReader :=
  let fresh := if s.ctl.main_state = .main_idle then e.req else none
  { ctl := s.ctl.cycle addrWidth (s.ports mem e)
    pending := s.nextPending mem e
    req := fresh.getD s.req
    streams := (if fresh.isSome then [] else s.streams) ++ s.nextStreams mem e
    written := (if fresh.isSome then [] else s.written) ++ s.nextWrites addrWidth mem e }

def machine : Lib.Machine DMAReader ReaderStimulus where
  step s e := some (s.cycle addrWidth mem e)

end DMAReader

end Course.Gemm
