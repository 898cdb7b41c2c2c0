import Mathlib.Algebra.Group.Nat.Defs
import Mathlib.Data.Nat.Log
import Course.Lib.CircularBuffer

/-! `ReservationBuffer` with its `BufferBRAM`, clock cycle by clock cycle: slots are reserved in
the order of the requests, filled in any order and given out in the order of their reservation. -/

open Course.Lib

namespace Course.Gemm

/-- What the write registers hold after a cycle without a write is never used. -/
structure BufferBRAM (α : Type) where
  ram : ℕ → α
  wen : Bool
  waddr : ℕ
  wdata : α
  rread_data : α
  rbypass : Bool
  rbypass_data : α

namespace BufferBRAM

variable {α : Type} (b : BufferBRAM α)

/-- `io.read.data` -/
def readData : α := if b.rbypass then b.rbypass_data else b.rread_data

def cycle (read : Option ℕ) (write : Option (ℕ × α)) : BufferBRAM α where
  ram := if b.wen then Function.update b.ram b.waddr b.wdata else b.ram
  wen := write.isSome
  waddr := (write.map Prod.fst).getD b.waddr
  wdata := (write.map Prod.snd).getD b.wdata
  rread_data := (read.map b.ram).getD b.rread_data
  rbypass := (read.map fun a => decide (a = b.waddr) && b.wen).getD b.rbypass
  rbypass_data := if read.isSome then b.wdata else b.rbypass_data

/-- What a read of the slot in this cycle gets. -/
def peek (a : ℕ) : α := if b.wen ∧ a = b.waddr then b.wdata else b.ram a

theorem readData_cycle (a : ℕ) (write : Option (ℕ × α)) :
    (b.cycle (some a) write).readData = b.peek a := by
  by_cases h : b.wen ∧ a = b.waddr
  · simp [readData, cycle, peek, h]
  · rw [peek, if_neg h]
    have : (decide (a = b.waddr) && b.wen) = false := by
      rw [Bool.and_eq_false_iff]
      by_contra hboth
      simp_all
    simp [readData, cycle, this]

theorem readData_cycle_none (write : Option (ℕ × α)) :
    (b.cycle none write).readData = b.readData := rfl

theorem peek_cycle_none (read : Option ℕ) (a : ℕ) : (b.cycle read none).peek a = b.peek a := by
  cases hwen : b.wen with
  | false => simp [peek, cycle, hwen]
  | true =>
    rcases eq_or_ne a b.waddr with rfl | hne
    · simp [peek, cycle, hwen]
    · simp [peek, cycle, hwen, hne]

theorem peek_cycle_some (read : Option ℕ) (a a' : ℕ) (x : α) :
    (b.cycle read (some (a', x))).peek a = if a = a' then x else b.peek a := by
  cases hwen : b.wen with
  | false => simp [peek, cycle, hwen]
  | true =>
    rcases eq_or_ne a b.waddr with rfl | hne
    · simp [peek, cycle, hwen]
    · simp [peek, cycle, hwen, hne]

end BufferBRAM

structure ReservationBuffer (α : Type) where
  buffer : BufferBRAM α
  bufValid : ℕ → Bool
  head : ℕ
  tail : ℕ
  count : ℕ
  xactHeads : ℕ → ℕ
  occupied : Bool

namespace ReservationBuffer

variable {α : Type} (nWords : ℕ)

/-- `log2Ceil(nWords + 1)` -/
def countBits : ℕ := Nat.clog 2 (nWords + 1)

def incWrap (cur inc : ℕ) : ℕ :=
  if nWords ≤ cur + inc then cur + inc - nWords else cur + inc

/-- After reset; the registers without an initial value hold what they held. -/
def reset (buffer : BufferBRAM α) (xactHeads : ℕ → ℕ) : ReservationBuffer α where
  buffer := { buffer with wen := false }
  bufValid _ := false
  head := 0
  tail := 0
  count := 0
  xactHeads := xactHeads
  occupied := false

variable (b : ReservationBuffer α)

/-- The sum has the width of its operands. -/
def full (count : ℕ) : Bool := decide (nWords < (b.count + count) % 2 ^ countBits nWords)

def ren (outReady : Bool) : Bool := (!b.occupied || outReady) && b.bufValid b.tail

def outFire (outReady : Bool) : Bool := b.occupied && outReady

/-- One clock cycle, with the reservation that fires, as an id and a count of slots, and the
data that comes in for an id. -/
def cycle (alloc : Option (ℕ × ℕ)) (data : Option (ℕ × α)) (outReady : Bool) :
    ReservationBuffer α where
  buffer := b.buffer.cycle (if b.ren outReady then some b.tail else none)
    (data.map fun (id, x) => (b.xactHeads id, x))
  bufValid a :=
    (b.bufValid a || data.any fun (id, _) => decide (a = b.xactHeads id)) &&
      !(b.ren outReady && decide (a = b.tail))
  head := (alloc.map fun (_, count) => incWrap nWords b.head count).getD b.head
  tail := if b.ren outReady then incWrap nWords b.tail 1 else b.tail
  count := (b.count + (alloc.map Prod.snd).getD 0 + 2 ^ countBits nWords -
    (if b.outFire outReady then 1 else 0)) % 2 ^ countBits nWords
  xactHeads :=
    let heads := alloc.elim b.xactHeads fun (id, _) => Function.update b.xactHeads id b.head
    data.elim heads fun (id, _) =>
      Function.update heads id (incWrap nWords (b.xactHeads id) 1)
  occupied := b.ren outReady || b.occupied && !b.outFire outReady

variable {nWords : ℕ} {b : ReservationBuffer α}

/-- `all` is what the slots reserved so far get, `read` of them have been read, and `filled` are
those that have come. -/
structure Reserves (nWords : ℕ) (b : ReservationBuffer α) (all : List α) (read : ℕ)
    (filled : ℕ → Bool) : Prop where
  pos : 0 < nWords
  read_le : read ≤ all.length
  head : b.head = all.length % nWords
  tail : b.tail = read % nWords
  count : read + b.count = all.length + if b.occupied then 1 else 0
  count_le : b.count ≤ nWords
  held : b.occupied = true → 0 < read ∧ all[read - 1]? = some b.buffer.readData
  filled_lt : ∀ k, filled k = true → k < all.length
  valid : ∀ a, b.bufValid a = true ↔ ∃ k, read ≤ k ∧ filled k = true ∧ a = k % nWords
  stored : ∀ k, read ≤ k → filled k = true → all[k]? = some (b.buffer.peek (k % nWords))

theorem incWrap_mod {k inc : ℕ} (hpos : 0 < nWords) (hinc : inc ≤ nWords) :
    incWrap nWords (k % nWords) inc = (k + inc) % nWords := by
  have hlt := Nat.mod_lt k hpos
  rw [incWrap, ← Nat.mod_add_mod k nWords inc]
  generalize k % nWords = r at hlt
  split
  next hle => rw [Nat.mod_eq_sub_mod hle, Nat.mod_eq_of_lt (by omega)]
  next hlt' => rw [Nat.mod_eq_of_lt (by omega)]

/-- The slots of a window that is no longer than the buffer are different. -/
theorem mod_inj {read k j : ℕ} (hk : read ≤ k) (hk' : k < read + nWords) (hj : read ≤ j)
    (hj' : j < read + nWords) : k % nWords = j % nWords ↔ k = j := by
  obtain ⟨k, rfl⟩ := Nat.exists_eq_add_of_le hk
  obtain ⟨j, rfl⟩ := Nat.exists_eq_add_of_le hj
  rw [CircularBuffer.add_mod_inj (by omega) (by omega)]
  omega

theorem reserves_reset (hpos : 0 < nWords) (buffer : BufferBRAM α) (xactHeads : ℕ → ℕ) :
    Reserves nWords (reset buffer xactHeads) [] 0 fun _ => false where
  pos := hpos
  read_le := le_rfl
  head := (Nat.zero_mod _).symm
  tail := (Nat.zero_mod _).symm
  count := rfl
  count_le := Nat.zero_le _
  held h := by cases h
  filled_lt _ h := by cases h
  valid a := by simp [reset]
  stored k _ h := by cases h

variable {all new : List α} {read k : ℕ} {filled : ℕ → Bool} {alloc : Option (ℕ × ℕ)}
  {data : Option (ℕ × α)} {outReady : Bool}

theorem Reserves.window (h : Reserves nWords b all read filled) : all.length ≤ read + nWords := by
  have hcount := h.count
  have hle := h.count_le
  split at hcount <;> omega

/-- The slot that is read is the one reserved first of those left. -/
theorem Reserves.filled_of_ren (h : Reserves nWords b all read filled)
    (hren : b.ren outReady = true) : filled read = true := by
  rw [ren, Bool.and_eq_true] at hren
  obtain ⟨k, hk, hfilled, htail⟩ := (h.valid b.tail).mp hren.2
  have hlt := h.filled_lt k hfilled
  have hwindow := h.window
  rw [h.tail, mod_inj le_rfl (by have := h.pos; omega) hk (by omega)] at htail
  exact htail ▸ hfilled

theorem lt_two_pow_countBits (nWords : ℕ) : nWords < 2 ^ countBits nWords :=
  Nat.le_pow_clog Nat.one_lt_two _

theorem Reserves.mod_ne (h : Reserves nWords b all read filled) {j : ℕ} (hj : read ≤ j)
    (hjlt : j < all.length) (hk : read ≤ k) (hklt : k < all.length) (hne : j ≠ k) :
    j % nWords ≠ k % nWords := by
  have hwindow := h.window
  rwa [Ne, mod_inj hj (by omega) hk (by omega)]

theorem Reserves.count_cycle (h : Reserves nWords b all read filled)
    (hnew : (alloc.map Prod.snd).getD 0 = new.length) (hroom : b.count + new.length ≤ nWords) :
    (b.cycle nWords alloc data outReady).count =
      b.count + new.length - if b.outFire outReady then 1 else 0 := by
  have hwidth := lt_two_pow_countBits nWords
  have hcount := h.count
  have hle := h.read_le
  rw [ReservationBuffer.cycle, hnew]
  cases hocc : b.occupied with
  | false =>
    simp only [outFire, hocc, Bool.false_and, Bool.false_eq_true, if_false, Nat.sub_zero,
      Nat.add_mod_right]
    exact Nat.mod_eq_of_lt (by omega)
  | true =>
    rw [hocc, if_pos rfl] at hcount
    have hpos : 1 ≤ b.count := by omega
    have hsub : ∀ d ≤ 1, (b.count + new.length + 2 ^ countBits nWords - d) % 2 ^ countBits nWords =
        b.count + new.length - d := by
      intro d hd
      rw [Nat.sub_add_comm (by omega), Nat.add_mod_right, Nat.mod_eq_of_lt (by omega)]
    exact hsub _ (by split <;> omega)

/-- The slots with data, once the data of the cycle has come. -/
theorem Reserves.valid_data (h : Reserves nWords b all read filled)
    (hdata : ∀ id x, data = some (id, x) →
      b.xactHeads id = k % nWords ∧ read ≤ k ∧ filled k = false ∧ all[k]? = some x) (a : ℕ) :
    (b.bufValid a || data.any fun (id, _) => decide (a = b.xactHeads id)) = true ↔
      ∃ j, read ≤ j ∧ (filled j || (data.isSome && decide (j = k))) = true ∧ a = j % nWords := by
  cases data with
  | none => simpa using h.valid a
  | some d =>
    obtain ⟨id, x⟩ := d
    obtain ⟨hheads, hle, -, -⟩ := hdata id x rfl
    simp only [Option.any_some, hheads, Bool.or_eq_true, h.valid a, Option.isSome_some,
      Bool.true_and, decide_eq_true_eq]
    constructor
    · rintro (⟨j, hj, hfill, rfl⟩ | rfl)
      · exact ⟨j, hj, .inl hfill, rfl⟩
      · exact ⟨k, hle, .inr rfl, rfl⟩
    · rintro ⟨j, hj, hfill | rfl, rfl⟩
      · exact .inl ⟨j, hj, hfill, rfl⟩
      · exact .inr rfl

/-- The reservation that fires gets the slots behind all the others, the data goes into the slot
that its id points to, and a slot is given out when its data is there. -/
theorem Reserves.cycle (h : Reserves nWords b all read filled)
    (hnew : (alloc.map Prod.snd).getD 0 = new.length) (hroom : b.count + new.length ≤ nWords)
    (hdata : ∀ id x, data = some (id, x) →
      b.xactHeads id = k % nWords ∧ read ≤ k ∧ filled k = false ∧ all[k]? = some x) :
    Reserves nWords (b.cycle nWords alloc data outReady) (all ++ new)
      (read + if b.ren outReady then 1 else 0) fun j =>
        filled j || (data.isSome && decide (j = k)) := by
  have hcount := h.count
  have hreadle := h.read_le
  have hfilled : b.ren outReady = true → filled read = true := h.filled_of_ren
  have hread : b.ren outReady = true → read < all.length := fun hren =>
    h.filled_lt read (hfilled hren)
  have hk : data.isSome = true → read ≤ k ∧ k < all.length ∧ filled k = false := by
    intro hsome
    obtain ⟨⟨id, x⟩, hx⟩ := Option.isSome_iff_exists.mp hsome
    obtain ⟨-, hle, hunfilled, hget⟩ := hdata id x hx
    exact ⟨hle, (List.getElem?_eq_some_iff.mp hget).1, hunfilled⟩
  have hfilled_lt : ∀ j, (filled j || (data.isSome && decide (j = k))) = true →
      j < all.length := by
    intro j hj
    rcases Bool.or_eq_true_iff.mp hj with hj | hj
    · exact h.filled_lt j hj
    · obtain ⟨hsome, heq⟩ := Bool.and_eq_true_iff.mp hj
      obtain rfl := of_decide_eq_true heq
      exact (hk hsome).2.1
  refine ⟨h.pos, ?_, ?_, ?_, ?_, ?_, ?_, fun j hj => ?_, ?_, ?_⟩
  · rw [List.length_append]
    split
    next hren =>
      have := hread hren
      omega
    next => omega
  · rw [ReservationBuffer.cycle, List.length_append]
    cases alloc with
    | none =>
      have hzero : new.length = 0 := hnew.symm
      rw [hzero]
      exact h.head
    | some a =>
      have hlen : a.2 = new.length := hnew
      simp only [Option.map_some, Option.getD_some, hlen]
      rw [h.head]
      exact incWrap_mod h.pos (by omega)
  · rw [ReservationBuffer.cycle]
    split
    next =>
      rw [h.tail]
      exact incWrap_mod h.pos h.pos
    next => exact h.tail
  · rw [h.count_cycle hnew hroom, List.length_append]
    have hocc : (b.cycle nWords alloc data outReady).occupied =
        (b.ren outReady || b.occupied && !b.outFire outReady) := rfl
    rw [hocc]
    have hren : b.ren outReady = true → b.occupied = true → b.outFire outReady = true := by
      simp only [ren, outFire]
      cases b.occupied <;> simp +contextual
    have hfire : b.outFire outReady = true → b.occupied = true := by
      simp only [outFire]
      cases b.occupied <;> simp
    revert hren hfire hread hcount
    generalize b.ren outReady = r
    generalize b.outFire outReady = f
    generalize b.occupied = o
    cases r <;> cases f <;> cases o <;> simp <;> omega
  · rw [h.count_cycle hnew hroom]
    omega
  · intro hocc
    cases hren : b.ren outReady with
    | true =>
      rw [if_pos rfl, Nat.add_sub_cancel, ReservationBuffer.cycle, hren, if_pos rfl,
        BufferBRAM.readData_cycle, h.tail, List.getElem?_append_left (hread hren)]
      exact ⟨Nat.succ_pos read, h.stored read le_rfl (hfilled hren)⟩
    | false =>
      have hheld : b.occupied = true := by
        simp only [ReservationBuffer.cycle, hren, Bool.false_or, Bool.and_eq_true] at hocc
        exact hocc.1
      obtain ⟨hpos, hget⟩ := h.held hheld
      rw [if_neg Bool.false_ne_true, Nat.add_zero, ReservationBuffer.cycle, hren,
        if_neg Bool.false_ne_true, BufferBRAM.readData_cycle_none,
        List.getElem?_append_left (List.getElem?_eq_some_iff.mp hget).1]
      exact ⟨hpos, hget⟩
  · rw [List.length_append]
    exact Nat.lt_add_right _ (hfilled_lt j hj)
  · intro a
    rw [ReservationBuffer.cycle, Bool.and_eq_true, h.valid_data hdata a, h.tail]
    cases hren : b.ren outReady with
    | false => simp
    | true =>
      simp only [Bool.true_and, Bool.not_eq_true', decide_eq_false_iff_not, if_true]
      constructor
      · rintro ⟨⟨j, hj, hfill, rfl⟩, hne⟩
        exact ⟨j, Nat.lt_of_le_of_ne hj fun heq => hne (heq ▸ rfl), hfill, rfl⟩
      · rintro ⟨j, hj, hfill, rfl⟩
        exact ⟨⟨j, by omega, hfill, rfl⟩,
          h.mod_ne (by omega) (hfilled_lt j hfill) le_rfl (hread hren) (by omega)⟩
  · intro j hj hfill
    have hle : read ≤ j := by omega
    cases data with
    | none =>
      have hfill' : filled j = true := by simpa using hfill
      rw [ReservationBuffer.cycle, Option.map_none, BufferBRAM.peek_cycle_none,
        List.getElem?_append_left (h.filled_lt j hfill')]
      exact h.stored j hle hfill'
    | some d =>
      obtain ⟨id, x⟩ := d
      obtain ⟨hheads, hle', hunfilled, hget⟩ := hdata id x rfl
      obtain ⟨-, hklt, -⟩ := hk rfl
      rw [ReservationBuffer.cycle, Option.map_some, BufferBRAM.peek_cycle_some, hheads]
      rcases eq_or_ne j k with rfl | hne
      · rw [if_pos rfl, List.getElem?_append_left hklt]
        exact hget
      · have hfill' : filled j = true := by simpa [hne] using hfill
        have hjlt := h.filled_lt j hfill'
        rw [if_neg (h.mod_ne hle hjlt hle' hklt hne), List.getElem?_append_left hjlt]
        exact h.stored j hle hfill'

theorem xactHeads_data {id : ℕ} {x : α} :
    (b.cycle nWords alloc (some (id, x)) outReady).xactHeads id =
      incWrap nWords (b.xactHeads id) 1 :=
  Function.update_self ..

theorem xactHeads_alloc {id count : ℕ} (hdata : ∀ i x, data = some (i, x) → i ≠ id) :
    (b.cycle nWords (some (id, count)) data outReady).xactHeads id = b.head := by
  cases data with
  | none => exact Function.update_self ..
  | some d => simp [ReservationBuffer.cycle, (hdata d.1 d.2 rfl).symm]

theorem xactHeads_other {id : ℕ} (halloc : ∀ i n, alloc = some (i, n) → i ≠ id)
    (hdata : ∀ i x, data = some (i, x) → i ≠ id) :
    (b.cycle nWords alloc data outReady).xactHeads id = b.xactHeads id := by
  have hheads : (alloc.elim b.xactHeads fun (i, _) => Function.update b.xactHeads i b.head) id =
      b.xactHeads id := by
    cases alloc with
    | none => rfl
    | some a => exact Function.update_of_ne (halloc a.1 a.2 rfl).symm ..
  cases data with
  | none => exact hheads
  | some d =>
    rw [← hheads]
    exact Function.update_of_ne (hdata d.1 d.2 rfl).symm ..

end ReservationBuffer

end Course.Gemm
