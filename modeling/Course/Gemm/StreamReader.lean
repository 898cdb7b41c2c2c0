import Mathlib.Data.List.TakeDrop
import Course.Gemm.StreamReaderCore
import Course.Lib.Machine

/-! The core of the stream reader with its reservation buffer and the memory behind TileLink,
which answers the outstanding reads in any order: what comes out of the buffer are the words of
the requests, in order. -/

open Course.Lib

namespace Course.Gemm

/-- A read that the memory has taken, and the number of beats it has given for it. -/
structure Outstanding where
  toAddress : ℕ
  lgSize : ℕ
  beats : ℕ

/-- The number of beats of the whole answer. -/
def Outstanding.words (g : Outstanding) : ℕ := 2 ^ (g.lgSize - 3)

/-- `burst` is the source of an answer that has begun, whose beats follow each other; `requested`
and `delivered` are what has been taken and given out so far. -/
structure StreamFetch where
  core : StreamReaderCore
  buffer : ReservationBuffer StreamChannel
  gets : ℕ → Option Outstanding
  burst : Option ℕ
  requested : List StreamReadRequest
  delivered : List StreamChannel

/-- The other sides in a cycle: a request, who is ready, and the source of the beat on `tl.d`. -/
structure FetchStimulus where
  req : Option StreamReadRequest
  aReady : Bool
  respReady : Bool
  d : Option ℕ
  outReady : Bool

namespace StreamFetch

/-- After reset, with nothing outstanding. -/
def init (core : StreamReaderCore) (buffer : BufferBRAM StreamChannel) (xactHeads : ℕ → ℕ) :
    StreamFetch where
  core := core.reset
  buffer := .reset buffer xactHeads
  gets _ := none
  burst := none
  requested := []
  delivered := []

section Step

variable (params : StreamParams) (mem : ℕ → BitVec 64) (s : StreamFetch) (e : FetchStimulus)

/-- The beat on `tl.d`; there is none for a source without a read, or in the middle of another
answer. -/
def beat : Option (Option ReadBeat) :=
  match e.d with
  | none => some none
  | some id =>
    match s.gets id with
    | none => none
    | some g =>
      if s.burst.all fun i => decide (i = id) then
        some (some ⟨id, mem (g.toAddress + 8 * g.beats), decide (g.beats = 0),
          decide (g.beats + 1 = g.words)⟩)
      else none

def allocReady : Bool := !s.buffer.full params.outFlits (s.core.allocCount params)

/-- `tl.a.fire` -/
def sent : Bool := s.core.sendFire params e.aReady (s.allocReady params)

/-- The reads that are outstanding after a beat. -/
def answered (d : Option ReadBeat) : ℕ → Option Outstanding :=
  d.elim s.gets fun d =>
    Function.update s.gets d.source
      (if d.last then none else (s.gets d.source).map fun g => { g with beats := g.beats + 1 })

def next (d : Option ReadBeat) : StreamFetch where
  core := s.core.cycle params e.req e.aReady (s.allocReady params) e.respReady d
  buffer := s.buffer.cycle params.outFlits
    (if s.sent params e then some (s.core.xactId params, s.core.allocCount params) else none)
    (d.map fun d => (d.source, s.core.out d)) e.outReady
  gets :=
    if s.sent params e then
      Function.update (s.answered d) (s.core.xactId params)
        (some ⟨s.core.sendaddr, s.core.reqSize params, 0⟩)
    else s.answered d
  burst := d.elim s.burst fun d => if d.last then none else some d.source
  requested := s.requested ++ if s.core.state = .s_idle then e.req.toList else []
  delivered := s.delivered ++
    if s.buffer.outFire e.outReady then [s.buffer.buffer.readData] else []

def machine : Machine StreamFetch FetchStimulus where
  step s e := (s.beat mem e).map (s.next params e)

end Step

/-! ### The invariant -/

/-- The words `word` to `word + words` of the request go into the slots from `slot` on. -/
structure Place where
  request : StreamReadRequest
  word : ℕ
  words : ℕ
  slot : ℕ

variable {params : StreamParams} {mem : ℕ → BitVec 64} {s t : StreamFetch} {e : FetchStimulus}
  {all new : List StreamChannel} {read id : ℕ} {filled : ℕ → Bool} {g : Outstanding}
  {place : ℕ → Place} {p : Place} {d : Option ReadBeat}

/-- How far the read of the source `id` is. -/
structure Transfer (mem : ℕ → BitVec 64) (s : StreamFetch) (outFlits : ℕ)
    (all : List StreamChannel) (filled : ℕ → Bool) (id : ℕ) (g : Outstanding) (p : Place) :
    Prop where
  carries : s.core.Carries p.request p.word p.words id
  addr : g.toAddress = 8 * (p.request.startword + p.word)
  words : g.words = p.words
  le : p.word + p.words ≤ p.request.words
  beats : g.beats < p.words
  slots : ∀ j < p.words, all[p.slot + j]? = some (p.request.flit mem (p.word + j))
  head : s.buffer.xactHeads id = (p.slot + g.beats) % outFlits
  unfilled : ∀ j, g.beats ≤ j → j < p.words → filled (p.slot + j) = false

/-- What is reserved and what is left of the current request are the words of the requests. -/
def Asked (params : StreamParams) (mem : ℕ → BitVec 64) (s : StreamFetch)
    (all : List StreamChannel) : Prop :=
  match s.core.state with
  | .s_read => ∃ r m, s.core.Sending params r m ∧
      all ++ stretch (r.flit mem) m r.words = s.requested.flatMap (·.flits mem)
  | _ => all = s.requested.flatMap (·.flits mem)

/-- `read` of the slots reserved for `all` have been read. -/
structure Inv (params : StreamParams) (mem : ℕ → BitVec 64) (s : StreamFetch)
    (all : List StreamChannel) (read : ℕ) (filled : ℕ → Bool) (place : ℕ → Place) : Prop where
  reserves : s.buffer.Reserves params.outFlits all read filled
  read_filled : ∀ j < read, filled j = true
  busy : ∀ id, s.core.xactBusy id = (s.gets id).isSome
  transfer : ∀ id g, s.gets id = some g →
    Transfer mem s params.outFlits all filled id g (place id)
  disjoint : ∀ id id' g g', s.gets id = some g → s.gets id' = some g' → id ≠ id' →
    (place id).slot + (place id).words ≤ (place id').slot ∨
      (place id').slot + (place id').words ≤ (place id).slot
  waiting : ∀ j < all.length, filled j = false → ∃ id g, s.gets id = some g ∧
    (place id).slot + g.beats ≤ j ∧ j < (place id).slot + (place id).words
  asked : Asked params mem s all
  delivered : s.delivered = all.take (read - if s.buffer.occupied then 1 else 0)

/-- The slots with data after the beat for the `k`-th one. -/
def fill (filled : ℕ → Bool) (d : Option ReadBeat) (k : ℕ) : ℕ → Bool :=
  fun j => filled j || (d.isSome && decide (j = k))

/-- The `k`-th slot is the one the beat is for. -/
def Aims (s : StreamFetch) (place : ℕ → Place) (d : Option ReadBeat) (k : ℕ) : Prop :=
  ∀ b, d = some b → ∃ g, s.gets b.source = some g ∧ k = (place b.source).slot + g.beats ∧
    b.last = decide (g.beats + 1 = g.words)

theorem Inv.aims (h : Inv params mem s all read filled place) (hbeat : s.beat mem e = some d) :
    ∃ k, Aims s place d k ∧ ∀ id x, d.map (fun d => (d.source, s.core.out d)) = some (id, x) →
      s.buffer.xactHeads id = k % params.outFlits ∧ read ≤ k ∧ filled k = false ∧
        all[k]? = some x := by
  rw [beat] at hbeat
  split at hbeat
  next =>
    obtain rfl := Option.some.inj hbeat
    refine ⟨0, ?_, ?_⟩
    · rintro b hb
      cases hb
    · rintro id x hx
      cases hx
  next id _ =>
    split at hbeat
    next => cases hbeat
    next g hg =>
      split at hbeat
      next =>
        obtain rfl := Option.some.inj hbeat
        have htransfer := h.transfer id g hg
        have hunfilled := htransfer.unfilled g.beats le_rfl htransfer.beats
        refine ⟨(place id).slot + g.beats, ?_, ?_⟩
        · rintro b hb
          obtain rfl := Option.some.inj hb
          exact ⟨g, hg, rfl, rfl⟩
        · rintro i x hx
          obtain ⟨rfl, rfl⟩ := Prod.mk.inj (Option.some.inj hx)
          refine ⟨htransfer.head, ?_, hunfilled, ?_⟩
          · by_contra hlt
            rw [h.read_filled _ (Nat.lt_of_not_le hlt)] at hunfilled
            cases hunfilled
          · rw [htransfer.slots g.beats htransfer.beats, htransfer.addr, htransfer.words,
              htransfer.carries.out htransfer.beats htransfer.le]
      next => cases hbeat

/-- What a beat leaves of the read of a source. -/
theorem answered_eq_some {k : ℕ} {g' : Outstanding} (haims : Aims s place d k)
    (h : s.answered d id = some g') :
    ∃ g, s.gets id = some g ∧
      ((∀ b, d = some b → b.source ≠ id) ∧ g' = g ∨
        k = (place id).slot + g.beats ∧ g.beats + 1 ≠ g.words ∧ d.isSome = true ∧
          (∃ x, d.map (fun d => (d.source, s.core.out d)) = some (id, x)) ∧
          g' = { g with beats := g.beats + 1 }) := by
  cases d with
  | none => exact ⟨g', h, .inl ⟨by simp, rfl⟩⟩
  | some b =>
    obtain ⟨g, hg, rfl, hlast⟩ := haims b rfl
    rcases eq_or_ne id b.source with rfl | hne
    · have hupdate : s.answered (some b) b.source =
          if b.last then none else (s.gets b.source).map fun g => { g with beats := g.beats + 1 } :=
        Function.update_self ..
      rw [hupdate, hg] at h
      split at h
      next => cases h
      next hlast' =>
        obtain rfl := Option.some.inj h
        rw [hlast, decide_eq_true_eq] at hlast'
        exact ⟨g, hg, .inr ⟨rfl, hlast', rfl, ⟨_, rfl⟩, rfl⟩⟩
    · have hupdate : s.answered (some b) id = s.gets id := Function.update_of_ne hne ..
      rw [hupdate] at h
      refine ⟨g', h, .inl ⟨fun b' hb' => ?_, rfl⟩⟩
      obtain rfl := Option.some.inj hb'
      exact hne.symm

theorem Inv.sending (h : Inv params mem s all read filled place) (hsent : s.sent params e = true) :
    ∃ r m, s.core.Sending params r m ∧
      all ++ stretch (r.flit mem) m r.words = s.requested.flatMap (·.flits mem) := by
  have hstate := (StreamReaderCore.xactId_spec (StreamReaderCore.sendFire_spec hsent).1).1
  have hasked := h.asked
  rwa [Asked, hstate] at hasked

/-- A read goes to a free source, and there is room for its words. -/
theorem Inv.sent_spec (h : Inv params mem s all read filled place)
    (hsent : s.sent params e = true) :
    s.gets (s.core.xactId params) = none ∧
      s.buffer.count + s.core.allocCount params ≤ params.outFlits := by
  obtain ⟨hcan, -, hready⟩ := StreamReaderCore.sendFire_spec hsent
  obtain ⟨-, -, hbusy⟩ := StreamReaderCore.xactId_spec hcan
  obtain ⟨r, m, hsending, -⟩ := h.sending hsent
  obtain ⟨-, -, -, hle⟩ := hsending.allocCount
  have hcount := h.reserves.count_le
  have hslots := params.slots
  rw [h.busy] at hbusy
  rw [allocReady, Bool.not_eq_true', ReservationBuffer.full, decide_eq_false_iff_not,
    Nat.mod_eq_of_lt (by rw [StreamParams.lgMax] at hle; omega)] at hready
  exact ⟨Option.not_isSome_iff_eq_none.mp (by rw [hbusy]; exact Bool.false_ne_true),
    Nat.le_of_not_lt hready⟩

theorem fill_of_ne {k j : ℕ} (hne : j ≠ k) (d : Option ReadBeat) :
    fill filled d k j = filled j := by
  simp [fill, hne]

theorem Inv.transfer_answered (h : Inv params mem s all read filled place) {k : ℕ}
    (haims : Aims s place d k) {g' : Outstanding} (hg : s.answered d id = some g')
    (hid : s.sent params e = true → id ≠ s.core.xactId params) (new : List StreamChannel) :
    Transfer mem (s.next params e d) params.outFlits (all ++ new) (fill filled d k) id g'
      (place id) := by
  obtain ⟨g, hgets, hcase⟩ := answered_eq_some haims hg
  have htransfer := h.transfer id g hgets
  have halloc : ∀ i n, (if s.sent params e then
      some (s.core.xactId params, s.core.allocCount params) else none) = some (i, n) → i ≠ id := by
    intro i n hi
    split at hi
    next hsent =>
      obtain ⟨rfl, -⟩ := Prod.mk.inj (Option.some.inj hi)
      exact (hid hsent).symm
    next => cases hi
  have hslots : ∀ j < (place id).words, (all ++ new)[(place id).slot + j]? =
      some ((place id).request.flit mem ((place id).word + j)) := by
    intro j hj
    have hslot := htransfer.slots j hj
    rwa [List.getElem?_append_left (List.getElem?_eq_some_iff.mp hslot).1]
  rcases hcase with ⟨hne, rfl⟩ | ⟨rfl, hne, hsome, ⟨x, hdata⟩, rfl⟩
  · refine ⟨htransfer.carries.cycle hid, htransfer.addr, htransfer.words, htransfer.le,
      htransfer.beats, hslots, ?_, ?_⟩
    · rw [← htransfer.head]
      refine ReservationBuffer.xactHeads_other halloc fun i x hx => ?_
      obtain ⟨b, rfl, hb⟩ := Option.map_eq_some_iff.mp hx
      obtain ⟨rfl, -⟩ := Prod.mk.inj hb
      exact hne b rfl
    · intro j hj hjlt
      have hunfilled := htransfer.unfilled j hj hjlt
      cases d with
      | none => simpa [fill] using hunfilled
      | some b =>
        obtain ⟨gb, hgb, rfl, -⟩ := haims b rfl
        have hbeats := (h.transfer b.source gb hgb).beats
        have hdisjoint := h.disjoint b.source id gb g' hgb hgets (hne b rfl)
        rw [fill_of_ne (by omega), hunfilled]
  · have hbeats := htransfer.beats
    have hwords := htransfer.words
    have hlt : g.beats + 1 < (place id).words := by omega
    refine ⟨htransfer.carries.cycle hid, htransfer.addr, htransfer.words, htransfer.le, hlt,
      hslots, ?_, ?_⟩
    · change (s.buffer.cycle params.outFlits _ _ e.outReady).xactHeads id = _
      rw [hdata, ReservationBuffer.xactHeads_data, htransfer.head,
        ReservationBuffer.incWrap_mod params.pos params.pos]
      rfl
    · intro j hj hjlt
      have hj' : g.beats < j := hj
      rw [fill_of_ne (by omega), htransfer.unfilled j hj'.le hjlt]

theorem Inv.transfer_sent (h : Inv params mem s all read filled place) {k : ℕ}
    (haims : Aims s place d k) (hsent : s.sent params e = true) {r : StreamReadRequest} {m : ℕ}
    (hsending : s.core.Sending params r m) :
    Transfer mem (s.next params e d) params.outFlits
      (all ++ stretch (r.flit mem) m (m + s.core.allocCount params)) (fill filled d k)
      (s.core.xactId params) ⟨s.core.sendaddr, s.core.reqSize params, 0⟩
      ⟨r, m, s.core.allocCount params, all.length⟩ := by
  obtain ⟨hfree, -⟩ := h.sent_spec hsent
  obtain ⟨hpos, hle, -, -⟩ := hsending.allocCount
  have hk : d.isSome = true → k < all.length := by
    intro hsome
    obtain ⟨b, rfl⟩ := Option.isSome_iff_exists.mp hsome
    obtain ⟨g, hg, rfl, -⟩ := haims b rfl
    have htransfer := h.transfer b.source g hg
    exact (List.getElem?_eq_some_iff.mp (htransfer.slots g.beats htransfer.beats)).1
  refine ⟨hsending.carries_cycle hsent, hsending.addr, rfl, hle, hpos, ?_, ?_, ?_⟩
  · intro j hj
    rw [List.getElem?_append_right (by dsimp only; omega)]
    simp [stretch, hj]
  · change (s.buffer.cycle params.outFlits _ _ e.outReady).xactHeads _ = _
    rw [hsent, if_pos rfl, ReservationBuffer.xactHeads_alloc ?_, h.reserves.head]
    · rfl
    · intro i x hx
      obtain ⟨b, rfl, hb⟩ := Option.map_eq_some_iff.mp hx
      obtain ⟨rfl, -⟩ := Prod.mk.inj hb
      obtain ⟨g, hg, -, -⟩ := haims b rfl
      rintro heq
      rw [heq, hfree] at hg
      cases hg
  · intro j _ _
    rw [fill, Bool.or_eq_false_iff]
    constructor
    · by_contra hfill
      have := h.reserves.filled_lt _ (Bool.eq_true_of_not_eq_false hfill)
      dsimp only at this
      omega
    · cases hsome : d.isSome with
      | false => rfl
      | true =>
        have := hk hsome
        simp only [Bool.true_and, decide_eq_false_iff_not]
        omega

/-- What the read of the cycle adds, if there is one. -/
inductive Sends (params : StreamParams) (mem : ℕ → BitVec 64) (s : StreamFetch) (e : FetchStimulus)
    (all : List StreamChannel) (place : ℕ → Place) : List StreamChannel → (ℕ → Place) → Prop
  | none : s.sent params e = false → Sends params mem s e all place [] place
  | sent : s.sent params e = true → s.core.Sending params r m →
      all ++ stretch (r.flit mem) m r.words = s.requested.flatMap (·.flits mem) →
      Sends params mem s e all place (stretch (r.flit mem) m (m + s.core.allocCount params))
        (Function.update place (s.core.xactId params)
          ⟨r, m, s.core.allocCount params, all.length⟩)

variable {place' : ℕ → Place} {k : ℕ}

theorem Inv.exists_sends (h : Inv params mem s all read filled place) (e : FetchStimulus) :
    ∃ new place', Sends params mem s e all place new place' := by
  cases hsent : s.sent params e with
  | false => exact ⟨_, _, .none hsent⟩
  | true =>
    obtain ⟨r, m, hsending, hall⟩ := h.sending hsent
    exact ⟨_, _, .sent hsent hsending hall⟩

theorem gets_next_none (hsent : s.sent params e = false) :
    (s.next params e d).gets = s.answered d := by
  simp [next, hsent]

theorem gets_next_sent (hsent : s.sent params e = true) :
    (s.next params e d).gets = Function.update (s.answered d) (s.core.xactId params)
      (some ⟨s.core.sendaddr, s.core.reqSize params, 0⟩) := by
  simp [next, hsent]

theorem Inv.transfer_next (h : Inv params mem s all read filled place) (haims : Aims s place d k)
    (hsends : Sends params mem s e all place new place')
    (hg : (s.next params e d).gets id = some g) :
    Transfer mem (s.next params e d) params.outFlits (all ++ new) (fill filled d k) id g
      (place' id) := by
  cases hsends with
  | none hsent =>
    rw [gets_next_none hsent] at hg
    exact h.transfer_answered haims hg (by simp [hsent]) []
  | sent hsent hsending _ =>
    rw [gets_next_sent hsent] at hg
    rcases eq_or_ne id (s.core.xactId params) with rfl | hne
    · rw [Function.update_self] at hg
      obtain rfl := Option.some.inj hg
      rw [Function.update_self]
      exact h.transfer_sent haims hsent hsending
    · rw [Function.update_of_ne hne] at hg
      rw [Function.update_of_ne hne]
      exact h.transfer_answered haims hg (fun _ => hne) _

/-- The slots of a read are reserved ones. -/
theorem Transfer.slot_le {outFlits : ℕ} (h : Transfer mem s outFlits all filled id g p) :
    p.slot + p.words ≤ all.length := by
  have hbeats := h.beats
  have hslot := (List.getElem?_eq_some_iff.mp (h.slots (p.words - 1) (by omega))).1
  omega

theorem answered_isSome (haims : Aims s place d k) (id : ℕ) :
    (s.answered d id).isSome =
      ((s.gets id).isSome && !d.any fun b => b.last && decide (id = b.source)) := by
  cases d with
  | none => simp [answered]
  | some b =>
    obtain ⟨g, hg, -, -⟩ := haims b rfl
    rcases eq_or_ne id b.source with rfl | hne
    · cases hlast : b.last <;> simp [answered, hg, hlast]
    · simp [answered, hne]

theorem Inv.busy_next (h : Inv params mem s all read filled place) (haims : Aims s place d k)
    (id : ℕ) :
    (s.next params e d).core.xactBusy id = ((s.next params e d).gets id).isSome := by
  have hbusy := h.busy id
  have hanswered := answered_isSome haims id
  have hcycle : (s.next params e d).core.xactBusy id =
      ((s.core.xactBusy id || (s.sent params e && decide (id = s.core.xactId params))) &&
        !d.any fun b => b.last && decide (id = b.source)) := rfl
  rw [hcycle]
  cases hsent : s.sent params e with
  | false => simp [next, hsent, hanswered, hbusy]
  | true =>
    rcases eq_or_ne id (s.core.xactId params) with rfl | hne
    · have hfree := (h.sent_spec hsent).1
      have hother :
          (d.any fun b => b.last && decide (s.core.xactId params = b.source)) = false := by
        cases d with
        | none => rfl
        | some b =>
          obtain ⟨g, hg, -, -⟩ := haims b rfl
          have hne : s.core.xactId params ≠ b.source := by
            intro heq
            rw [← heq, hfree] at hg
            cases hg
          simp [hne]
      simp [next, hsent, hother]
    · simp [next, hsent, hne, hanswered, hbusy]

/-- A read that is outstanding was so before, in its place, or it is the one of the cycle. -/
theorem Sends.old_or_new (hsends : Sends params mem s e all place new place')
    (haims : Aims s place d k) (hg : (s.next params e d).gets id = some g) :
    (∃ g, s.gets id = some g ∧ place' id = place id) ∨
      id = s.core.xactId params ∧ (place' id).slot = all.length := by
  cases hsends with
  | none hsent =>
    rw [gets_next_none hsent] at hg
    obtain ⟨g, hg, -⟩ := answered_eq_some haims hg
    exact .inl ⟨g, hg, rfl⟩
  | sent hsent hsending _ =>
    rw [gets_next_sent hsent] at hg
    rcases eq_or_ne id (s.core.xactId params) with rfl | hne
    · exact .inr ⟨rfl, by rw [Function.update_self]⟩
    · rw [Function.update_of_ne hne] at hg
      obtain ⟨g, hg, -⟩ := answered_eq_some haims hg
      exact .inl ⟨g, hg, Function.update_of_ne hne ..⟩

theorem Inv.disjoint_next (h : Inv params mem s all read filled place) (haims : Aims s place d k)
    (hsends : Sends params mem s e all place new place') {id' : ℕ} {g' : Outstanding}
    (hg : (s.next params e d).gets id = some g) (hg' : (s.next params e d).gets id' = some g')
    (hne : id ≠ id') :
    (place' id).slot + (place' id).words ≤ (place' id').slot ∨
      (place' id').slot + (place' id').words ≤ (place' id).slot := by
  rcases hsends.old_or_new haims hg with ⟨g, hg, hid⟩ | ⟨rfl, hslot⟩ <;>
    rcases hsends.old_or_new haims hg' with ⟨g', hg', hid'⟩ | ⟨rfl, hslot'⟩
  · rw [hid, hid']
    exact h.disjoint id id' g g' hg hg' hne
  · rw [hid, hslot']
    exact .inl (h.transfer id g hg).slot_le
  · rw [hid', hslot]
    exact .inr (h.transfer id' g' hg').slot_le
  · exact absurd rfl hne

theorem Inv.waiting_next (h : Inv params mem s all read filled place) (haims : Aims s place d k)
    (hsends : Sends params mem s e all place new place') {j : ℕ}
    (hj : j < (all ++ new).length) (hfill : fill filled d k j = false) :
    ∃ id g, (s.next params e d).gets id = some g ∧ (place' id).slot + g.beats ≤ j ∧
      j < (place' id).slot + (place' id).words := by
  obtain ⟨hunfilled, hother⟩ := Bool.or_eq_false_iff.mp hfill
  -- a slot that waited before is not the one the beat is for
  have hold : j < all.length → ∃ id g, s.answered d id = some g ∧ (place id).slot + g.beats ≤ j ∧
      j < (place id).slot + (place id).words := by
    intro hlt
    obtain ⟨id, g, hg, hle, hlt'⟩ := h.waiting j hlt hunfilled
    cases d with
    | none => exact ⟨id, g, hg, hle, hlt'⟩
    | some b =>
      obtain ⟨gb, hgb, rfl, hlast⟩ := haims b rfl
      have hne : j ≠ (place b.source).slot + gb.beats := by simpa using hother
      rcases eq_or_ne id b.source with rfl | hid
      · obtain rfl := Option.some.inj (hg.symm.trans hgb)
        have hwords := (h.transfer b.source g hg).words
        have hmore : b.last = false := by
          rw [hlast, decide_eq_false_iff_not]
          omega
        refine ⟨b.source, { g with beats := g.beats + 1 }, ?_, ?_, hlt'⟩
        · simp [answered, hmore, hg]
        · dsimp only
          omega
      · exact ⟨id, g, by simpa [answered, hid] using hg, hle, hlt'⟩
  cases hsends with
  | none hsent =>
    rw [gets_next_none hsent]
    exact hold (by simpa using hj)
  | sent hsent hsending _ =>
    rw [gets_next_sent hsent]
    rcases Nat.lt_or_ge j all.length with hlt | hge
    · obtain ⟨id, g, hg, hle, hlt'⟩ := hold hlt
      have hne : id ≠ s.core.xactId params := by
        rintro rfl
        obtain ⟨g', hg', -⟩ := answered_eq_some haims hg
        rw [(h.sent_spec hsent).1] at hg'
        cases hg'
      exact ⟨id, g, by rw [Function.update_of_ne hne, hg], by rwa [Function.update_of_ne hne],
        by rwa [Function.update_of_ne hne]⟩
    · rw [List.length_append, length_stretch] at hj
      refine ⟨s.core.xactId params, _, Function.update_self .., ?_, ?_⟩
      · rw [Function.update_self]
        exact hge
      · rw [Function.update_self]
        dsimp only
        omega

theorem Inv.asked_next (h : Inv params mem s all read filled place)
    (hreq : s.core.state = .s_idle → ∀ r, e.req = some r → r.Fits params)
    (hsends : Sends params mem s e all place new place') :
    Asked params mem (s.next params e d) (all ++ new) := by
  have hasked := h.asked
  cases hsends with
  | none hsent =>
    have hsent' : s.core.sendFire params e.aReady (s.allocReady params) = false := hsent
    rw [List.append_nil]
    cases hstate : s.core.state with
    | s_idle =>
      rw [Asked, hstate] at hasked
      cases hreq' : e.req with
      | none => simpa [Asked, next, StreamReaderCore.cycle, hstate, hreq'] using hasked
      | some r =>
        have hsending := (StreamReaderCore.sending_onReq (c := s.core) (hreq hstate r hreq')).busy
          (s.next params e d).core.xactBusy
        have hcore : (s.next params e d).core =
            { s.core.onReq params r with xactBusy := (s.next params e d).core.xactBusy } := by
          simp [next, StreamReaderCore.cycle, hstate, hreq']
        rw [← hcore] at hsending
        have hread : (s.next params e d).core.state = .s_read := by
          rw [hcore]
          rfl
        rw [Asked, hread]
        refine ⟨r, 0, hsending, ?_⟩
        simp [next, hstate, hreq', hasked, StreamReadRequest.flits]
    | s_read =>
      rw [Asked, hstate] at hasked
      obtain ⟨r, m, hsending, hall⟩ := hasked
      have hcore : (s.next params e d).core =
          { s.core with xactBusy := (s.next params e d).core.xactBusy } := by
        simp [next, StreamReaderCore.cycle, hstate, hsent']
      have hread : (s.next params e d).core.state = .s_read := by
        rw [hcore, hstate]
      rw [Asked, hread]
      refine ⟨r, m, ?_, by simpa [next, hstate] using hall⟩
      rw [hcore]
      exact hsending.busy _
    | s_resp =>
      rw [Asked, hstate] at hasked
      cases hresp : e.respReady <;>
        simpa [Asked, next, StreamReaderCore.cycle, hstate, hresp] using hasked
  | @sent r m hsent hsending hall =>
    have hstate := (StreamReaderCore.xactId_spec (StreamReaderCore.sendFire_spec hsent).1).1
    obtain ⟨-, hle, -, -⟩ := hsending.allocCount
    have honSend := hsending.onSend hstate
    have hcore : (s.next params e d).core =
        { s.core.onSend params with xactBusy := (s.next params e d).core.xactBusy } :=
      StreamReaderCore.cycle_of_sent hsent
    have hrequested : (s.next params e d).requested = s.requested := by simp [next, hstate]
    split at honSend
    next heq =>
      have hresp : (s.next params e d).core.state = .s_resp := by
        rw [hcore]
        exact honSend
      rw [Asked, hresp, heq, hrequested]
      exact hall
    next =>
      obtain ⟨hread, hsending'⟩ := honSend
      have hread' : (s.next params e d).core.state = .s_read := by
        rw [hcore]
        exact hread
      rw [Asked, hread']
      refine ⟨r, m + s.core.allocCount params, ?_, ?_⟩
      · rw [hcore]
        exact hsending'.busy _
      · rw [hrequested, List.append_assoc, stretch_append (Nat.le_add_right ..) hle]
        exact hall

theorem Inv.delivered_next (h : Inv params mem s all read filled place) (new : List StreamChannel) :
    (s.next params e d).delivered = (all ++ new).take
      ((read + if s.buffer.ren e.outReady then 1 else 0) -
        if (s.next params e d).buffer.occupied then 1 else 0) := by
  have hdelivered := h.delivered
  have hheld := h.reserves.held
  have hle := h.reserves.read_le
  have hocc : (s.next params e d).buffer.occupied =
      (s.buffer.ren e.outReady || s.buffer.occupied && !s.buffer.outFire e.outReady) := rfl
  have hnext : (s.next params e d).delivered = s.delivered ++
      if s.buffer.outFire e.outReady then [s.buffer.buffer.readData] else [] := rfl
  have htake : ∀ n ≤ read, (all ++ new).take n = all.take n := fun n hn =>
    List.take_append_of_le_length (by omega)
  have hren : s.buffer.ren e.outReady =
      ((!s.buffer.occupied || e.outReady) && s.buffer.bufValid s.buffer.tail) := rfl
  rw [hnext, hocc, hdelivered]
  simp only [ReservationBuffer.outFire]
  rcases Bool.eq_false_or_eq_true s.buffer.occupied with hoccupied | hoccupied
  · obtain ⟨hpos, hget⟩ := hheld hoccupied
    rcases Bool.eq_false_or_eq_true e.outReady with hready | hready
    · have hlast : all.take (read - 1) ++ [s.buffer.buffer.readData] = all.take read := by
        obtain ⟨n, rfl⟩ := Nat.exists_eq_add_of_le' hpos
        rw [Nat.add_sub_cancel] at hget ⊢
        rw [List.take_add_one, hget]
        rfl
      simp only [hoccupied, hready, Bool.and_self, Bool.not_true, Bool.and_false, Bool.or_false,
        if_true, hlast, Nat.add_sub_cancel]
      exact (htake read le_rfl).symm
    · rw [hoccupied, hready] at hren
      simp only [hoccupied, hready, Bool.and_false, Bool.not_false, Bool.and_true, Bool.or_true,
        Bool.false_eq_true, if_true, if_false, List.append_nil]
      rw [hren]
      exact (htake (read - 1) (Nat.sub_le ..)).symm
  · simp only [hoccupied, Bool.false_and, Bool.false_eq_true, if_false, List.append_nil,
      Bool.or_false, Nat.sub_zero, Nat.add_sub_cancel]
    exact (htake read le_rfl).symm

theorem Inv.next (h : Inv params mem s all read filled place) (hbeat : s.beat mem e = some d)
    (hreq : s.core.state = .s_idle → ∀ r, e.req = some r → r.Fits params) :
    ∃ all read filled place, Inv params mem (s.next params e d) all read filled place := by
  obtain ⟨k, haims, hdata⟩ := h.aims hbeat
  obtain ⟨new, place', hsends⟩ := h.exists_sends e
  have hreserves : (s.next params e d).buffer.Reserves params.outFlits (all ++ new)
      (read + if s.buffer.ren e.outReady then 1 else 0) (fill filled d k) := by
    have hfill : fill filled d k = fun j => filled j ||
        ((d.map fun d => (d.source, s.core.out d)).isSome && decide (j = k)) := by
      funext j
      simp [fill]
    rw [hfill]
    refine h.reserves.cycle ?_ ?_ hdata
    · cases hsends with
      | none hsent => simp [hsent]
      | sent hsent _ _ => simp [hsent]
    · cases hsends with
      | none hsent => simpa using h.reserves.count_le
      | sent hsent _ _ => simpa using (h.sent_spec hsent).2
  refine ⟨_, _, _, _, hreserves, fun j hj => ?_, h.busy_next haims,
    fun _ _ => h.transfer_next haims hsends, fun _ _ _ _ => h.disjoint_next haims hsends,
    fun _ => h.waiting_next haims hsends, h.asked_next hreq hsends, h.delivered_next new⟩
  have hread : filled j = true := by
    split at hj
    next hren =>
      rcases Nat.lt_succ_iff_lt_or_eq.mp hj with hlt | rfl
      · exact h.read_filled j hlt
      · exact h.reserves.filled_of_ren hren
    next => exact h.read_filled j hj
  exact Bool.or_eq_true_iff.mpr (.inl hread)

theorem init_inv (params : StreamParams) (mem : ℕ → BitVec 64) (core : StreamReaderCore)
    (buffer : BufferBRAM StreamChannel) (xactHeads : ℕ → ℕ) (place : ℕ → Place) :
    Inv params mem (init core buffer xactHeads) [] 0 (fun _ => false) place where
  reserves := ReservationBuffer.reserves_reset params.pos buffer xactHeads
  read_filled j hj := by cases hj
  busy _ := rfl
  transfer _ _ hg := by cases hg
  disjoint _ _ _ _ hg := by cases hg
  waiting j hj := by cases hj
  asked := rfl
  delivered := rfl

/-- The requests that the core takes can be served. -/
def Fits (params : StreamParams) (s : StreamFetch) (e : FetchStimulus) : Prop :=
  s.core.state = .s_idle → ∀ r, e.req = some r → r.Fits params

theorem Inv.step (h : Inv params mem s all read filled place) (hfits : Fits params s e)
    (hstep : (machine params mem).step s e = some t) :
    ∃ all read filled place, Inv params mem t all read filled place := by
  obtain ⟨d, hbeat, rfl⟩ := Option.map_eq_some_iff.mp hstep
  exact h.next hbeat hfits

/-- Nothing is left to ask for, to come or to give out. -/
structure Quiet (s : StreamFetch) : Prop where
  state : s.core.state ≠ .s_read
  gets : ∀ id, s.gets id = none
  occupied : s.buffer.occupied = false
  valid : s.buffer.bufValid s.buffer.tail = false

theorem Inv.all_prefix (h : Inv params mem s all read filled place) :
    all <+: s.requested.flatMap (·.flits mem) := by
  have hasked := h.asked
  rw [Asked] at hasked
  split at hasked
  next =>
    obtain ⟨r, m, -, heq⟩ := hasked
    exact ⟨_, heq⟩
  next => exact ⟨[], by rw [List.append_nil, hasked]⟩

theorem Inv.delivered_prefix (h : Inv params mem s all read filled place) :
    s.delivered <+: s.requested.flatMap (·.flits mem) := by
  rw [h.delivered]
  exact (List.take_prefix _ _).trans h.all_prefix

/-- The word that the buffer gives out is one of a request. -/
theorem Inv.held_mem (h : Inv params mem s all read filled place)
    (hocc : s.buffer.occupied = true) :
    ∃ r ∈ s.requested, ∃ i < r.words, s.buffer.buffer.readData = r.flit mem i := by
  have hmem := h.all_prefix.subset (List.mem_of_getElem? (h.reserves.held hocc).2)
  obtain ⟨r, hr, hflit⟩ := List.mem_flatMap.mp hmem
  obtain ⟨i, hi, heq⟩ := List.mem_map.mp hflit
  exact ⟨r, hr, i, by simpa using hi, heq.symm⟩

/-- With nothing outstanding and no word at the tail, all that has been reserved has been read. -/
theorem Inv.read_eq (h : Inv params mem s all read filled place) (hgets : ∀ id, s.gets id = none)
    (hvalid : s.buffer.bufValid s.buffer.tail = false) : read = all.length := by
  refine Nat.le_antisymm h.reserves.read_le (Nat.le_of_not_lt fun hlt => ?_)
  cases hfill : filled read with
  | true =>
    have htail := (h.reserves.valid s.buffer.tail).mpr ⟨read, le_rfl, hfill, h.reserves.tail⟩
    rw [hvalid] at htail
    cases htail
  | false =>
    obtain ⟨id, g, hg, -⟩ := h.waiting read hlt hfill
    rw [hgets id] at hg
    cases hg

/-- What has been reserved has come and been given out. -/
theorem Inv.delivered_of_quiet (h : Inv params mem s all read filled place) (hquiet : Quiet s) :
    s.delivered = s.requested.flatMap (·.flits mem) := by
  have hasked := h.asked
  have hread := h.read_eq hquiet.gets hquiet.valid
  rw [h.delivered, hquiet.occupied, hread, List.take_of_length_le (by simp)]
  rw [Asked] at hasked
  split at hasked
  next hstate => exact absurd hstate hquiet.state
  next => exact hasked

/-- What TileLink asks of a `Get`: its source is free and its address aligned to its size. -/
structure Allowed (params : StreamParams) (s : StreamFetch) (g : ReadGet) : Prop where
  source_lt : g.fromSource < params.nXacts
  free : s.gets g.fromSource = none
  aligned : g.toAddress % 2 ^ g.lgSize = 0
  beat_le : 3 ≤ g.lgSize
  le_max : g.lgSize ≤ max 3 params.lgMax

theorem Inv.allowed (h : Inv params mem s all read filled place) (hsent : s.sent params e = true) :
    Allowed params s (s.core.get params) := by
  obtain ⟨-, hlt, -⟩ := StreamReaderCore.xactId_spec (StreamReaderCore.sendFire_spec hsent).1
  obtain ⟨r, m, hsending, -⟩ := h.sending hsent
  have haddr := hsending.addr
  have hlen := hsending.len
  have hm := hsending.lt
  obtain ⟨hge, hle, haligned, -⟩ := @StreamReaderCore.reqSize_spec params
    s.core (by omega) (by omega) (by omega)
  exact ⟨hlt, (h.sent_spec hsent).1, haligned, hge, hle⟩

end StreamFetch

end Course.Gemm
