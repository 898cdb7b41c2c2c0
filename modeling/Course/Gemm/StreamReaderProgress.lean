import Course.Gemm.StreamReaderRuns
import Mathlib.Algebra.GroupWithZero.Nat

/-! The stream reader never stops with work left: everything that happens in it brings it nearer
to its end, and while nothing happens it waits for TileLink. -/

open Course.Lib

namespace Course.Gemm

theorem sum_map_update {f : ℕ → ℕ} {n i : ℕ} (hi : i < n) (x : ℕ) :
    ((List.range n).map (Function.update f i x)).sum + f i = ((List.range n).map f).sum + x := by
  induction n with
  | zero => cases hi
  | succ n ih =>
    simp only [List.range_succ, List.map_append, List.map_singleton, List.sum_append,
      List.sum_singleton]
    rcases Nat.lt_succ_iff_lt_or_eq.mp hi with hlt | rfl
    · rw [Function.update_of_ne (by omega)]
      have := ih hlt
      omega
    · have hsame : (List.range i).map (Function.update f i x) = (List.range i).map f :=
        List.map_congr_left fun j hj => Function.update_of_ne (List.mem_range.mp hj).ne _ _
      rw [hsame, Function.update_self]
      omega

/-- The beats that have not come. -/
def Outstanding.left (g : Outstanding) : ℕ := g.words - g.beats

namespace StreamFetch

variable (params : StreamParams) (s : StreamFetch)

/-- The words of the request that are not asked for yet. -/
def toAsk : ℕ := if s.core.state = .s_read then s.core.sendlen / 8 else 0

/-- The words that are asked for and have not come. -/
def toCome : ℕ :=
  ((List.range params.nXacts).map fun id => (s.gets id).elim 0 Outstanding.left).sum

/-- What is left to do of the requests so far. -/
def work : ℕ :=
  5 * s.toAsk + (if s.core.state = .s_resp then 1 else 0) + s.toCome params +
    2 * s.buffer.count + (if s.buffer.occupied then 0 else 1)

/-- The sources of the reads that are outstanding. -/
def Sourced : Prop := ∀ id, (s.gets id).isSome = true → id < params.nXacts

/-- Something happens in the cycle. -/
def Active (e : FetchStimulus) (d : Option ReadBeat) : Prop :=
  s.sent params e = true ∨ d.isSome = true ∨ s.buffer.ren e.outReady = true ∨
    s.buffer.outFire e.outReady = true ∨ s.core.state = .s_resp ∧ e.respReady = true

variable {params} {s} {mem : ℕ → BitVec 64} {e : FetchStimulus} {all : List StreamChannel}
  {read : ℕ} {filled : ℕ → Bool} {place : ℕ → Place} {d : Option ReadBeat}

theorem Sourced.next (hsrc : Sourced params s)
    (haims : ∃ k, Aims s place d k) : Sourced params (s.next params e d) := by
  obtain ⟨k, haims⟩ := haims
  have hanswered : ∀ id, (s.answered d id).isSome = true → id < params.nXacts := by
    intro id hid
    obtain ⟨g', hg'⟩ := Option.isSome_iff_exists.mp hid
    cases d with
    | none => exact hsrc id hid
    | some b =>
      by_cases heq : id = b.source
      · obtain ⟨g, hg, -⟩ := haims b rfl
        exact hsrc id (by rw [heq, hg]; rfl)
      · rw [answered, Option.elim_some, Function.update_of_ne heq] at hid
        exact hsrc id hid
  intro id hid
  cases hsent : s.sent params e with
  | false =>
    rw [gets_next_none hsent] at hid
    exact hanswered id hid
  | true =>
    rw [gets_next_sent hsent] at hid
    by_cases heq : id = s.core.xactId params
    · rw [heq]
      exact (StreamReaderCore.xactId_spec (StreamReaderCore.sendFire_spec hsent).1).2.1
    · rw [Function.update_of_ne heq] at hid
      exact hanswered id hid

theorem left_update (gets : ℕ → Option Outstanding) (i : ℕ) (x : Option Outstanding) :
    (fun id => (Function.update gets i x id).elim 0 Outstanding.left) =
      Function.update (fun id => (gets id).elim 0 Outstanding.left) i
        (x.elim 0 Outstanding.left) := by
  funext id
  by_cases hid : id = i
  · subst hid
    rw [Function.update_self, Function.update_self]
  · rw [Function.update_of_ne hid, Function.update_of_ne hid]

/-- A beat is one less to come. -/
theorem Inv.toCome_answered (h : Inv params mem s all read filled place)
    (hsrc : Sourced params s) {k : ℕ} (haims : Aims s place d k) :
    ((List.range params.nXacts).map fun id => (s.answered d id).elim 0 Outstanding.left).sum +
        (if d.isSome then 1 else 0) = s.toCome params := by
  cases d with
  | none => rfl
  | some b =>
    obtain ⟨g, hg, -, hlast⟩ := haims b rfl
    have htransfer := h.transfer b.source g hg
    have hbeats := htransfer.beats
    have hwords := htransfer.words
    obtain ⟨x, hx⟩ : ∃ x, x = if b.last then none else
        (s.gets b.source).map fun g => { g with beats := g.beats + 1 } := ⟨_, rfl⟩
    have hleft : x.elim 0 Outstanding.left + 1 = g.left := by
      rw [Outstanding.left, hx, hg]
      split
      next htrue =>
        rw [hlast, decide_eq_true_eq] at htrue
        rw [Option.elim_none]
        omega
      next =>
        change g.words - (g.beats + 1) + 1 = _
        omega
    have hsum := sum_map_update (f := fun id => (s.gets id).elim 0 Outstanding.left)
      (hsrc b.source (by rw [hg]; rfl)) (x.elim 0 Outstanding.left)
    rw [← left_update, hg, Option.elim_some] at hsum
    rw [answered, Option.elim_some, ← hx, toCome, Option.isSome_some, if_pos rfl]
    omega

theorem Inv.toCome_next (h : Inv params mem s all read filled place) (hsrc : Sourced params s)
    {k : ℕ} (haims : Aims s place d k) :
    (s.next params e d).toCome params + (if d.isSome then 1 else 0) =
      s.toCome params + if s.sent params e then s.core.allocCount params else 0 := by
  have hanswered := h.toCome_answered hsrc haims
  cases hsent : s.sent params e with
  | false =>
    rw [toCome, gets_next_none hsent]
    exact hanswered
  | true =>
    obtain ⟨hfree, -⟩ := h.sent_spec hsent
    have hnone : s.answered d (s.core.xactId params) = none := by
      cases d with
      | none => exact hfree
      | some b =>
        obtain ⟨g, hg, -⟩ := haims b rfl
        have hne : s.core.xactId params ≠ b.source := by
          intro heq
          rw [heq, hg] at hfree
          cases hfree
        rw [answered, Option.elim_some, Function.update_of_ne hne]
        exact hfree
    have hlt := (StreamReaderCore.xactId_spec (StreamReaderCore.sendFire_spec hsent).1).2.1
    have hsum := sum_map_update (f := fun id => (s.answered d id).elim 0 Outstanding.left) hlt
      (Option.elim (some ⟨s.core.sendaddr, s.core.reqSize params, 0⟩) 0 Outstanding.left)
    rw [← left_update, hnone] at hsum
    rw [toCome, gets_next_sent hsent, if_pos rfl]
    simp only [Option.elim_none, Option.elim_some, Outstanding.left, Outstanding.words,
      Nat.sub_zero, Nat.add_zero] at hsum ⊢
    rw [StreamReaderCore.allocCount]
    omega

/-- What the core does. -/
theorem Inv.toAsk_next (h : Inv params mem s all read filled place)
    (hreq : s.core.state = .s_idle → e.req = none) :
    5 * (s.next params e d).toAsk +
          (if (s.next params e d).core.state = .s_resp then 1 else 0) +
        4 * (if s.sent params e then s.core.allocCount params else 0) +
        (if s.core.state = .s_resp ∧ e.respReady = true then 1 else 0) ≤
      5 * s.toAsk + (if s.core.state = .s_resp then 1 else 0) := by
  have hnone : s.core.state ≠ .s_read → s.sent params e = false := by
    intro hread
    simp [sent, StreamReaderCore.sendFire, StreamReaderCore.canSend, hread]
  rw [toAsk, toAsk]
  cases hstate : s.core.state with
  | s_idle =>
    have hnext : (s.next params e d).core.state = .s_idle := by
      simp [StreamFetch.next, StreamReaderCore.cycle, hstate, hreq hstate]
    simp [hnone (by rw [hstate]; decide), hnext]
  | s_resp =>
    have hnext : (s.next params e d).core.state =
        if e.respReady then .s_idle else .s_resp := by
      simp only [StreamFetch.next, StreamReaderCore.cycle, hstate]
      split
      next => rfl
      next => exact hstate
    cases hresp : e.respReady <;> simp [hnone (by rw [hstate]; decide), hnext, hresp]
  | s_read =>
    obtain ⟨hnext, hlen'⟩ : (s.next params e d).core.state =
          (if s.sent params e then s.core.onSend params else s.core).state ∧
        (s.next params e d).core.sendlen =
          (if s.sent params e then s.core.onSend params else s.core).sendlen := by
      simp only [StreamFetch.next, StreamReaderCore.cycle, hstate]
      exact ⟨rfl, rfl⟩
    rw [hnext, hlen']
    cases hsent : s.sent params e with
    | false => simp [hstate]
    | true =>
      obtain ⟨r, m, hsending, -⟩ := h.sending hsent
      have hlen := hsending.len
      obtain ⟨hpos, hle, -, -⟩ := hsending.allocCount
      have hafter := hsending.onSend hstate
      split at hafter
      next hlast =>
        simp only [if_true, hafter, hlen, reduceCtorEq, if_false, false_and]
        omega
      next =>
        obtain ⟨hread, hafter⟩ := hafter
        have hlen' := hafter.len
        simp only [if_true, hread, hlen, hlen', reduceCtorEq, if_false, false_and]
        omega

/-- The slots in use. -/
theorem Inv.count_next (h : Inv params mem s all read filled place) :
    (s.next params e d).buffer.count + (if s.buffer.outFire e.outReady then 1 else 0) =
      s.buffer.count + if s.sent params e then s.core.allocCount params else 0 := by
  obtain ⟨n, hn⟩ : ∃ n, n = if s.sent params e then s.core.allocCount params else 0 := ⟨_, rfl⟩
  have hroom : s.buffer.count + n ≤ params.outFlits := by
    split at hn
    next hsent =>
      rw [hn]
      exact (h.sent_spec hsent).2
    next =>
      rw [hn]
      exact h.reserves.count_le
  have hnext : (s.buffer.cycle params.outFlits
      (if s.sent params e then some (s.core.xactId params, s.core.allocCount params) else none)
      (d.map fun d => (d.source, s.core.out d)) e.outReady).count =
        s.buffer.count + (List.replicate n (⟨0, 0, false⟩ : StreamChannel)).length -
          if s.buffer.outFire e.outReady then 1 else 0 :=
    h.reserves.count_cycle (by rw [List.length_replicate, hn]; split <;> rfl)
      (by rwa [List.length_replicate])
  have hpos : s.buffer.outFire e.outReady = true → 0 < s.buffer.count := by
    intro hfire
    have hcount := h.reserves.count
    have hle := h.reserves.read_le
    rw [if_pos (by simp only [ReservationBuffer.outFire, Bool.and_eq_true] at hfire; exact hfire.1)]
      at hcount
    omega
  rw [List.length_replicate] at hnext
  change (s.buffer.cycle params.outFlits _ _ e.outReady).count + _ = _
  rw [hnext, ← hn]
  split
  next hfire =>
    have := hpos hfire
    omega
  next => rfl

/-- The slot whose word is held. -/
theorem occupied_next :
    (if (s.next params e d).buffer.occupied then 0 else 1) +
        (if s.buffer.ren e.outReady then 1 else 0) =
      (if s.buffer.occupied then 0 else 1) + if s.buffer.outFire e.outReady then 1 else 0 := by
  have hocc : (s.next params e d).buffer.occupied =
      (s.buffer.ren e.outReady || s.buffer.occupied && !s.buffer.outFire e.outReady) := rfl
  rw [hocc, ReservationBuffer.ren, ReservationBuffer.outFire]
  cases s.buffer.occupied <;> cases e.outReady <;> cases s.buffer.bufValid s.buffer.tail <;> rfl

/-- What happens is progress. -/
theorem Inv.work_next (h : Inv params mem s all read filled place) (hsrc : Sourced params s)
    {k : ℕ} (haims : Aims s place d k) (hreq : s.core.state = .s_idle → e.req = none) :
    (s.next params e d).work params < s.work params ∨
      (s.next params e d).work params = s.work params ∧ ¬s.Active params e d := by
  have hcome := h.toCome_next (e := e) hsrc haims
  have hask := h.toAsk_next (d := d) hreq
  have hcount := h.count_next (e := e) (d := d)
  have hocc := @occupied_next params s e d
  have hle : (s.next params e d).work params +
      ((if s.sent params e then s.core.allocCount params else 0) + (if d.isSome then 1 else 0) +
        (if s.buffer.ren e.outReady then 1 else 0) +
        (if s.buffer.outFire e.outReady then 1 else 0) +
        (if s.core.state = .s_resp ∧ e.respReady = true then 1 else 0)) ≤ s.work params := by
    rw [work, work]
    omega
  by_cases hactive : s.Active params e d
  · left
    rcases hactive with hsent | hd | hren | hfire | hresp
    · obtain ⟨r, m, hsending, -⟩ := h.sending hsent
      have hpos := hsending.allocCount.1
      rw [if_pos hsent] at hle
      omega
    · rw [if_pos hd] at hle
      omega
    · rw [if_pos hren] at hle
      omega
    · rw [if_pos hfire] at hle
      omega
    · rw [if_pos hresp] at hle
      omega
  · rcases Nat.lt_or_eq_of_le (show (s.next params e d).work params ≤ s.work params by omega) with
      hlt | heq
    · exact .inl hlt
    · exact .inr ⟨heq, hactive⟩

/-- The largest read has room in an empty buffer. -/
theorem room (params : StreamParams) : 2 ^ (params.lgMax - 3) ≤ params.outFlits := by
  have hslots := params.slots
  have hpos := params.pos
  have hhalf : 2 ^ ReservationBuffer.countBits params.outFlits ≤ 2 * params.outFlits := by
    have hlt := Nat.pow_pred_clog_lt_self Nat.one_lt_two (show 1 < params.outFlits + 1 by omega)
    have hbits : 0 < Nat.clog 2 (params.outFlits + 1) := Nat.clog_pos Nat.one_lt_two (by omega)
    obtain ⟨n, hn⟩ := Nat.exists_eq_add_of_le' hbits
    rw [hn] at hlt
    rw [ReservationBuffer.countBits, hn, Nat.pow_succ]
    simp only [Nat.pred_eq_sub_one, Nat.add_sub_cancel] at hlt
    omega
  rw [StreamParams.lgMax]
  omega

/-- With words left to give out, something happens or TileLink is waited for. -/
theorem Inv.waits (h : Inv params mem s all read filled place) (hsources : 0 < params.nXacts)
    (hocc : s.buffer.occupied = false) (hleft : s.delivered ≠ s.requested.flatMap (·.flits mem))
    (hquiet : ¬s.Active params e d) :
    (∃ id, (s.gets id).isSome = true) ∧ d = none ∨
      (∀ id, s.gets id = none) ∧ e.aReady = false := by
  simp only [Active, not_or] at hquiet
  obtain ⟨hsent, hd, hren, -, -⟩ := hquiet
  have hvalid : s.buffer.bufValid s.buffer.tail = false := by
    rw [ReservationBuffer.ren, hocc] at hren
    simpa using hren
  by_cases hgets : ∃ id, (s.gets id).isSome = true
  · exact .inl ⟨hgets, Option.not_isSome_iff_eq_none.mp hd⟩
  right
  have hnone : ∀ id, s.gets id = none := fun id =>
    Option.not_isSome_iff_eq_none.mp fun hsome => hgets ⟨id, hsome⟩
  refine ⟨hnone, ?_⟩
  have hread : s.core.state = .s_read := by
    by_contra hstate
    exact hleft (h.delivered_of_quiet ⟨hstate, hnone, hocc, hvalid⟩)
  -- all that has been reserved has been given out, so that the buffer is empty
  have hcount : s.buffer.count = 0 := by
    have hcount := h.reserves.count
    rw [hocc, h.read_eq hnone hvalid, if_neg Bool.false_ne_true] at hcount
    omega
  have hasked := h.asked
  rw [Asked, hread] at hasked
  obtain ⟨r, m, hsending, -⟩ := hasked
  have hroom := hsending.allocCount.2.2.2.trans (room params)
  have halloc : s.allocReady params = true := by
    have hmod := Nat.mod_le (s.core.allocCount params)
      (2 ^ ReservationBuffer.countBits params.outFlits)
    rw [allocReady, ReservationBuffer.full, hcount, Nat.zero_add, Bool.not_eq_true']
    exact decide_eq_false (by omega)
  have hcan : s.core.canSend params = true := by
    rw [StreamReaderCore.canSend, hread, Bool.and_eq_true]
    refine ⟨rfl, List.any_eq_true.mpr ⟨0, List.mem_range.mpr hsources, ?_⟩⟩
    rw [h.busy, hnone]
    rfl
  rw [sent, StreamReaderCore.sendFire, hcan, halloc] at hsent
  simpa using hsent

end StreamFetch

end Course.Gemm
