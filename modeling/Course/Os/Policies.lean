import Mathlib.Data.Prod.Lex
import Course.Os.Elimination

/-! Each of the five policies ends the tasks of its list by a key: none, the
burst, the priority, the number of turns still needed, or the last two. -/

namespace Course.Os.Scheduler

variable {s : State} {c c' : Cpu} {l a b : List Task} {t x : Task}

/-! ### First come first served -/

theorem fcfs_spec (h : Listed s l) :
    ∃ s', fcfs s = some s' ∧ Elimination none (l.map fun t => (t, (0 : ℤ))) s.cpu s'.cpu := by
  induction l generalizing s with
  | nil =>
    rw [fcfs, h.head]
    exact ⟨s, rfl, .nil s.cpu⟩
  | cons t l ih =>
    obtain ⟨s₁, hdel, hs₁, hcpu⟩ := finish_spec (a := []) h
    rw [List.nil_append, List.eraseP_cons_of_pos (named_self t)] at hs₁
    obtain ⟨s', hs', helim⟩ := ih hs₁
    have hnode : s.nodes t.tid = some ⟨t, ptr l none⟩ := Listed.node (a := []) h
    refine ⟨s', ?_, ?_⟩
    · rw [fcfs, h.head]
      simp [hnode, hdel, hs']
    · rw [hcpu] at helim
      exact .finish (a := []) ⟨by simp, by simp⟩ (by simp) (by simp) helim

/-! ### Shortest job first, priority -/

section Select

variable {measure : Task → ℤ}

/-- `best` is the first smallest of the tasks the walk has passed. -/
theorem pick_loop (pre mid : List Task) {rest : List Task} {best : Task}
    (h : Listed s (pre ++ best :: (mid ++ rest)))
    (hpre : ∀ x ∈ pre, measure best < measure x) (hmid : ∀ x ∈ mid, measure best ≤ measure x) :
    ∃ a t b, pick measure s (some best.tid) (ptr rest none) = some (some t.tid) ∧
      pre ++ best :: (mid ++ rest) = a ++ t :: b ∧ (∀ x ∈ a, measure t < measure x) ∧
      ∀ x ∈ b, measure t ≤ measure x := by
  induction rest generalizing pre mid best with
  | nil =>
    refine ⟨pre, best, mid, ?_, by simp, hpre, hmid⟩
    rw [ptr, pick.eq_def]
  | cons y rest ih =>
    have hbest : s.node (some best.tid) = some ⟨best, ptr (mid ++ y :: rest) none⟩ := h.node
    have hy : s.nodes y.tid = some ⟨y, ptr rest none⟩ := by
      have hassoc : pre ++ best :: (mid ++ y :: rest) = (pre ++ best :: mid) ++ y :: rest := by simp
      exact Listed.node (hassoc ▸ h)
    by_cases hlt : measure y < measure best
    · have hassoc : pre ++ best :: (mid ++ y :: rest) =
          (pre ++ best :: mid) ++ y :: ([] ++ rest) := by
        simp
      rw [hassoc] at h ⊢
      have hbefore : ∀ x ∈ pre ++ best :: mid, measure y < measure x := by
        intro x hx
        rcases mem_middle.mp hx with rfl | hx
        · exact hlt
        · rcases List.mem_append.mp hx with hx | hx
          · exact hlt.trans (hpre x hx)
          · exact hlt.trans_le (hmid x hx)
      obtain ⟨a, t, b, hpick, hrest⟩ := ih (pre ++ best :: mid) [] h hbefore (by simp)
      refine ⟨a, t, b, ?_, hrest⟩
      rw [ptr, pick.eq_def]
      simp [hy, hbest, hlt, hpick]
    · have hassoc : pre ++ best :: (mid ++ y :: rest) = pre ++ best :: ((mid ++ [y]) ++ rest) := by
        simp
      rw [hassoc] at h ⊢
      have hafter : ∀ x ∈ mid ++ [y], measure best ≤ measure x := by
        intro x hx
        rcases List.mem_append.mp hx with hx | hx
        · exact hmid x hx
        · rw [List.mem_singleton.mp hx]
          exact not_lt.mp hlt
      obtain ⟨a, t, b, hpick, hrest⟩ := ih pre (mid ++ [y]) h hpre hafter
      refine ⟨a, t, b, ?_, hrest⟩
      rw [ptr, pick.eq_def]
      simp [hy, hbest, hlt, hpick]

theorem pick_spec (measure : Task → ℤ) (h : Listed s (x :: l)) :
    ∃ a t b, pick measure s (some x.tid) (some x.tid) = some (some t.tid) ∧
      x :: l = a ++ t :: b ∧ (∀ x ∈ a, measure t < measure x) ∧
      ∀ x ∈ b, measure t ≤ measure x := by
  have hx : s.nodes x.tid = some ⟨x, ptr l none⟩ := Listed.node (a := []) h
  obtain ⟨a, t, b, hpick, hrest⟩ := pick_loop [] [] h (by simp) (by simp)
  refine ⟨a, t, b, ?_, hrest⟩
  rw [pick.eq_def]
  simpa [State.node, hx] using hpick

/-- A turn runs and deletes the first task of the smallest measure. -/
theorem select_turn (measure : Task → ℤ) (h : Listed s (x :: l)) :
    ∃ a t b s', x :: l = a ++ t :: b ∧ (∀ x ∈ a, measure t < measure x) ∧
      (∀ x ∈ b, measure t ≤ measure x) ∧ Listed s' ((a ++ [t]).eraseP (named t) ++ b) ∧
      s'.cpu = s.cpu.run t t.burst ∧ select measure s = select measure s' := by
  obtain ⟨a, t, b, hpick, hl, hbefore, hafter⟩ := pick_spec measure h
  have hhead : s.head = some x.tid := h.head
  rw [hl] at h
  have hnode : s.node (some t.tid) = some ⟨t, ptr b none⟩ := h.node
  obtain ⟨s', hdel, hs', hcpu⟩ := finish_spec h
  refine ⟨a, t, b, s', hl, hbefore, hafter, hs', hcpu, ?_⟩
  rw [select, hhead]
  simp [hpick, hnode, hdel]

theorem select_spec (measure : Task → ℤ) (h : Listed s l) :
    ∃ s', select measure s = some s' ∧
      Elimination none (l.map fun t => (t, measure t)) s.cpu s'.cpu := by
  induction hn : l.length generalizing s l with
  | zero =>
    obtain rfl := List.length_eq_zero_iff.mp hn
    rw [select, h.head]
    exact ⟨s, rfl, .nil s.cpu⟩
  | succ n ih =>
    cases l with
    | nil => cases hn
    | cons x l =>
      obtain ⟨a, t, b, s₁, hl, hbefore, hafter, hs₁, hcpu, hturn⟩ := select_turn measure h
      rw [hl] at hn ⊢
      obtain ⟨s', hs', helim⟩ := ih hs₁ (by
        rw [List.length_append, List.length_eraseP_of_mem (a := t) (by simp) (named_self t)]
        simp only [List.length_append, List.length_cons, List.length_nil] at hn ⊢
        omega)
      refine ⟨s', hturn.trans hs', ?_⟩
      rw [hcpu] at helim
      rw [List.map_append, List.map_cons]
      refine .turn ⟨by simpa using hbefore, by simpa using hafter⟩ (by simp) ?_ ?_ helim
      · simp [List.map_map, Function.comp_def]
      · intro hfree
        rw [eraseP_of_free (by simpa using hfree), List.map_append]

end Select

/-! ### Turns of the round robin policies -/

/-- The turns a task still needs. -/
def rounds (t : Task) : ℤ := (t.burst + 4) / 5

/-- The time still to be given. -/
def total (l : List Task) : ℕ := (l.map fun t => t.burst.toNat).sum

theorem total_append (a b : List Task) : total (a ++ b) = total a + total b := by
  simp [total]

theorem forall_served {P : Task → Prop} (h : ∀ x ∈ a ++ t :: b, P x)
    (hslice : TIME_QUANTUM < t.burst → P { t with burst := t.burst - TIME_QUANTUM }) :
    ∀ x ∈ served a t ++ b, P x := by
  intro x hx
  rw [served] at hx
  split at hx
  next => exact h x (mem_of_mem_finish hx)
  next hlt =>
    rw [← List.append_cons] at hx
    rcases mem_middle.mp hx with rfl | hx
    · exact hslice (not_le.mp hlt)
    · exact h x (mem_middle.mpr (.inr hx))

theorem total_served (hpos : ∀ x ∈ a ++ t :: b, 0 < x.burst) :
    total (served a t ++ b) < total (a ++ t :: b) := by
  rw [List.append_cons a t b, total_append, total_append]
  apply Nat.add_lt_add_right
  rw [served]
  split
  next =>
    obtain ⟨x, l₁, l₂, -, -, hl, herase⟩ :=
      List.exists_of_eraseP (l := a ++ [t]) (a := t) (by simp) (named_self t)
    have hx := hpos x (by
      rw [List.append_cons, hl]
      simp)
    rw [herase, hl, total_append, total_append]
    simp only [total, List.map_cons, List.sum_cons]
    omega
  next hlt =>
    rw [total_append, total_append]
    simp only [total, TIME_QUANTUM, List.map_cons, List.map_nil, List.sum_cons, List.sum_nil]
      at hlt ⊢
    omega

theorem rounds_pos (h : 0 < t.burst) : 1 ≤ rounds t := by
  rw [rounds]
  omega

theorem rounds_of_le (hpos : 0 < t.burst) (hle : t.burst ≤ TIME_QUANTUM) : rounds t = 1 := by
  rw [TIME_QUANTUM] at hle
  rw [rounds]
  omega

theorem rounds_slice (t : Task) :
    rounds { t with burst := t.burst - TIME_QUANTUM } + 1 = rounds t := by
  simp only [rounds, TIME_QUANTUM]
  omega

/-- A turn, for any keys under which the task served comes first when it ends
and keeps its key when it does not. -/
theorem serve_elim {α : Type} [LinearOrder α] {before after : Task → α}
    (hfirst : t.burst ≤ TIME_QUANTUM →
      (∀ x ∈ a, after t < before x) ∧ ∀ x ∈ b, after t ≤ after x)
    (hslice : TIME_QUANTUM < t.burst →
      before { t with burst := t.burst - TIME_QUANTUM } = after t)
    (h : Elimination (some TIME_QUANTUM)
      ((served a t).map (fun x => (x, before x)) ++ b.map fun x => (x, after x))
      (c.run t (share t)) c') :
    Elimination (some TIME_QUANTUM)
      (a.map (fun x => (x, before x)) ++ (t :: b).map fun x => (x, after x)) c c' := by
  rw [List.map_cons]
  rw [served, share] at h
  by_cases hle : t.burst ≤ TIME_QUANTUM
  · simp only [if_pos hle] at h
    refine .turn ⟨by simpa using (hfirst hle).1, by simpa using (hfirst hle).2⟩
      (by simpa using hle) ?_ ?_ h
    · simp [List.map_map, Function.comp_def]
    · intro hfree
      rw [eraseP_of_free (by simpa using hfree)]
  · simp only [if_neg hle] at h
    refine .slice rfl (not_le.mp hle) ?_
    rwa [List.map_append, List.map_cons, List.map_nil, hslice (not_le.mp hle),
      ← List.append_cons] at h

theorem head_of_middle (h : Listed s (a ++ t :: b)) : ∃ q, s.head = some q := by
  rw [h.head]
  cases a <;> exact ⟨_, rfl⟩

/-! ### Round robin -/

section RoundRobin

/-- The tasks before the cursor have had their turn of this pass. -/
def turns (a b : List Task) : List (Task × ℤ) :=
  a.map (fun t => (t, rounds t + 1)) ++ b.map fun t => (t, rounds t)

theorem ordered_turns_wrap (l : List Task) : Ordered (turns l []) ↔ Ordered (turns [] l) := by
  simp [turns, Ordered, List.pairwise_map]

theorem rr_spec (h : Listed s (a ++ b)) (hb : b = [] → a = []) (hpos : ∀ x ∈ a ++ b, 0 < x.burst) :
    ∃ s', rr s (ptr b none) = some s' ∧
      Elimination (some TIME_QUANTUM) (turns a b) s.cpu s'.cpu := by
  induction hn : total (a ++ b) using Nat.strong_induction_on generalizing s a b with
  | _ n ih =>
    subst hn
    cases b with
    | nil =>
      obtain rfl := hb rfl
      rw [rr, h.head]
      exact ⟨s, rfl, .nil s.cpu⟩
    | cons t b =>
      obtain ⟨s₁, hserve, hs₁, hcpu⟩ := serve_spec h
      obtain ⟨p, hhead⟩ := head_of_middle h
      have hlt := total_served hpos
      have hpos₁ : ∀ x ∈ served a t ++ b, 0 < x.burst :=
        forall_served hpos fun hlt => Int.sub_pos_of_lt hlt
      have hnext : ∃ s', rr s₁ (if ptr b none = none then s₁.head else ptr b none) = some s' ∧
          Elimination (some TIME_QUANTUM) (turns (served a t) b) s₁.cpu s'.cpu := by
        cases b with
        | nil =>
          -- the cursor is at the end and goes back to `head`
          rw [List.append_nil] at hs₁ hpos₁ hlt
          obtain ⟨s', hs', helim⟩ :=
            ih _ hlt (a := []) (b := served a t) hs₁ (fun _ => rfl) hpos₁ rfl
          refine ⟨s', by simpa [hs₁.head] using hs', ?_⟩
          exact .rekey (by simp [turns, Function.comp_def]) (ordered_turns_wrap _) helim
        | cons y b => exact ih _ hlt hs₁ (by simp) hpos₁ rfl
      obtain ⟨s', hs', helim⟩ := hnext
      refine ⟨s', ?_, ?_⟩
      · rw [rr, hhead]
        simp only [ptr_cons, hserve, Option.bind_eq_bind, Option.bind_some]
        exact hs'
      · rw [hcpu] at helim
        refine serve_elim (fun hle => ⟨fun x hx => ?_, fun x hx => ?_⟩)
          (fun _ => rounds_slice t) helim
        · rw [rounds_of_le (hpos t (by simp)) hle]
          have := rounds_pos (hpos x (by simp [hx]))
          omega
        · rw [rounds_of_le (hpos t (by simp)) hle]
          exact rounds_pos (hpos x (by simp [hx]))

end RoundRobin

/-! ### Priority round robin -/

section PriorityRoundRobin

variable {p : ℤ}

/-- A task before the cursor has had its turn of this pass if it has the
priority of the pass. -/
def passed (p : ℤ) (t : Task) : ℤ ×ₗ ℤ :=
  toLex (t.priority, rounds t + if t.priority = p then 1 else 0)

def ahead (t : Task) : ℤ ×ₗ ℤ := toLex (t.priority, rounds t)

def passes (p : ℤ) (a b : List Task) : List (Task × (ℤ ×ₗ ℤ)) :=
  a.map (fun t => (t, passed p t)) ++ b.map fun t => (t, ahead t)

theorem passed_of_ne (h : t.priority ≠ p) : passed p t = ahead t := by
  rw [passed, ahead, if_neg h, add_zero]

theorem passed_le_iff (p : ℤ) (t x : Task) : passed p t ≤ passed p x ↔ ahead t ≤ ahead x := by
  simp only [passed, ahead, Prod.Lex.toLex_le_toLex]
  by_cases heq : t.priority = x.priority
  · rw [heq, Int.add_le_add_iff_right]
  · simp [heq]

theorem ordered_passes_wrap (p : ℤ) (l : List Task) :
    Ordered (passes p l []) ↔ Ordered (passes p [] l) := by
  simp [passes, Ordered, List.pairwise_map, passed_le_iff]

theorem ahead_first (ht : t.priority = p) (hle : t.burst ≤ TIME_QUANTUM)
    (hpos : ∀ x ∈ a ++ t :: b, 0 < x.burst) (hp : ∀ x ∈ a ++ t :: b, p ≤ x.priority) :
    (∀ x ∈ a, ahead t < passed p x) ∧ ∀ x ∈ b, ahead t ≤ ahead x := by
  have hrounds := rounds_of_le (hpos t (by simp)) hle
  constructor
  · intro x hx
    have hxp := hp x (by simp [hx])
    have hxr := rounds_pos (hpos x (by simp [hx]))
    rw [ahead, passed, Prod.Lex.toLex_lt_toLex, ht, hrounds]
    by_cases heq : x.priority = p
    · exact .inr ⟨heq.symm, by simp only [heq, if_true]; omega⟩
    · exact .inl (by simp only; omega)
  · intro x hx
    have hxp := hp x (by simp [hx])
    have hxr := rounds_pos (hpos x (by simp [hx]))
    rw [ahead, ahead, Prod.Lex.toLex_le_toLex, ht, hrounds]
    simp only
    omega

/-- The walk for one priority over the tasks before and behind the cursor, with
the tasks that are left at its end. -/
inductive Walk (p : ℤ) : Bool → List Task → List Task → Cpu → List Task → Cpu → Prop
  | empty {exist : Bool} {c : Cpu} : Walk p exist [] [] c [] c
  | serve {exist : Bool} {t : Task} {a b l : List Task} {c c' : Cpu} : t.priority = p →
      Walk p true (served a t) b (c.run t (share t)) l c' → Walk p exist a (t :: b) c l c'
  | skip {exist : Bool} {t : Task} {a b l : List Task} {c c' : Cpu} : t.priority ≠ p →
      Walk p exist (a ++ [t]) b c l c' → Walk p exist a (t :: b) c l c'
  | wrap {a l : List Task} {c c' : Cpu} : Walk p false [] a c l c' → Walk p true a [] c l c'
  | stop {a : List Task} {c : Cpu} : Walk p false a [] c a c

/-- The loop at a task of the priority: behind the last one a new pass begins. -/
theorem level_serve (h : Listed s (a ++ t :: b)) (ht : t.priority = p)
    (hserve : serve s (ptr (t :: b) none) = some (s₁, ptr b none)) (exist : Bool) :
    level p s exist (ptr (t :: b) none) =
      if b = [] then level p s₁ false s₁.head else level p s₁ true (ptr b none) := by
  obtain ⟨q, hhead⟩ := head_of_middle h
  have hnode : s.node (some t.tid) = some ⟨t, ptr b none⟩ := h.node
  rw [ptr_cons] at hserve ⊢
  rw [level, hhead]
  simp only [hnode, ht, if_true, hserve, Option.bind_eq_bind, Option.bind_some]
  cases b <;> rfl

/-- The loop at another task: behind the last one it ends if no task ran in this pass. -/
theorem level_skip (h : Listed s (a ++ t :: b)) (ht : t.priority ≠ p) (exist : Bool) :
    level p s exist (ptr (t :: b) none) =
      if b = [] then if exist then level p s false s.head else some (s, s.head)
      else level p s exist (ptr b none) := by
  obtain ⟨q, hhead⟩ := head_of_middle h
  have hnode : s.node (some t.tid) = some ⟨t, ptr b none⟩ := h.node
  rw [ptr_cons, level, hhead]
  simp only [hnode, ht, if_false, Option.bind_eq_bind, Option.bind_some]
  rw [hhead]
  cases b <;> rfl

/-- The loop over the nodes is the walk over the list. -/
theorem level_walk (exist : Bool) (h : Listed s (a ++ b)) (hb : b = [] → a = [])
    (hpos : ∀ x ∈ a ++ b, 0 < x.burst) :
    ∃ s' l, level p s exist (ptr b none) = some (s', ptr l none) ∧ Listed s' l ∧
      Walk p exist a b s.cpu l s'.cpu := by
  -- a turn shortens what is due, a skip the way to the end, a new pass clears `exist`
  induction hm : toLex (total (a ++ b) + exist.toNat, b.length) using WellFoundedLT.induction
    generalizing s exist a b with
  | _ m ih =>
  subst hm
  cases b with
  | nil =>
    obtain rfl := hb rfl
    refine ⟨s, [], ?_, h, .empty⟩
    rw [level, h.head]
    rfl
  | cons t b =>
    by_cases ht : t.priority = p
    · obtain ⟨s₁, hserve, hs₁, hcpu⟩ := serve_spec h
      have hlt := total_served hpos
      have hpos₁ : ∀ x ∈ served a t ++ b, 0 < x.burst :=
        forall_served hpos fun hlt => Int.sub_pos_of_lt hlt
      rw [level_serve h ht hserve]
      cases b with
      | nil =>
        rw [List.append_nil] at hs₁ hpos₁ hlt
        obtain ⟨s', l, hlevel, hl, hwalk⟩ :=
          ih (toLex (total (served a t) + 0, (served a t).length))
            (Prod.Lex.toLex_lt_toLex.mpr (.inl (by simp only; omega))) false (a := [])
            (b := served a t) hs₁ (fun _ => rfl) hpos₁ rfl
        rw [if_pos rfl, hs₁.head]
        exact ⟨s', l, hlevel, hl, .serve ht (hcpu ▸ .wrap hwalk)⟩
      | cons y b =>
        obtain ⟨s', l, hlevel, hl, hwalk⟩ := ih
          (toLex (total (served a t ++ y :: b) + 1, (y :: b).length))
          (Prod.Lex.toLex_lt_toLex.mpr (by
            simp only [List.length_cons]
            omega)) true hs₁ (by simp) hpos₁ rfl
        rw [if_neg (List.cons_ne_nil y b)]
        exact ⟨s', l, hlevel, hl, .serve ht (hcpu ▸ hwalk)⟩
    · rw [level_skip h ht]
      rw [List.append_cons] at h hpos
      cases b with
      | nil =>
        rw [List.append_nil] at h hpos
        rw [if_pos rfl, h.head]
        cases exist with
        | true =>
          obtain ⟨s', l, hlevel, hl, hwalk⟩ :=
            ih (toLex (total (a ++ [t]) + 0, (a ++ [t]).length))
              (Prod.Lex.toLex_lt_toLex.mpr (.inl (by simp))) false (a := [])
              (b := a ++ [t]) h (fun _ => rfl) hpos rfl
          exact ⟨s', l, hlevel, hl, .skip ht (.wrap hwalk)⟩
        | false =>
          -- a pass that ran no task
          exact ⟨s, a ++ [t], rfl, h, .skip ht .stop⟩
      | cons y b =>
        obtain ⟨s', l, hlevel, hl, hwalk⟩ := ih
          (toLex (total (a ++ [t] ++ y :: b) + exist.toNat, (y :: b).length))
          (Prod.Lex.toLex_lt_toLex.mpr (by simp)) exist h (by simp) hpos rfl
        rw [if_neg (List.cons_ne_nil y b)]
        exact ⟨s', l, hlevel, hl, .skip ht hwalk⟩

/-- The tasks left by a walk are as due as before, and of later priorities. -/
theorem Walk.leaves {exist : Bool} (h : Walk p exist a b c l c')
    (hpos : ∀ x ∈ a ++ b, 0 < x.burst) (hp : ∀ x ∈ a ++ b, p ≤ x.priority)
    (hexist : exist = false → ∀ x ∈ a, x.priority ≠ p) :
    (∀ x ∈ l, 0 < x.burst) ∧ (∀ x ∈ l, p < x.priority) ∧
      (∀ x ∈ l, ∃ y ∈ a ++ b, x.priority = y.priority) ∧
      ∀ c'', Elimination (some TIME_QUANTUM) (passes p [] l) c' c'' →
        Elimination (some TIME_QUANTUM) (passes p a b) c c'' := by
  induction h with
  | empty => exact ⟨by simp, by simp, by simp, fun c hc => hc⟩
  | @serve exist t a b l c c' ht _ ih =>
    have hpriority : ∀ x ∈ served a t ++ b, ∃ y ∈ a ++ t :: b, x.priority = y.priority :=
      forall_served (fun x hx => ⟨x, hx, rfl⟩) fun _ => ⟨t, by simp, rfl⟩
    obtain ⟨hpos', hlater, hprio, helim⟩ := ih
      (forall_served hpos fun hlt => Int.sub_pos_of_lt hlt) (forall_served hp fun _ => ht.ge)
      (by simp)
    refine ⟨hpos', hlater, fun x hx => ?_, fun c'' hc => ?_⟩
    · obtain ⟨y, hy, hxy⟩ := hprio x hx
      obtain ⟨z, hz, hyz⟩ := hpriority y hy
      exact ⟨z, hz, hxy.trans hyz⟩
    · refine serve_elim (fun hle => ahead_first ht hle hpos hp) (fun _ => ?_) (helim c'' hc)
      rw [passed, ahead, if_pos ht, rounds_slice]
  | @skip exist t a b l c c' ht _ ih =>
    rw [List.append_cons] at hpos hp
    obtain ⟨hpos', hlater, hprio, helim⟩ := ih hpos hp fun he =>
      List.forall_mem_append.mpr ⟨hexist he, List.forall_mem_singleton.mpr ht⟩
    refine ⟨hpos', hlater, by simpa using hprio, fun c'' hc => ?_⟩
    have hskip : passes p a (t :: b) = passes p (a ++ [t]) b := by
      simp [passes, passed_of_ne ht]
    rw [hskip]
    exact helim c'' hc
  | @wrap a l c c' _ ih =>
    rw [List.append_nil] at hpos hp
    obtain ⟨hpos', hlater, hprio, helim⟩ := ih hpos hp (by simp)
    refine ⟨hpos', hlater, by simpa using hprio, fun c'' hc => ?_⟩
    exact .rekey (by simp [passes, Function.comp_def]) (ordered_passes_wrap p _) (helim c'' hc)
  | @stop a c =>
    rw [List.append_nil] at hpos hp
    refine ⟨hpos, fun x hx => lt_of_le_of_ne (hp x hx) (hexist rfl x hx).symm,
      fun x hx => ⟨x, by simpa using hx, rfl⟩, fun c'' hc => ?_⟩
    have hsame : passes p a [] = passes p [] a := by
      simp only [passes, List.map_nil, List.append_nil, List.nil_append]
      exact List.map_congr_left fun x hx => by rw [passed_of_ne (hexist rfl x hx)]
    rwa [hsame]

/-- The walk for one priority ends, with the tasks of the later ones. -/
structure LevelEnds (p : ℤ) (s : State) (exist : Bool) (a b : List Task) (s' : State)
    (l : List Task) : Prop where
  result : level p s exist (ptr b none) = some (s', ptr l none)
  listed : Listed s' l
  pos : ∀ x ∈ l, 0 < x.burst
  later : ∀ x ∈ l, p < x.priority
  priority : ∀ x ∈ l, ∃ y ∈ a ++ b, x.priority = y.priority
  elim : ∀ c, Elimination (some TIME_QUANTUM) (passes p [] l) s'.cpu c →
    Elimination (some TIME_QUANTUM) (passes p a b) s.cpu c

theorem level_spec (exist : Bool) (h : Listed s (a ++ b)) (hb : b = [] → a = [])
    (hpos : ∀ x ∈ a ++ b, 0 < x.burst) (hp : ∀ x ∈ a ++ b, p ≤ x.priority)
    (hexist : exist = false → ∀ x ∈ a, x.priority ≠ p) :
    ∃ s' l, LevelEnds p s exist a b s' l := by
  obtain ⟨s', l, hlevel, hl, hwalk⟩ := level_walk exist h hb hpos
  obtain ⟨hpos', hlater, hpriority, helim⟩ := hwalk.leaves hpos hp hexist
  exact ⟨s', l, hlevel, hl, hpos', hlater, hpriority, helim⟩

/-- No task is left when the priorities have been counted through. -/
theorem eq_nil_of_priority (h : ∀ x ∈ l, p ≤ x.priority ∧ x.priority ≤ MAX_PRIORITY)
    (hp : MAX_PRIORITY < p) : l = [] := by
  apply List.eq_nil_iff_forall_not_mem.mpr
  intro x hx
  have := h x hx
  omega

theorem levels_spec (h : Listed s l) (hpos : ∀ x ∈ l, 0 < x.burst)
    (hp : ∀ x ∈ l, p ≤ x.priority ∧ x.priority ≤ MAX_PRIORITY) :
    ∃ s', levels p s (ptr l none) = some s' ∧
      Elimination (some TIME_QUANTUM) (l.map fun t => (t, ahead t)) s.cpu s'.cpu := by
  induction hn : (MAX_PRIORITY + 1 - p).toNat generalizing p s l with
  | zero =>
    obtain rfl := eq_nil_of_priority hp (by omega)
    rw [levels, if_neg (by omega)]
    exact ⟨s, rfl, .nil s.cpu⟩
  | succ n ih =>
    obtain ⟨s₁, l₁, hl₁⟩ := level_spec (p := p) false (a := []) (b := l) h (fun _ => rfl) hpos
      (fun x hx => (hp x hx).1) (by simp)
    have hlater : ∀ x ∈ l₁, p + 1 ≤ x.priority ∧ x.priority ≤ MAX_PRIORITY := by
      intro x hx
      obtain ⟨y, hy, hxy⟩ := hl₁.priority x hx
      exact ⟨hl₁.later x hx, hxy ▸ (hp y hy).2⟩
    obtain ⟨s', hs', helim⟩ := ih hl₁.listed hl₁.pos hlater (by omega)
    refine ⟨s', ?_, ?_⟩
    · rw [levels, if_pos (by omega), hl₁.result]
      exact hs'
    · simpa [passes] using hl₁.elim s'.cpu (by simpa [passes] using helim)

end PriorityRoundRobin

end Course.Os.Scheduler
