import Mathlib.Data.List.Sort
import Course.Os.Allotment

/-! Priority round robin with distinct names: the walks over the list serve one
queue for each priority. -/

namespace Course.Os.Scheduler

variable {requests : List Request} {c c' : Cpu} {l q w a b : List Task} {t x : Task}
  {xs mid post : List Slice} {p : ℤ}

/-- What a turn leaves of a task. -/
def remainder (t : Task) : List Task :=
  if t.burst ≤ TIME_QUANTUM then [] else [{ t with burst := t.burst - TIME_QUANTUM }]

/-- The queue of one priority, and the tasks of the later ones. -/
inductive Queued : List Task → List Task → Cpu → Cpu → Prop
  | nil {c : Cpu} : Queued [] [] c c
  | serve {t : Task} {q l : List Task} {c c' : Cpu} :
      Queued (q ++ remainder t) l (c.run t (share t)) c' → Queued (t :: q) l c c'
  | next {l : List Task} {c c' : Cpu} (p : ℤ) : (∀ x ∈ l, p ≤ x.priority) →
      Queued (l.filter fun x => x.priority = p) (l.filter fun x => x.priority ≠ p) c c' →
      Queued [] l c c'

/-! ### The loops serve the queues -/

theorem served_eq (h : ((a ++ t :: b).map Task.name).Nodup) : served a t = a ++ remainder t := by
  have hfree : ∀ x ∈ a, named t x = false := by
    intro x hx
    refine decide_eq_false fun heq => ?_
    rw [List.map_append, List.map_cons, List.nodup_append] at h
    exact h.2.2 x.name (List.mem_map_of_mem hx) t.name (by simp) heq.symm
  rw [served, remainder]
  split
  · rw [eraseP_of_free hfree, List.append_nil]
  · rfl

theorem names_served (h : ((a ++ t :: b).map Task.name).Nodup) :
    ((served a t ++ b).map Task.name).Nodup := by
  rw [served_eq h, remainder]
  split
  · refine h.sublist (List.Sublist.map _ ?_)
    simp
  · simpa using h

/-- The tasks of priority `p`, from the cursor on. -/
def queue (p : ℤ) (a b : List Task) : List Task :=
  (b.filter fun x => x.priority = p) ++ a.filter fun x => x.priority = p

theorem Walk.queued {exist : Bool} (h : Walk p exist a b c l c')
    (hnames : ((a ++ b).map Task.name).Nodup) (hexist : exist = false → ∀ x ∈ a, x.priority ≠ p) :
    l = (a ++ b).filter (fun x => x.priority ≠ p) ∧
      ∀ c'', Queued [] l c' c'' → Queued (queue p a b) l c c'' := by
  induction h with
  | empty => exact ⟨rfl, fun c'' hc => hc⟩
  | @serve exist t a b l c c' ht _ ih =>
    obtain ⟨hl, hqueued⟩ := ih (names_served hnames) (by simp)
    rw [served_eq hnames] at hl hqueued
    have hrest : ∀ x ∈ remainder t, x.priority = p := by
      intro x hx
      rw [remainder] at hx
      split at hx
      · cases hx
      · rw [List.mem_singleton.mp hx]
        exact ht
    have hfilter : (remainder t).filter (fun x => decide (x.priority = p)) = remainder t :=
      List.filter_eq_self.mpr fun x hx => decide_eq_true (hrest x hx)
    have hnot : (remainder t).filter (fun x => decide (x.priority ≠ p)) = [] :=
      List.filter_eq_nil_iff.mpr fun x hx => by simp [hrest x hx]
    refine ⟨?_, fun c'' hc => ?_⟩
    · rw [hl, List.filter_append, List.filter_append, hnot, List.filter_append,
        List.filter_cons_of_neg (by simp [ht]), List.append_nil]
    · have hq : queue p a (t :: b) = t :: queue p a b := by simp [queue, ht]
      rw [hq]
      refine .serve ?_
      have hq' : queue p (a ++ remainder t) b = queue p a b ++ remainder t := by
        simp [queue, hfilter]
      exact hq' ▸ hqueued c'' hc
  | @skip exist t a b l c c' ht _ ih =>
    obtain ⟨hl, hqueued⟩ := ih (by rwa [← List.append_cons]) fun he =>
      List.forall_mem_append.mpr ⟨hexist he, List.forall_mem_singleton.mpr ht⟩
    refine ⟨by rw [hl, ← List.append_cons], fun c'' hc => ?_⟩
    have hq : queue p a (t :: b) = queue p (a ++ [t]) b := by simp [queue, ht]
    exact hq ▸ hqueued c'' hc
  | @wrap a l c c' _ ih =>
    obtain ⟨hl, hqueued⟩ := ih (by simpa using hnames) (by simp)
    refine ⟨by simpa using hl, fun c'' hc => ?_⟩
    have hq : queue p a [] = queue p [] a := by simp [queue]
    exact hq ▸ hqueued c'' hc
  | @stop a c =>
    have hnone : ∀ x ∈ a, x.priority ≠ p := hexist rfl
    refine ⟨?_, fun c'' hc => ?_⟩
    · rw [List.append_nil]
      exact (List.filter_eq_self.mpr fun x hx => decide_eq_true (hnone x hx)).symm
    · have hq : queue p a [] = [] := by
        simpa [queue] using hnone
      rw [hq]
      exact hc

variable {s : State}

theorem levels_queued (h : Listed s l) (hpos : ∀ x ∈ l, 0 < x.burst)
    (hp : ∀ x ∈ l, p ≤ x.priority ∧ x.priority ≤ MAX_PRIORITY)
    (hnames : (l.map Task.name).Nodup) :
    ∃ s', levels p s (ptr l none) = some s' ∧ Queued [] l s.cpu s'.cpu := by
  induction hn : (MAX_PRIORITY + 1 - p).toNat generalizing p s l with
  | zero =>
    obtain rfl := eq_nil_of_priority hp (by omega)
    rw [levels, if_neg (by omega)]
    exact ⟨s, rfl, .nil⟩
  | succ n ih =>
    obtain ⟨s₁, l₁, hlevel, hl₁, hwalk⟩ :=
      level_walk (p := p) false (a := []) (b := l) h (fun _ => rfl) hpos
    obtain ⟨heq, hqueued⟩ := hwalk.queued hnames (by simp)
    obtain ⟨hpos₁, hlater, -, -⟩ := hwalk.leaves hpos (fun x hx => (hp x hx).1) (by simp)
    rw [List.nil_append] at heq
    have hsub : List.Sublist l₁ l := heq ▸ List.filter_sublist
    obtain ⟨s', hs', hrest⟩ := ih (p := p + 1) hl₁ hpos₁
      (fun x hx => ⟨hlater x hx, (hp x (hsub.subset hx)).2⟩) (hnames.sublist (hsub.map _))
      (by omega)
    refine ⟨s', ?_, .next p (fun x hx => (hp x hx).1) ?_⟩
    · rw [levels, if_pos (by omega), hlevel]
      exact hs'
    · have hq : queue p [] l = l.filter fun x => decide (x.priority = p) := by simp [queue]
      rw [← hq, ← heq]
      exact hqueued s'.cpu hrest

theorem tasks_names (requests : List Request) :
    (tasks requests).map Task.name = requests.map Request.name := by
  conv_rhs => rw [← tasks_request requests, List.map_map]
  rfl

theorem main_queued (h : ∀ r ∈ requests, r.Valid) (hnames : (requests.map Request.name).Nodup) :
    ∃ s, main .priorityRr requests = some s ∧ Queued [] (tasks requests) init.cpu s.cpu := by
  obtain ⟨s₀, hs₀, hlisted, hcpu⟩ := reverse_add_spec requests
  obtain ⟨s, hs, hqueued⟩ := levels_queued (p := MIN_PRIORITY) hlisted
    (fun t ht => (tasks_valid h t ht).1) (fun t ht => (tasks_valid h t ht).2)
    (by rwa [tasks_names])
  rw [← hlisted.head] at hs
  exact ⟨s, by simp [main, schedule, hs₀, hs], hcpu ▸ hqueued⟩

/-! ### The order of the slices -/

theorem remainder_tid (hx : x ∈ remainder t) : x.tid = t.tid ∧ x.priority = t.priority := by
  rw [remainder] at hx
  split at hx
  · cases hx
  · rw [List.mem_singleton.mp hx]
    exact ⟨rfl, rfl⟩

theorem Queued.extends (h : Queued q l c c') :
    ∃ zs, c'.slices = c.slices ++ zs ∧ ∀ e ∈ zs, e.tid ∈ (q ++ l).map Task.tid := by
  induction h with
  | nil => exact ⟨[], by simp, by simp⟩
  | @serve t q l c c' _ ih =>
    obtain ⟨zs, hzs, hmem⟩ := ih
    refine ⟨⟨t.tid, c.time, share t⟩ :: zs, by simp [hzs], fun e he => ?_⟩
    rcases List.mem_cons.mp he with rfl | he
    · simp
    · obtain ⟨x, hx, hxe⟩ := List.mem_map.mp (hmem e he)
      rw [← hxe]
      simp only [List.mem_append, or_assoc] at hx
      rcases hx with hx | hx | hx
      · simp [List.mem_map_of_mem hx]
      · simp [(remainder_tid hx).1]
      · simp [List.mem_map_of_mem hx]
  | @next l c c' p _ _ ih =>
    obtain ⟨zs, hzs, hmem⟩ := ih
    refine ⟨zs, hzs, fun e he => ?_⟩
    obtain ⟨x, hx, hxe⟩ := List.mem_map.mp (hmem e he)
    rw [← hxe]
    refine List.mem_map_of_mem ?_
    rcases List.mem_append.mp hx with hx | hx
    · exact List.mem_of_mem_filter hx
    · exact List.mem_of_mem_filter hx

/-- The next slice is of the first task of the queue. -/
theorem Queued.head {zs : List Slice} (h : Queued (t :: q) l c c')
    (hs : c'.slices = c.slices ++ zs) :
    ∃ zs', zs = ⟨t.tid, c.time, share t⟩ :: zs' ∧
      Queued (q ++ remainder t) l (c.run t (share t)) c' ∧
      c'.slices = (c.run t (share t)).slices ++ zs' := by
  cases h with
  | serve h =>
    obtain ⟨zs', hzs', -⟩ := h.extends
    refine ⟨zs', ?_, h, hzs'⟩
    rw [hs, run_slices, List.append_assoc] at hzs'
    exact List.append_cancel_left hzs'

/-- Until a task is run, those before it in the queue are, each once. -/
theorem Queued.waits {e : Slice} (h : Queued (q ++ t :: w) l c c') (hnot : t.tid ∉ q.map Task.tid)
    (hs : c'.slices = c.slices ++ (mid ++ e :: post)) (he : e.tid = t.tid)
    (hmid : ∀ x ∈ mid, x.tid ≠ t.tid) : mid.map Slice.tid = q.map Task.tid := by
  induction q generalizing w c mid with
  | nil =>
    obtain ⟨zs, hzs, -, -⟩ := h.head hs
    cases mid with
    | nil => rfl
    | cons m mid =>
      rw [List.cons_append, List.cons.injEq] at hzs
      exact absurd (congrArg Slice.tid hzs.1) (hmid m (by simp))
  | cons y q ih =>
    rw [List.map_cons, List.mem_cons, not_or] at hnot
    obtain ⟨zs, hzs, hrest, hslices⟩ := Queued.head (q := q ++ t :: w) h hs
    cases mid with
    | nil =>
      rw [List.nil_append, List.cons.injEq] at hzs
      exact absurd (he.symm.trans (congrArg Slice.tid hzs.1)) hnot.1
    | cons m mid =>
      rw [List.cons_append, List.cons.injEq] at hzs
      rw [← hzs.2] at hslices
      rw [List.append_assoc, List.cons_append] at hrest
      rw [List.map_cons, List.map_cons, hzs.1,
        ih hrest hnot.2 hslices fun x hx => hmid x (by simp [hx])]

theorem Good.perm {bursts : ℕ → Option ℤ} (h : Good bursts a xs) (hperm : b.Perm a) :
    Good bursts b xs where
  pos t ht := h.pos t (hperm.mem_iff.mp ht)
  due t ht := h.due t (hperm.mem_iff.mp ht)
  done tid w hw htid :=
    h.done tid w hw fun hmem => htid ((hperm.map Task.tid).mem_iff.mpr hmem)

/-- The queue has the tasks of one priority in the order in which they were added,
up to where it starts. -/
structure Ranked (requests : List Request) (q l : List Task) (xs : List Slice) : Prop where
  good : Good (burstOf requests) (q ++ l) xs
  nodup : ((q ++ l).map Task.tid).Nodup
  request : ∀ x ∈ q ++ l, ∃ r, requests[x.tid]? = some r ∧ r.priority = x.priority
  level : ∀ x ∈ q, ∀ y ∈ q, x.priority = y.priority
  later : ∀ x ∈ q, ∀ y ∈ l, x.priority < y.priority
  added : (l.map Task.tid).Pairwise (· < ·)
  turned : ∃ u v, q = u ++ v ∧ ((v ++ u).map Task.tid).Pairwise (· < ·)

namespace Ranked

theorem start (h : ∀ r ∈ requests, r.Valid) : Ranked requests [] (tasks requests) [] where
  good := good_start h
  nodup := by
    rw [List.nil_append, tasks_tid]
    exact List.nodup_range
  request x hx := by
    obtain ⟨i, hi, rfl⟩ := List.mem_mapIdx.mp hx
    exact ⟨requests[i], by simp [Request.task, hi], rfl⟩
  level x hx := by cases hx
  later x hx := by cases hx
  added := by
    rw [tasks_tid]
    exact List.pairwise_lt_range
  turned := ⟨[], [], rfl, .nil⟩

theorem next (h : Ranked requests [] l xs) (hp : ∀ x ∈ l, p ≤ x.priority) :
    Ranked requests (l.filter fun x => x.priority = p) (l.filter fun x => x.priority ≠ p) xs := by
  have hperm : ((l.filter fun x => decide (x.priority = p)) ++
      l.filter fun x => decide (x.priority ≠ p)).Perm l := by
    have := List.filter_append_perm (fun x : Task => decide (x.priority = p)) l
    simpa using this
  have hsorted : ∀ f : Task → Bool, ((l.filter f).map Task.tid).Pairwise (· < ·) := fun f =>
    h.added.sublist (List.filter_sublist.map _)
  refine ⟨h.good.perm hperm, (hperm.map Task.tid).nodup_iff.mpr h.nodup,
    fun x hx => h.request x (hperm.mem_iff.mp hx), ?_, ?_, hsorted _,
    ⟨_, [], (List.append_nil _).symm, hsorted _⟩⟩
  · intro x hx y hy
    simp only [List.mem_filter, decide_eq_true_eq] at hx hy
    rw [hx.2, hy.2]
  · intro x hx y hy
    simp only [List.mem_filter, decide_eq_true_eq] at hx hy
    have := hp y hy.1
    omega

/-- Behind the first task are those added after it, then those added before. -/
theorem behind (h : Ranked requests (t :: q) l xs) :
    ∃ u v, q = u ++ v ∧ ((v ++ t :: u).map Task.tid).Pairwise (· < ·) := by
  obtain ⟨u, v, hq, hsorted⟩ := h.turned
  cases u with
  | nil =>
    rw [List.nil_append] at hq
    subst hq
    exact ⟨q, [], by simp, by simpa using hsorted⟩
  | cons y u =>
    rw [List.cons_append, List.cons.injEq] at hq
    obtain ⟨rfl, rfl⟩ := hq
    exact ⟨u, v, rfl, hsorted⟩

theorem serve (h : Ranked requests (t :: q) l xs) (start : ℤ) :
    Ranked requests (q ++ remainder t) l (xs ++ [⟨t.tid, start, share t⟩]) := by
  have hmem : ∀ x ∈ q ++ remainder t, ∃ y ∈ t :: q, x.tid = y.tid ∧ x.priority = y.priority := by
    intro x hx
    rcases List.mem_append.mp hx with hx | hx
    · exact ⟨x, by simp [hx], rfl, rfl⟩
    · exact ⟨t, by simp, remainder_tid hx⟩
  have hgood : Good (burstOf requests) (q ++ remainder t ++ l)
      (xs ++ [⟨t.tid, start, share t⟩]) := by
    rw [remainder, share]
    split
    · rw [List.append_nil]
      exact Good.finish (a := []) h.good h.nodup start
    · rename_i hlt
      refine (Good.slice (a := []) h.good h.nodup (not_le.mp hlt) start).perm ?_
      rw [List.append_assoc]
      exact List.perm_middle
  have htids : ((q ++ remainder t ++ l).map Task.tid).Nodup := by
    rw [remainder]
    split
    · exact h.nodup.sublist (by simp)
    · have hperm : (t.tid :: (q ++ l).map Task.tid).Nodup := h.nodup
      refine (List.Perm.nodup_iff ?_).mp hperm
      simp only [List.map_append, List.map_cons, List.map_nil, List.append_assoc]
      exact List.perm_middle.symm
  refine ⟨hgood, htids, ?_, ?_, ?_, h.added, ?_⟩
  · intro x hx
    rcases List.mem_append.mp hx with hx | hx
    · obtain ⟨y, hy, htid, hprio⟩ := hmem x hx
      rw [htid, hprio]
      exact h.request y (List.mem_append_left l hy)
    · exact h.request x (by simp [hx])
  · intro x hx y hy
    obtain ⟨x', hx', -, hxp⟩ := hmem x hx
    obtain ⟨y', hy', -, hyp⟩ := hmem y hy
    rw [hxp, hyp]
    exact h.level x' hx' y' hy'
  · intro x hx y hy
    obtain ⟨x', hx', -, hxp⟩ := hmem x hx
    rw [hxp]
    exact h.later x' hx' y hy
  · obtain ⟨u, v, rfl, hsorted⟩ := h.behind
    refine ⟨u, v ++ remainder t, by simp, ?_⟩
    rw [remainder]
    split
    · exact hsorted.sublist (by simp)
    · simpa using hsorted

end Ranked

/-! ### The law of the policy -/

/-- Every slice is one of the first task of a queue. -/
theorem Queued.slice {pre : List Slice} {e : Slice} (h : Queued q l c c')
    (hr : Ranked requests q l c.slices) (hs : c'.slices = c.slices ++ (pre ++ e :: post)) :
    ∃ t q' l' c₁, Queued (t :: q') l' c₁ c' ∧ Ranked requests (t :: q') l' c₁.slices ∧
      c₁.slices = c.slices ++ pre ∧ e = ⟨t.tid, c₁.time, share t⟩ := by
  induction h generalizing pre with
  | nil => simp at hs
  | next p hp _ ih => exact ih (hr.next hp) hs
  | @serve t q l c c' hrest ih =>
    obtain ⟨zs, hzs, -, hslices⟩ := (Queued.serve hrest).head hs
    cases pre with
    | nil =>
      rw [List.nil_append, List.cons.injEq] at hzs
      exact ⟨t, q, l, c, .serve hrest, hr, (List.append_nil _).symm, hzs.1⟩
    | cons m pre =>
      rw [List.cons_append, List.cons.injEq] at hzs
      obtain ⟨rfl, rfl⟩ := hzs
      have hr' := hr.serve c.time
      rw [← run_slices] at hr'
      obtain ⟨t', q', l', c₁, h₁, hr₁, hs₁, he⟩ := ih hr' hslices
      exact ⟨t', q', l', c₁, h₁, hr₁, by simpa using hs₁, he⟩

/-- A task that was not given its burst. -/
def unfinished (requests : List Request) (xs : List Slice) (tid : ℕ) : Bool :=
  (burstOf requests tid).any fun w => decide (received xs tid < w)

def priorityOf (requests : List Request) (tid : ℕ) : Option ℤ :=
  requests[tid]?.map Request.priority

/-- The unfinished tasks of the priority of `tid`, in the order of addition, from
the one behind `tid` on and then from the first one. -/
def others (requests : List Request) (xs : List Slice) (tid : ℕ) : List ℕ :=
  (List.range' (tid + 1) (requests.length - (tid + 1)) ++ List.range tid).filter fun u =>
    decide (priorityOf requests u = priorityOf requests tid) && unfinished requests xs u

theorem unfinished_iff {tid : ℕ} : unfinished requests xs tid = true ↔
    ∃ w, burstOf requests tid = some w ∧ received xs tid < w := by
  cases hw : burstOf requests tid <;> simp [unfinished, hw]

theorem Ranked.mem_iff (h : Ranked requests q l xs) (tid : ℕ) :
    unfinished requests xs tid = true ↔ ∃ x ∈ q ++ l, x.tid = tid := by
  constructor
  · intro hunf
    by_contra hnone
    obtain ⟨w, hw, hlt⟩ := unfinished_iff.mp hunf
    have hdone := h.good.done tid w hw fun hmem => hnone (List.mem_map.mp hmem)
    omega
  · rintro ⟨x, hx, rfl⟩
    have hpos := h.good.pos x hx
    exact unfinished_iff.mpr ⟨_, h.good.due x hx, by omega⟩

theorem Ranked.priorityOf_eq (h : Ranked requests q l xs) {x : Task} (hx : x ∈ q ++ l) :
    priorityOf requests x.tid = some x.priority := by
  obtain ⟨r, hr, hprio⟩ := h.request x hx
  rw [priorityOf, hr, ← hprio]
  rfl

theorem Ranked.lt_length (h : Ranked requests q l xs) {x : Task} (hx : x ∈ q ++ l) :
    x.tid < requests.length := by
  obtain ⟨r, hr, -⟩ := h.request x hx
  exact (List.getElem?_eq_some_iff.mp hr).1

/-- The rest of the queue behind a task that has just been served. -/
theorem Ranked.others_eq (h : Ranked requests (t :: q) l xs) (start : ℤ) :
    q.map Task.tid = others requests (xs ++ [⟨t.tid, start, share t⟩]) t.tid := by
  have hserved := h.serve start
  have hq : ∀ x ∈ q, x ∈ q ++ remainder t ++ l := fun x hx => by simp [hx]
  have hprio : priorityOf requests t.tid = some t.priority := h.priorityOf_eq (by simp)
  -- the tasks that the filter lets through, apart from the one that was served
  have hmem : ∀ tid, tid ≠ t.tid →
      ((decide (priorityOf requests tid = priorityOf requests t.tid) &&
        unfinished requests (xs ++ [⟨t.tid, start, share t⟩]) tid) = true ↔
        ∃ x ∈ q, x.tid = tid) := by
    intro tid hne
    rw [Bool.and_eq_true, decide_eq_true_eq, hserved.mem_iff, hprio]
    constructor
    · rintro ⟨hsame, x, hx, rfl⟩
      rw [hserved.priorityOf_eq hx, Option.some.injEq] at hsame
      rcases List.mem_append.mp hx with hx | hx
      · rcases List.mem_append.mp hx with hx | hx
        · exact ⟨x, hx, rfl⟩
        · exact absurd (remainder_tid hx).1 hne
      · exact absurd (h.later t (by simp) x hx) (by omega)
    · rintro ⟨x, hx, rfl⟩
      refine ⟨?_, x, hq x hx, rfl⟩
      rw [hserved.priorityOf_eq (hq x hx), h.level x (by simp [hx]) t (by simp)]
  obtain ⟨u, v, rfl, hsorted⟩ := h.behind
  rw [List.map_append, List.map_cons, List.pairwise_append, List.pairwise_cons] at hsorted
  obtain ⟨hv, ⟨htu, hu⟩, hcross⟩ := hsorted
  have hvt : ∀ x ∈ v, x.tid < t.tid := fun x hx =>
    hcross x.tid (List.mem_map_of_mem hx) t.tid (by simp)
  have htu : ∀ x ∈ u, t.tid < x.tid := fun x hx => htu x.tid (List.mem_map_of_mem hx)
  rw [others, List.filter_append, List.map_append]
  congr 1
  · refine hu.eq_of_mem_iff ((List.pairwise_lt_range' 1).filter _) fun tid => ?_
    rw [List.mem_map, List.mem_filter, List.mem_range'_1]
    constructor
    · rintro ⟨x, hx, rfl⟩
      have hlt := hserved.lt_length (hq x (by simp [hx]))
      have := htu x hx
      exact ⟨by omega, (hmem x.tid (by omega)).mpr ⟨x, by simp [hx], rfl⟩⟩
    · rintro ⟨hrange, hfilter⟩
      obtain ⟨x, hx, rfl⟩ := (hmem tid (by omega)).mp hfilter
      rcases List.mem_append.mp hx with hx | hx
      · exact ⟨x, hx, rfl⟩
      · have := hvt x hx
        omega
  · refine hv.eq_of_mem_iff (List.pairwise_lt_range.filter _) fun tid => ?_
    rw [List.mem_map, List.mem_filter, List.mem_range]
    constructor
    · rintro ⟨x, hx, rfl⟩
      have hlt := hvt x hx
      exact ⟨hlt, (hmem x.tid hlt.ne).mpr ⟨x, by simp [hx], rfl⟩⟩
    · rintro ⟨hlt, hfilter⟩
      obtain ⟨x, hx, rfl⟩ := (hmem tid hlt.ne).mp hfilter
      rcases List.mem_append.mp hx with hx | hx
      · have := htu x hx
        omega
      · exact ⟨x, hx, rfl⟩

/-- The slices of a priority round robin. -/
structure RoundRobin (requests : List Request) (xs : List Slice) : Prop where
  /-- No task with a smaller priority value is unfinished when a slice begins. -/
  first : ∀ pre e post, xs = pre ++ e :: post → ∃ p, priorityOf requests e.tid = some p ∧
    ∀ tid p', unfinished requests pre tid = true → priorityOf requests tid = some p' → p ≤ p'
  quantum : ∀ e ∈ xs, e.length ≤ TIME_QUANTUM
  /-- Between a slice of a task and its next one the others run, each once. -/
  turns : ∀ pre e mid e' post, xs = pre ++ e :: (mid ++ e' :: post) → e'.tid = e.tid →
    (∀ x ∈ mid, x.tid ≠ e.tid) → mid.map Slice.tid = others requests (pre ++ [e]) e.tid

theorem share_le (t : Task) : share t ≤ TIME_QUANTUM := by
  rw [share]
  split
  next h => exact h
  next => exact le_rfl

theorem Queued.roundRobin (h : Queued q l c c') (hr : Ranked requests q l c.slices)
    (hc : c.slices = []) : RoundRobin requests c'.slices where
  first pre e post hs := by
    obtain ⟨t, q', l', c₁, -, hr₁, hs₁, rfl⟩ := h.slice hr (by rw [hs, hc]; rfl)
    rw [hc, List.nil_append] at hs₁
    subst hs₁
    refine ⟨t.priority, hr₁.priorityOf_eq (by simp), fun tid p' hunf hp' => ?_⟩
    obtain ⟨x, hx, rfl⟩ := (hr₁.mem_iff tid).mp hunf
    rw [hr₁.priorityOf_eq hx, Option.some.injEq] at hp'
    subst hp'
    rcases List.mem_append.mp hx with hx | hx
    · exact (hr₁.level t (by simp) x hx).le
    · exact (hr₁.later t (by simp) x hx).le
  quantum e he := by
    obtain ⟨pre, post, hs⟩ := List.append_of_mem he
    obtain ⟨t, q', l', c₁, -, -, -, rfl⟩ := h.slice hr (by rw [hs, hc]; rfl)
    exact share_le t
  turns pre e mid e' post hs he' hmid := by
    obtain ⟨t, q', l', c₁, h₁, hr₁, hs₁, rfl⟩ := h.slice hr (by rw [hs, hc]; rfl)
    rw [hc, List.nil_append] at hs₁
    subst hs₁
    obtain ⟨zs, hzs, hrest, hslices⟩ := h₁.head hs
    rw [List.cons.injEq] at hzs
    rw [← hzs.2] at hslices
    rw [← hr₁.others_eq]
    have hnodup := hr₁.nodup
    rw [List.cons_append, List.map_cons, List.nodup_cons, List.map_append, List.mem_append,
      not_or] at hnodup
    by_cases hle : t.burst ≤ TIME_QUANTUM
    · -- a task that has ended is not run again
      rw [remainder, if_pos hle, List.append_nil] at hrest
      obtain ⟨ws, hws, hmem⟩ := hrest.extends
      have hin := hmem e' (by
        rw [List.append_cancel_left (hws.symm.trans hslices)]
        simp)
      rw [he', List.map_append, List.mem_append] at hin
      exact absurd hin (by simpa using hnodup.1)
    · rw [remainder, if_neg hle] at hrest
      exact hrest.waits hnodup.1.1 hslices he' hmid

theorem main_roundRobin (h : ∀ r ∈ requests, r.Valid)
    (hnames : (requests.map Request.name).Nodup) :
    ∃ s, main .priorityRr requests = some s ∧ RoundRobin requests s.cpu.slices := by
  obtain ⟨s, hs, hqueued⟩ := main_queued h hnames
  exact ⟨s, hs, hqueued.roundRobin (.start h) rfl⟩

/-- Three tasks of two priorities, two of which need more than one slice. -/
def threeTasks : List Request := [⟨"A", 2, 7⟩, ⟨"B", 1, 12⟩, ⟨"C", 1, 6⟩]

theorem main_roundRobin_threeTasks :
    ∃ s, main .priorityRr threeTasks = some s ∧ RoundRobin threeTasks s.cpu.slices :=
  main_roundRobin (by simp [threeTasks, Request.Valid, MIN_PRIORITY, MAX_PRIORITY])
    (by simp [threeTasks])

end Course.Os.Scheduler
