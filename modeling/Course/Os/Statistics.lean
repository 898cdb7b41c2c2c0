import Course.Os.Allotment

/-! The times the virtual CPU reports for tasks of distinct names. -/

namespace Course.Os.Scheduler

variable {quantum : Option ℤ} {c c' : Cpu} {l a b : List Task} {t : Task} {d : ℤ} {tid : ℕ}
  {bursts : ℕ → Option ℤ} {requests : List Request}

/-- The slices of one task, in order. -/
def slicesOf (xs : List Slice) (tid : ℕ) : List Slice := xs.filter fun e => e.tid = tid

/-! ### One call of `run` -/

theorem slicesOf_run (c : Cpu) (t : Task) (d : ℤ) (tid : ℕ) :
    slicesOf (c.run t d).slices tid =
      slicesOf c.slices tid ++ if t.tid = tid then [⟨t.tid, c.time, d⟩] else [] := by
  rw [run_slices, slicesOf, List.filter_append, List.filter_singleton]
  simp [slicesOf]

theorem run_responseFlag (c : Cpu) (t : Task) (d : ℤ) :
    (c.run t d).responseFlag =
      if c.responseFlag t.tid = 0 then Function.update c.responseFlag t.tid 1
      else c.responseFlag := by
  simp only [Cpu.run]
  split <;> split <;> rfl

theorem run_responseTime (c : Cpu) (t : Task) (d : ℤ) :
    (c.run t d).responseTime =
      if c.responseFlag t.tid = 0 then Function.update c.responseTime t.tid c.time
      else c.responseTime := by
  simp only [Cpu.run]
  split <;> split <;> rfl

theorem run_turnaroundTime (c : Cpu) (t : Task) (d : ℤ) :
    (c.run t d).turnaroundTime =
      if t.burst - d = 0 then Function.update c.turnaroundTime t.tid (c.time + d)
      else c.turnaroundTime := by
  simp only [Cpu.run]
  split <;> split <;> rfl

theorem run_waitingTime (c : Cpu) (t : Task) (d : ℤ) :
    (c.run t d).waitingTime =
      if t.burst - d = 0 then Function.update c.waitingTime t.tid (c.time + d - t.burst)
      else c.waitingTime := by
  simp only [Cpu.run]
  split <;> split <;> rfl

/-! ### The first slice -/

/-- The flag tells whether a task has run, and its response time is the start
of its first slice. -/
structure Responded (c : Cpu) : Prop where
  flag : ∀ tid, c.responseFlag tid = 0 ↔ slicesOf c.slices tid = []
  time : ∀ tid, ∀ e ∈ (slicesOf c.slices tid).head?, c.responseTime tid = e.start

theorem Responded.init : Responded init.cpu :=
  ⟨by simp [Scheduler.init, slicesOf], by simp [Scheduler.init, slicesOf]⟩

theorem Responded.run (h : Responded c) (t : Task) (d : ℤ) : Responded (c.run t d) := by
  constructor
  · intro tid
    rw [run_responseFlag, slicesOf_run]
    by_cases heq : t.tid = tid
    · subst heq
      split <;> simp [*]
    · rw [if_neg heq, List.append_nil, ← h.flag]
      split <;> simp [Ne.symm heq]
  · intro tid e he
    rw [slicesOf_run] at he
    rw [run_responseTime]
    by_cases heq : t.tid = tid
    · subst heq
      split
      next hflag =>
        rw [(h.flag t.tid).mp hflag] at he
        obtain rfl : _ = e := by simpa using he
        exact Function.update_self ..
      next hflag =>
        rw [List.head?_append_of_ne_nil _ (mt (h.flag t.tid).mpr hflag)] at he
        exact h.time t.tid e he
    · rw [if_neg heq, List.append_nil] at he
      have hold := h.time tid e he
      split
      · rwa [Function.update_of_ne (Ne.symm heq)]
      · exact hold

/-! ### The last slice -/

/-- A task that is done has its turnaround time from the end of its last slice
and its waiting time from the start of it; only where no task needed a second
turn is that slice the whole burst. -/
structure Ended (quantum : Option ℤ) (c : Cpu) (tid : ℕ) (w : ℤ) (last : Slice) : Prop where
  getLast : (slicesOf c.slices tid).getLast? = some last
  turnaround : c.turnaroundTime tid = last.start + last.length
  waiting : c.waitingTime tid = last.start
  length : last.length = w ↔ ∀ q ∈ quantum, w ≤ q

/-- The tasks of the list with their bursts, and the others ended. -/
structure Tracked (quantum : Option ℤ) (bursts : ℕ → Option ℤ) (l : List Task) (c : Cpu) :
    Prop where
  left : ∀ t ∈ l, ∃ w, bursts t.tid = some w ∧ t.burst ≤ w ∧ (t.burst = w ∨ ∃ q ∈ quantum, q < w)
  ended : ∀ tid w, bursts tid = some w → tid ∉ l.map Task.tid → ∃ e, Ended quantum c tid w e

theorem Ended.run {w : ℤ} {e : Slice} (h : Ended quantum c tid w e) (hne : t.tid ≠ tid) (d : ℤ) :
    Ended quantum (c.run t d) tid w e := by
  refine ⟨?_, ?_, ?_, h.length⟩
  · rw [slicesOf_run, if_neg hne, List.append_nil]
    exact h.getLast
  · rw [run_turnaroundTime, ← h.turnaround]
    split
    · exact Function.update_of_ne (Ne.symm hne) ..
    · rfl
  · rw [run_waitingTime, ← h.waiting]
    split
    · exact Function.update_of_ne (Ne.symm hne) ..
    · rfl

theorem Tracked.slice {q : ℤ} (h : Tracked quantum bursts (a ++ t :: b) c) (hq : q ∈ quantum)
    (hpos : 0 < q) (hlt : q < t.burst) :
    Tracked quantum bursts (a ++ { t with burst := t.burst - q } :: b) (c.run t q) := by
  constructor
  · intro x hx
    rcases mem_middle.mp hx with rfl | hx
    · obtain ⟨w, hw, hle, -⟩ := h.left t (by simp)
      exact ⟨w, hw, by simp only; omega, .inr ⟨q, hq, by omega⟩⟩
    · exact h.left x (mem_middle.mpr (.inr hx))
  · intro tid w hw htid
    have htid : tid ∉ (a ++ t :: b).map Task.tid := by simpa using htid
    obtain ⟨e, he⟩ := h.ended tid w hw htid
    exact ⟨e, he.run (fun heq => htid (by simp [heq])) q⟩

theorem Tracked.finish (h : Tracked quantum bursts (a ++ t :: b) c)
    (hle : ∀ q ∈ quantum, t.burst ≤ q) : Tracked quantum bursts (a ++ b) (c.run t t.burst) := by
  refine ⟨fun x hx => h.left x (mem_middle.mpr (.inr hx)), fun tid w hw htid => ?_⟩
  by_cases heq : t.tid = tid
  · subst heq
    obtain ⟨w', hw', hle', hburst⟩ := h.left t (by simp)
    obtain rfl : w' = w := Option.some.inj (hw'.symm.trans hw)
    refine ⟨⟨t.tid, c.time, t.burst⟩, ?_, ?_, ?_, ?_⟩
    · rw [slicesOf_run, if_pos rfl, List.getLast?_concat]
    · rw [run_turnaroundTime, if_pos (Int.sub_self _), Function.update_self]
    · rw [run_waitingTime, if_pos (Int.sub_self _), Function.update_self]
      simp only
      omega
    · simp only
      rcases hburst with hburst | ⟨q, hq, hlt⟩
      · exact iff_of_true hburst (hburst ▸ hle)
      · have := hle q hq
        exact iff_of_false (by omega) fun hall => absurd (hall q hq) (not_le.mpr hlt)
  · have hout : tid ∉ (a ++ t :: b).map Task.tid := by
      simp only [List.map_append, List.map_cons, List.mem_append, List.mem_cons] at htid ⊢
      tauto
    obtain ⟨e, he⟩ := h.ended tid w hw hout
    exact ⟨e, he.run heq t.burst⟩

/-- With distinct names every task that ends leaves the list itself. -/
theorem Run.tracked (h : Run quantum l c c') (hq : ∀ q ∈ quantum, 0 < q)
    (hnames : (l.map Task.name).Nodup) (hl : Tracked quantum bursts l c) (hc : Responded c) :
    Tracked quantum bursts [] c' ∧ Responded c' := by
  induction h with
  | nil c => exact ⟨hl, hc⟩
  | @finish t c c' a b hle _ ih =>
    have hfree : ∀ x ∈ a, named t x = false := by
      intro x hx
      rw [List.map_append, List.map_cons, List.nodup_append] at hnames
      refine decide_eq_false fun heq => ?_
      exact hnames.2.2 x.name (List.mem_map_of_mem hx) t.name (List.mem_cons_self ..) heq.symm
    rw [eraseP_of_free hfree] at ih
    refine ih ?_ (hl.finish hle) (hc.run t _)
    refine hnames.sublist (List.Sublist.map _ (List.Sublist.append_left ?_ _))
    exact List.sublist_cons_self _ _
  | @slice t c c' a b q hmem hlt _ ih =>
    refine ih ?_ (hl.slice hmem (hq q hmem) hlt) (hc.run t q)
    simpa using hnames

theorem tracked_start (requests : List Request) (quantum : Option ℤ) :
    Tracked quantum (burstOf requests) (tasks requests) init.cpu := by
  constructor
  · intro t ht
    obtain ⟨i, hi, rfl⟩ := List.mem_mapIdx.mp ht
    exact ⟨requests[i].burst, by simp [burstOf, Request.task, hi], le_rfl, .inl rfl⟩
  · intro tid w hw htid
    rw [tasks_tid, List.mem_range] at htid
    simp [burstOf, List.getElem?_eq_none (not_lt.mp htid)] at hw

/-! ### The report -/

/-- At `print_stats` every task has the three times it should have. -/
def Reports (policy : Policy) (requests : List Request) : Prop :=
  ∃ s, main policy requests = some s ∧ ∀ tid r, requests[tid]? = some r →
    ∃ first last, (slicesOf s.cpu.slices tid).head? = some first ∧
      (slicesOf s.cpu.slices tid).getLast? = some last ∧
      s.cpu.turnaroundTime tid = last.start + last.length ∧
      s.cpu.responseTime tid = first.start ∧
      s.cpu.waitingTime tid = s.cpu.turnaroundTime tid - r.burst

theorem tasks_name (requests : List Request) :
    (tasks requests).map Task.name = requests.map Request.name := by
  rw [← tasks_request requests, List.map_map, tasks_request]
  rfl

theorem main_ended (policy : Policy) (h : ∀ r ∈ requests, r.Valid)
    (hnames : (requests.map Request.name).Nodup) :
    ∃ s, main policy requests = some s ∧ Responded s.cpu ∧
      ∀ tid r, requests[tid]? = some r → ∃ e, Ended policy.quantum s.cpu tid r.burst e := by
  obtain ⟨s, hs, hrun, -⟩ := main_spec policy h
  obtain ⟨⟨-, hended⟩, hresponded⟩ := hrun.tracked policy.quantum_pos
    (by rwa [tasks_name]) (tracked_start requests policy.quantum) Responded.init
  refine ⟨s, hs, hresponded, fun tid r hr => ?_⟩
  exact hended tid r.burst (by simp [burstOf, hr]) (by simp)

/-- A right waiting time means that the last slice was the whole burst. -/
theorem Reports.le_quantum {policy : Policy} (hreports : Reports policy requests)
    (h : ∀ r ∈ requests, r.Valid) (hnames : (requests.map Request.name).Nodup) :
    ∀ q ∈ policy.quantum, ∀ r ∈ requests, r.burst ≤ q := by
  intro q hq r hr
  obtain ⟨s, hs, -, hended⟩ := main_ended policy h hnames
  obtain ⟨s', hs', hreport⟩ := hreports
  obtain rfl : s = s' := Option.some.inj (hs.symm.trans hs')
  obtain ⟨tid, htid⟩ := List.mem_iff_getElem?.mp hr
  obtain ⟨e, he⟩ := hended tid r htid
  obtain ⟨-, last, -, -, -, -, hwaiting⟩ := hreport tid r htid
  rw [he.turnaround, he.waiting] at hwaiting
  exact he.length.mp (by omega) q hq

/-- The waiting time is taken from what was left of the burst, so it is right
exactly when no task takes more than one turn. -/
theorem reports_iff (policy : Policy) (h : ∀ r ∈ requests, r.Valid)
    (hnames : (requests.map Request.name).Nodup) :
    Reports policy requests ↔ ∀ q ∈ policy.quantum, ∀ r ∈ requests, r.burst ≤ q := by
  refine ⟨fun hreports => hreports.le_quantum h hnames, fun hall => ?_⟩
  obtain ⟨s, hs, hresponded, hended⟩ := main_ended policy h hnames
  refine ⟨s, hs, fun tid r hr => ?_⟩
  obtain ⟨e, he⟩ := hended tid r hr
  have hne : slicesOf s.cpu.slices tid ≠ [] := by
    intro hnil
    have := he.getLast
    simp [hnil] at this
  have hfirst := List.head?_eq_some_head hne
  refine ⟨_, e, hfirst, he.getLast, he.turnaround, hresponded.time tid _ hfirst, ?_⟩
  have hlength := he.length.mpr fun q hq => hall q hq r (List.mem_of_getElem? hr)
  rw [he.turnaround, he.waiting]
  omega

/-- One task that needs two turns of the round robin. -/
def twoTurns : List Request := [⟨"A", 1, 6⟩]

theorem twoTurns_valid : ∀ r ∈ twoTurns, r.Valid := by
  simp [twoTurns, Request.Valid, MIN_PRIORITY, MAX_PRIORITY]

theorem reports_iff_twoTurns :
    Reports .fcfs twoTurns ↔ ∀ q ∈ Policy.fcfs.quantum, ∀ r ∈ twoTurns, r.burst ≤ q :=
  reports_iff .fcfs twoTurns_valid (by simp [twoTurns])

theorem not_reports_twoTurns : ¬∀ (policy : Policy) (requests : List Request),
    (∀ r ∈ requests, r.Valid) → (requests.map Request.name).Nodup →
      Reports policy requests := by
  intro hall
  have hnames : (twoTurns.map Request.name).Nodup := by simp [twoTurns]
  have hle := (hall .rr twoTurns twoTurns_valid hnames).le_quantum twoTurns_valid hnames
  simpa [twoTurns, TIME_QUANTUM] using hle TIME_QUANTUM rfl ⟨"A", 1, 6⟩ (by simp [twoTurns])

end Course.Os.Scheduler
