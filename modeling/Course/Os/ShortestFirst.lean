import Course.Lib.Waiting
import Course.Os.Statistics

/-! Shortest job first: the order of its runs, and that no other order of whole runs waits
less in all while the clock does not run over. -/

open Course.Lib

namespace Course.Os.Scheduler

variable {s : State} {c : Cpu} {l order a b : List Task} {t x : Task} {requests : List Request}

/-- The tasks one after the other, each for its whole burst. -/
def Cpu.runAll (c : Cpu) (order : List Task) : Cpu :=
  order.foldl (fun c t => c.run t t.burst) c

/-- `sum_waiting_time` of `print_stats`. -/
def Cpu.sumWaitingTime (c : Cpu) (taskCount : ℕ) : ℤ :=
  ((List.range taskCount).map c.waitingTime).sum

/-! ### Variables of type `int` -/

/-- What a variable of type `int` holds, if it wraps. -/
def int (x : ℤ) : ℤ := x.bmod (2 ^ 32)

/-- `run`, with the clock and the statistics of type `int`. -/
def Cpu.runInt (c : Cpu) (task : Task) (slice : ℤ) : Cpu :=
  let c :=
    if c.responseFlag task.tid = 0 then
      { c with
        burstTime := Function.update c.burstTime task.tid task.burst
        responseTime := Function.update c.responseTime task.tid c.time
        responseFlag := Function.update c.responseFlag task.tid 1 }
    else c
  let c :=
    { c with time := int (c.time + slice), slices := c.slices ++ [⟨task.tid, c.time, slice⟩] }
  if int (task.burst - slice) = 0 then
    { c with
      turnaroundTime := Function.update c.turnaroundTime task.tid c.time
      waitingTime := Function.update c.waitingTime task.tid (int (c.time - task.burst)) }
  else c

def Cpu.runAllInt (c : Cpu) (order : List Task) : Cpu :=
  order.foldl (fun c t => c.runInt t t.burst) c

/-- The clock and the statistics, as variables of type `int` hold them. -/
def Cpu.ints (c : Cpu) : Cpu :=
  { c with
    turnaroundTime := fun tid => int (c.turnaroundTime tid)
    waitingTime := fun tid => int (c.waitingTime tid)
    responseTime := fun tid => int (c.responseTime tid)
    time := int c.time
    slices := c.slices.map fun e => { e with start := int e.start } }

theorem int_of_lt {x : ℤ} (h : 0 ≤ x) (h' : x < 2 ^ 31) : int x = x :=
  Int.bmod_eq_of_le (by omega) (by omega)

theorem update_int (f : ℕ → ℤ) (i : ℕ) (x : ℤ) :
    Function.update (fun j => int (f j)) i (int x) = fun j => int (Function.update f i x j) := by
  funext j
  by_cases h : j = i
  · rw [h, Function.update_self, Function.update_self]
  · rw [Function.update_of_ne h, Function.update_of_ne h]

/-- They do not see what the exact values are beyond that. -/
theorem ints_run (c : Cpu) (t : Task) : c.ints.runInt t t.burst = (c.run t t.burst).ints := by
  have hadd : ∀ x y, int (int x + y) = int (x + y) := fun _ _ => Int.bmod_add_bmod
  have hsub : ∀ x y, int (int x - y) = int (x - y) := fun _ _ => Int.bmod_sub_bmod
  have hzero : int 0 = 0 := rfl
  simp only [Cpu.runInt, Cpu.run, Int.sub_self, hzero, if_pos]
  by_cases hflag : c.responseFlag t.tid = 0
  · simp only [hflag, if_pos, Cpu.ints, hadd, hsub, update_int, List.map_append,
      List.map_cons, List.map_nil]
  · simp only [hflag, if_neg, not_false_eq_true, Cpu.ints, hadd, hsub, update_int,
      List.map_append, List.map_cons, List.map_nil]

theorem ints_runAll (c : Cpu) (order : List Task) :
    c.ints.runAllInt order = (c.runAll order).ints := by
  induction order generalizing c with
  | nil => rfl
  | cons t order ih =>
    rw [Cpu.runAllInt, List.foldl_cons, ints_run]
    exact ih (c.run t t.burst)

/-- Shorter, or added earlier. -/
def Before (measure : Task → ℤ) (t x : Task) : Prop :=
  measure t < measure x ∨ measure t = measure x ∧ t.tid < x.tid

/-! ### The order -/

/-- With distinct names each task runs once. -/
theorem select_order (measure : Task → ℤ) (h : Listed s l) (hnames : (l.map Task.name).Nodup)
    (hadded : l.Pairwise fun t x => t.tid < x.tid) :
    ∃ order s', select measure s = some s' ∧ s'.cpu = s.cpu.runAll order ∧ order.Perm l ∧
      order.Pairwise (Before measure) := by
  induction hn : l.length generalizing s l with
  | zero =>
    obtain rfl := List.length_eq_zero_iff.mp hn
    rw [select, h.head]
    exact ⟨[], s, rfl, rfl, .nil, .nil⟩
  | succ n ih =>
    cases l with
    | nil => cases hn
    | cons x l =>
      obtain ⟨a, t, b, s₁, hl, hbefore, hafter, hs₁, hcpu, hturn⟩ := select_turn measure h
      rw [hl] at hn hnames hadded ⊢
      have hfree : ∀ x ∈ a, named t x = false := by
        intro x hx
        rw [List.map_append, List.map_cons, List.nodup_append] at hnames
        exact decide_eq_false fun heq =>
          hnames.2.2 x.name (List.mem_map_of_mem hx) t.name List.mem_cons_self heq.symm
      have hsub : (a ++ b).Sublist (a ++ t :: b) :=
        List.Sublist.append_left (List.sublist_cons_self t b) a
      rw [eraseP_of_free hfree] at hs₁
      obtain ⟨order, s', hs', hcpu', hperm, hsorted⟩ := ih hs₁
        (hnames.sublist (hsub.map Task.name)) (hadded.sublist hsub) (by
          simp only [List.length_append, List.length_cons] at hn ⊢
          omega)
      refine ⟨t :: order, s', hturn.trans hs', ?_,
        (hperm.cons t).trans List.perm_middle.symm, ?_⟩
      · rw [hcpu', hcpu]
        rfl
      · refine List.pairwise_cons.mpr ⟨fun x hx => ?_, hsorted⟩
        rcases List.mem_append.mp (hperm.mem_iff.mp hx) with hx | hx
        · exact .inl (hbefore x hx)
        · have hlt := (List.pairwise_cons.mp (List.pairwise_append.mp hadded).2.1).1 x hx
          exact (hafter x hx).lt_or_eq.imp_right fun heq => ⟨heq, hlt⟩

theorem tasks_pairwise (requests : List Request) :
    (tasks requests).Pairwise fun t x => t.tid < x.tid := by
  rw [← List.pairwise_map (f := Task.tid) (R := (· < ·)), tasks_tid]
  exact List.pairwise_lt_range

theorem sjf_order (hnames : (requests.map Request.name).Nodup) :
    ∃ s, ∃ order : List Task, main .sjf requests = some s ∧ s.cpu = init.cpu.runAll order ∧
      order.Perm (tasks requests) ∧ order.Pairwise (Before Task.burst) := by
  obtain ⟨s₀, hs₀, hlisted, hcpu⟩ := reverse_add_spec requests
  obtain ⟨order, s, hs, hscpu, hperm, hsorted⟩ := select_order Task.burst hlisted
    (by rwa [tasks_name]) (tasks_pairwise requests)
  rw [hcpu] at hscpu
  exact ⟨s, order, by simp [main, schedule, hs₀, sjf, hs], hscpu, hperm, hsorted⟩

/-! ### The waiting times -/

theorem runAll_cons (c : Cpu) (t : Task) (order : List Task) :
    c.runAll (t :: order) = (c.run t t.burst).runAll order := rfl

theorem runAll_slices (c : Cpu) (order : List Task) :
    (c.runAll order).slices.map (fun e => (e.tid, e.length)) =
      c.slices.map (fun e => (e.tid, e.length)) ++ order.map fun t => (t.tid, t.burst) := by
  induction order generalizing c with
  | nil => exact (List.append_nil _).symm
  | cons t order ih =>
    rw [runAll_cons, ih, run_slices, List.map_append, List.map_cons, List.append_assoc]
    rfl

theorem runAll_waitingTime_of_notMem {tid : ℕ} (htid : tid ∉ order.map Task.tid) (c : Cpu) :
    (c.runAll order).waitingTime tid = c.waitingTime tid := by
  induction order generalizing c with
  | nil => rfl
  | cons t order ih =>
    rw [List.map_cons, List.mem_cons, not_or] at htid
    rw [runAll_cons, ih htid.2, run_waitingTime, if_pos (Int.sub_self _),
      Function.update_of_ne htid.1]

theorem run_time (c : Cpu) (t : Task) (d : ℤ) : (c.run t d).time = c.time + d := by
  simp only [Cpu.run]
  split <;> split <;> rfl

theorem waitingTime_first (h : t.tid ∉ order.map Task.tid) (c : Cpu) :
    ((c.run t t.burst).runAll order).waitingTime t.tid = c.time := by
  rw [runAll_waitingTime_of_notMem h, run_waitingTime, if_pos (Int.sub_self _),
    Function.update_self]
  exact Int.add_sub_cancel ..

/-- A task waits until the ones before it have run. -/
theorem sum_waitingTime (hnodup : (order.map Task.tid).Nodup) (c : Cpu) :
    ((order.map Task.tid).map (c.runAll order).waitingTime).sum =
      waiting c.time (order.map Task.burst) := by
  induction order generalizing c with
  | nil => rfl
  | cons t order ih =>
    rw [List.map_cons, List.nodup_cons] at hnodup
    rw [List.map_cons, List.map_cons, List.sum_cons, runAll_cons, waitingTime_first hnodup.1,
      ih hnodup.2, run_time]
    rfl

theorem sumWaitingTime_runAll (hperm : order.Perm (tasks requests)) (c : Cpu) :
    (c.runAll order).sumWaitingTime requests.length = waiting c.time (order.map Task.burst) := by
  have htids : (order.map Task.tid).Perm (List.range requests.length) :=
    tasks_tid requests ▸ hperm.map Task.tid
  rw [Cpu.sumWaitingTime, ← (htids.map _).sum_eq]
  exact sum_waitingTime (htids.nodup_iff.mpr List.nodup_range) c

theorem tasks_burst (requests : List Request) :
    (tasks requests).map Task.burst = requests.map Request.burst := by
  conv_rhs => rw [← tasks_request requests, List.map_map]
  rfl

/-- No task waits longer than all of them take. -/
theorem waitingTime_range (hnodup : (order.map Task.tid).Nodup) (hpos : ∀ t ∈ order, 0 < t.burst)
    (c : Cpu) : ∀ t ∈ order, c.time ≤ (c.runAll order).waitingTime t.tid ∧
      (c.runAll order).waitingTime t.tid < c.time + (order.map Task.burst).sum := by
  induction order generalizing c with
  | nil => exact fun t ht => absurd ht List.not_mem_nil
  | cons x order ih =>
    rw [List.map_cons, List.nodup_cons] at hnodup
    have hx : 0 < x.burst := hpos x List.mem_cons_self
    have hrest : ∀ t ∈ order, 0 < t.burst := fun t ht => hpos t (List.mem_cons_of_mem x ht)
    have hsum : 0 ≤ (order.map Task.burst).sum := by
      apply List.sum_nonneg
      intro b hb
      obtain ⟨t, ht, rfl⟩ := List.mem_map.mp hb
      exact (hrest t ht).le
    rw [List.map_cons, List.sum_cons, runAll_cons]
    intro t ht
    rcases List.mem_cons.mp ht with rfl | ht
    · rw [waitingTime_first hnodup.1]
      omega
    · obtain ⟨hlow, hhigh⟩ := ih hnodup.2 hrest (c.run x x.burst) t ht
      rw [run_time] at hlow hhigh
      omega

/-- The variables hold the exact values while the bursts take less than 2 ^ 31 in all. -/
theorem sumWaitingTime_ints (hperm : order.Perm (tasks requests))
    (hpos : ∀ r ∈ requests, 0 < r.burst) (hsum : (requests.map Request.burst).sum < 2 ^ 31) :
    (init.cpu.runAllInt order).sumWaitingTime requests.length =
      waiting 0 (order.map Task.burst) := by
  have htids : (order.map Task.tid).Perm (List.range requests.length) :=
    tasks_tid requests ▸ hperm.map Task.tid
  have hbursts : (order.map Task.burst).sum = (requests.map Request.burst).sum :=
    tasks_burst requests ▸ (hperm.map Task.burst).sum_eq
  have htasks : ∀ t ∈ order, 0 < t.burst := by
    intro t ht
    have hmem : t.burst ∈ requests.map Request.burst :=
      tasks_burst requests ▸ List.mem_map_of_mem (hperm.subset ht)
    obtain ⟨r, hr, heq⟩ := List.mem_map.mp hmem
    exact heq ▸ hpos r hr
  have hrange := waitingTime_range (htids.nodup_iff.mpr List.nodup_range) htasks init.cpu
  have hexact : (List.range requests.length).map (init.cpu.runAllInt order).waitingTime =
      (List.range requests.length).map (init.cpu.runAll order).waitingTime := by
    apply List.map_congr_left
    intro tid htid
    obtain ⟨t, ht, rfl⟩ := List.mem_map.mp (htids.mem_iff.mpr htid)
    obtain ⟨hlow, hhigh⟩ := hrange t ht
    have hints : init.cpu.runAllInt order = (init.cpu.runAll order).ints :=
      ints_runAll init.cpu order
    have htime : init.cpu.time = 0 := rfl
    rw [htime, hbursts, Int.zero_add] at hhigh
    rw [hints]
    exact int_of_lt hlow (lt_trans hhigh hsum)
  rw [Cpu.sumWaitingTime, hexact]
  exact sumWaitingTime_runAll hperm init.cpu

/-- The program runs the tasks by their bursts, equal ones as they were added, and no other
order of whole runs has the smaller sum of waiting times, unless the clock runs over. -/
theorem sjf_least (hnames : (requests.map Request.name).Nodup)
    (hpos : ∀ r ∈ requests, 0 < r.burst) :
    ∃ s, ∃ order : List Task, main .sjf requests = some s ∧ order.Perm (tasks requests) ∧
      order.Pairwise (Before Task.burst) ∧
      s.cpu.slices.map (fun e => (e.tid, e.length)) = order.map (fun t => (t.tid, t.burst)) ∧
      init.cpu.runAllInt order = s.cpu.ints ∧
      ((requests.map Request.burst).sum < 2 ^ 31 →
        ∀ other : List Task, other.Perm (tasks requests) →
          s.cpu.ints.sumWaitingTime requests.length ≤
            (init.cpu.runAllInt other).sumWaitingTime requests.length) := by
  obtain ⟨s, order, hs, hcpu, hperm, hsorted⟩ := sjf_order hnames
  have hints : init.cpu.runAllInt order = s.cpu.ints := hcpu ▸ ints_runAll init.cpu order
  refine ⟨s, order, hs, hperm, hsorted, ?_, hints, fun hsum other hother => ?_⟩
  · rw [hcpu, runAll_slices]
    rfl
  · rw [← hints, sumWaitingTime_ints hperm hpos hsum, sumWaitingTime_ints hother hpos hsum]
    refine waiting_le_of_sorted ?_ ((hperm.trans hother.symm).map Task.burst) _
    exact List.pairwise_map.mpr (hsorted.imp fun h => h.elim le_of_lt fun h => h.1.le)

/-- Two equal bursts behind a longer one. -/
def longFirst : List Request := [⟨"A", 1, 6⟩, ⟨"B", 1, 5⟩, ⟨"C", 1, 5⟩]

theorem sjf_least_longFirst :
    ∃ s, ∃ order : List Task, main .sjf longFirst = some s ∧ order.Perm (tasks longFirst) ∧
      order.Pairwise (Before Task.burst) ∧
      s.cpu.slices.map (fun e => (e.tid, e.length)) = order.map (fun t => (t.tid, t.burst)) ∧
      init.cpu.runAllInt order = s.cpu.ints ∧
      ∀ other : List Task, other.Perm (tasks longFirst) →
        s.cpu.ints.sumWaitingTime longFirst.length ≤
          (init.cpu.runAllInt other).sumWaitingTime longFirst.length := by
  obtain ⟨s, order, hs, hperm, hsorted, hslices, hints, hleast⟩ :=
    @sjf_least longFirst (by simp [longFirst]) (by decide)
  exact ⟨s, order, hs, hperm, hsorted, hslices, hints, hleast (by decide)⟩

/-- Bursts of 1, 2 ^ 31 - 1 and 2 ^ 30. -/
def overlong : List Request := [⟨"A", 1, 1⟩, ⟨"B", 1, 2 ^ 31 - 1⟩, ⟨"C", 1, 2 ^ 30⟩]

/-- In the order of addition the last task starts when the clock has run over. -/
theorem not_sjf_least_overlong : ¬∀ requests : List Request,
    (requests.map Request.name).Nodup → (∀ r ∈ requests, 0 < r.burst) →
      ∃ s, main .sjf requests = some s ∧
        ∀ other : List Task, other.Perm (tasks requests) →
          s.cpu.ints.sumWaitingTime requests.length ≤
            (init.cpu.runAllInt other).sumWaitingTime requests.length := by
  intro h
  obtain ⟨s, hs, hleast⟩ := h overlong (by simp [overlong]) (by decide)
  obtain ⟨s', order, hs', hcpu, hperm, hsorted⟩ := @sjf_order overlong (by simp [overlong])
  obtain rfl : s = s' := Option.some.inj (hs.symm.trans hs')
  have horder : order = [⟨"A", 0, 1, 1⟩, ⟨"C", 2, 1, 2 ^ 30⟩, ⟨"B", 1, 1, 2 ^ 31 - 1⟩] := by
    refine (hperm.trans ?_).eq_of_pairwise (fun t x _ _ ht hx => ?_) hsorted ?_
    · exact (List.Perm.swap _ _ _).cons _
    · simp only [Before] at ht hx
      omega
    · simp [Before]
  have hleast := hleast (tasks overlong) (.refl _)
  rw [hcpu, horder] at hleast
  revert hleast
  decide

end Course.Os.Scheduler
