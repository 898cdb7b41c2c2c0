import Mathlib.Data.List.Induction
import Course.Os.Policies

/-! The time the five policies give to the tasks of a program. -/

namespace Course.Os.Scheduler

/-- The task that a call of `add` makes. -/
def Request.task (r : Request) (tid : ℕ) : Task := ⟨r.name, tid, r.priority, r.burst⟩

/-- The tasks in the order in which they were added. -/
def tasks (requests : List Request) : List Task :=
  requests.mapIdx fun tid r => r.task tid

variable {requests : List Request}

theorem tasks_concat (requests : List Request) (r : Request) :
    tasks (requests ++ [r]) = tasks requests ++ [r.task requests.length] := by
  simp [tasks, List.mapIdx_append]

theorem tasks_tid (requests : List Request) :
    (tasks requests).map Task.tid = List.range requests.length := by
  induction requests using List.reverseRecOn with
  | nil => rfl
  | append_singleton requests r ih =>
    rw [tasks_concat, List.map_append, ih, List.length_append, List.length_singleton,
      List.range_succ]
    rfl

theorem add_spec (requests : List Request) :
    Listed (requests.foldl add init) (tasks requests).reverse ∧
      (requests.foldl add init).tid = requests.length ∧
      (requests.foldl add init).cpu = init.cpu := by
  induction requests using List.reverseRecOn with
  | nil => exact ⟨⟨rfl, trivial, List.nodup_nil⟩, rfl, rfl⟩
  | append_singleton requests r ih =>
    obtain ⟨hlisted, htid, hcpu⟩ := ih
    rw [List.foldl_append, tasks_concat, List.reverse_append, List.length_append]
    refine ⟨?_, congrArg (· + 1) htid, hcpu⟩
    have hnew : (r.task requests.length).tid ∉ (tasks requests).reverse.map Task.tid := by
      rw [List.map_reverse, tasks_tid]
      simp [Request.task]
    have hinsert := insert_spec (s := { requests.foldl add init with tid := requests.length + 1 })
      (hlisted.congr rfl rfl) hnew
    refine hinsert.congr ?_ ?_
    · simp [add, insert, Request.task, htid]
    · simp [add, insert, Request.task, htid]

/-- The state in which the loops of a policy start. -/
theorem reverse_add_spec (requests : List Request) :
    ∃ s, reverse
        { requests.foldl add init with cpu := (requests.foldl add init).cpu.initStats } none
        (requests.foldl add init).head = some s ∧
      Listed s (tasks requests) ∧ s.cpu = init.cpu := by
  obtain ⟨⟨hhead, hseg, hnodup⟩, -, hcpu⟩ := add_spec requests
  obtain ⟨s, hs, hlisted, hscpu⟩ := reverse_spec (a := [])
    (s := { requests.foldl add init with cpu := (requests.foldl add init).cpu.initStats })
    hseg trivial (by rwa [List.append_nil])
  rw [List.reverse_reverse, List.append_nil] at hlisted
  refine ⟨s, by rw [hhead]; exact hs, hlisted, ?_⟩
  rw [hscpu, hcpu]
  rfl

/-! ### The order a policy asks for -/

def Request.Valid (r : Request) : Prop :=
  0 < r.burst ∧ MIN_PRIORITY ≤ r.priority ∧ r.priority ≤ MAX_PRIORITY

/-- The turns of `TIME_QUANTUM` that a burst takes. -/
def Request.rounds (r : Request) : ℤ := (r.burst + 4) / 5

/-- The policy does not end `r'`, added later, before `r`. -/
def Policy.Prefers (policy : Policy) (r r' : Request) : Prop :=
  match policy with
  | .fcfs => True
  | .sjf => r.burst ≤ r'.burst
  | .priority => r.priority ≤ r'.priority
  | .rr => r.rounds ≤ r'.rounds
  | .priorityRr => r.priority < r'.priority ∨ r.priority = r'.priority ∧ r.rounds ≤ r'.rounds

/-- Of two tasks of one name, the one added first ends first. -/
def Policy.Fits (policy : Policy) (requests : List Request) : Prop :=
  requests.Pairwise fun r r' => r.name = r'.name → policy.Prefers r r'

def Policy.quantum : Policy → Option ℤ
  | .rr => some TIME_QUANTUM
  | .priorityRr => some TIME_QUANTUM
  | _ => none

/-- The burst of the task that got the number `tid`. -/
def burstOf (requests : List Request) (tid : ℕ) : Option ℤ := requests[tid]?.map Request.burst

theorem Policy.quantum_pos (policy : Policy) : ∀ q ∈ policy.quantum, 0 < q := by
  cases policy <;> simp [quantum, TIME_QUANTUM]

def Task.request (t : Task) : Request := ⟨t.name, t.priority, t.burst⟩

theorem tasks_request (requests : List Request) :
    (tasks requests).map Task.request = requests := by
  induction requests using List.reverseRecOn with
  | nil => rfl
  | append_singleton requests r ih =>
    rw [tasks_concat, List.map_append, ih]
    rfl

theorem tasks_valid (h : ∀ r ∈ requests, r.Valid) :
    ∀ t ∈ tasks requests, 0 < t.burst ∧ MIN_PRIORITY ≤ t.priority ∧ t.priority ≤ MAX_PRIORITY := by
  intro t ht
  have hmem : t.request ∈ requests := tasks_request requests ▸ List.mem_map_of_mem ht
  exact h t.request hmem

theorem good_start (h : ∀ r ∈ requests, r.Valid) : Good (burstOf requests) (tasks requests) [] := by
  refine ⟨fun t ht => (tasks_valid h t ht).1, fun t ht => ?_, fun tid w hw htid => ?_⟩
  · obtain ⟨i, hi, rfl⟩ := List.mem_mapIdx.mp ht
    simp [burstOf, Request.task, received, hi]
  · rw [tasks_tid, List.mem_range] at htid
    simp [burstOf, List.getElem?_eq_none (not_lt.mp htid)] at hw

/-- Keys that compare as the policy does are in order when the tasks fit it. -/
theorem ordered_iff_fits {α : Type} [LinearOrder α] {policy : Policy} (key : Task → α)
    (hkey : ∀ t x, key t ≤ key x ↔ policy.Prefers t.request x.request) :
    Ordered ((tasks requests).map fun t => (t, key t)) ↔ policy.Fits requests := by
  rw [Policy.Fits, ← tasks_request requests, Ordered, List.pairwise_map, List.pairwise_map,
    tasks_request]
  refine List.Pairwise.iff (fun t x => ?_)
  rw [hkey]
  rfl

/-- What an elimination by the policy's keys says about the program. -/
theorem books_of_elim {α : Type} [LinearOrder α] {policy : Policy} {c c' : Cpu} (key : Task → α)
    (h : ∀ r ∈ requests, r.Valid) (hc : c = init.cpu)
    (hkey : ∀ t x, key t ≤ key x ↔ policy.Prefers t.request x.request)
    (helim : Elimination policy.quantum ((tasks requests).map fun t => (t, key t)) c c') :
    Run policy.quantum (tasks requests) init.cpu c' ∧
      (Exact (burstOf requests) c'.slices ↔ policy.Fits requests) := by
  subst hc
  have hmap : ((tasks requests).map fun t => (t, key t)).map Prod.fst = tasks requests := by
    simp [List.map_map, Function.comp_def]
  refine ⟨hmap ▸ helim.run, ?_⟩
  rw [← ordered_iff_fits key hkey]
  refine helim.exact_iff policy.quantum_pos ?_ ?_
  · rw [hmap, tasks_tid]
    exact List.nodup_range
  · rw [hmap]
    exact good_start h

/-- A policy runs to its end, and the tasks get their bursts when they fit it. -/
theorem main_spec (policy : Policy) (h : ∀ r ∈ requests, r.Valid) :
    ∃ s, main policy requests = some s ∧
      Run policy.quantum (tasks requests) init.cpu s.cpu ∧
      (Exact (burstOf requests) s.cpu.slices ↔ policy.Fits requests) := by
  obtain ⟨s₀, hs₀, hlisted, hcpu⟩ := reverse_add_spec requests
  have hpos : ∀ t ∈ tasks requests, 0 < t.burst := fun t ht => (tasks_valid h t ht).1
  cases policy with
  | fcfs =>
    obtain ⟨s, hs, helim⟩ := fcfs_spec hlisted
    refine ⟨s, by simp [main, schedule, hs₀, hs], books_of_elim _ h hcpu ?_ helim⟩
    simp [Policy.Prefers]
  | sjf =>
    obtain ⟨s, hs, helim⟩ := select_spec Task.burst hlisted
    exact ⟨s, by simp [main, schedule, hs₀, sjf, hs],
      books_of_elim _ h hcpu (fun _ _ => Iff.rfl) helim⟩
  | priority =>
    obtain ⟨s, hs, helim⟩ := select_spec Task.priority hlisted
    exact ⟨s, by simp [main, schedule, hs₀, priority, hs],
      books_of_elim _ h hcpu (fun _ _ => Iff.rfl) helim⟩
  | rr =>
    obtain ⟨s, hs, helim⟩ := rr_spec (a := []) (b := tasks requests) hlisted (fun _ => rfl) hpos
    rw [← hlisted.head] at hs
    exact ⟨s, by simp [main, schedule, hs₀, hs],
      books_of_elim rounds h hcpu (fun _ _ => Iff.rfl)
        (by simpa [turns, Policy.quantum] using helim)⟩
  | priorityRr =>
    obtain ⟨s, hs, helim⟩ := levels_spec (p := MIN_PRIORITY) hlisted hpos
      fun t ht => (tasks_valid h t ht).2
    rw [← hlisted.head] at hs
    exact ⟨s, by simp [main, schedule, hs₀, hs],
      books_of_elim ahead h hcpu (fun _ _ => Prod.Lex.toLex_le_toLex) helim⟩

/-- A program gives every task its burst, and never runs one that has got it. -/
def Allots (policy : Policy) (requests : List Request) : Prop :=
  ∃ s, main policy requests = some s ∧ Exact (burstOf requests) s.cpu.slices ∧
    NoOverrun (burstOf requests) s.cpu.slices

/-- The tasks get exactly their bursts when, of two tasks of one name, the
policy ends the one added first before the other: `delete` takes out the first
of a name, whichever of them was run. -/
theorem allots_iff (policy : Policy) (h : ∀ r ∈ requests, r.Valid) :
    Allots policy requests ↔ policy.Fits requests := by
  obtain ⟨s, hs, hrun, hexact⟩ := main_spec policy h
  constructor
  · rintro ⟨s', hs', hexact', -⟩
    obtain rfl : s = s' := Option.some.inj (hs.symm.trans hs')
    exact hexact.mp hexact'
  · intro hfits
    have hpos : ∀ t ∈ tasks requests, 0 < t.burst := fun t ht => (tasks_valid h t ht).1
    obtain ⟨zs, hzs, hmem⟩ := hrun.extends policy.quantum_pos hpos
    have hslices : s.cpu.slices = zs := hzs
    refine ⟨s, hs, hexact.mpr hfits, (hexact.mpr hfits).noOverrun ?_ ?_⟩
    · rw [hslices]
      exact fun e he => (hmem e he).2
    · intro e he
      rw [hslices] at he
      have htid := (hmem e he).1
      rw [tasks_tid, List.mem_range] at htid
      exact ⟨requests[e.tid].burst, by simp [burstOf, htid]⟩

/-- Two tasks of one name, the second one shorter. -/
def twins : List Request := [⟨"A", 1, 5⟩, ⟨"A", 1, 3⟩]

theorem twins_valid : ∀ r ∈ twins, r.Valid := by
  simp [twins, Request.Valid, MIN_PRIORITY, MAX_PRIORITY]

theorem allots_iff_twins : Allots .fcfs twins ↔ Policy.fcfs.Fits twins :=
  allots_iff .fcfs twins_valid

/-- Under shortest job first, the second is run twice and the first never. -/
theorem not_allots_twins : ¬∀ (policy : Policy) (requests : List Request),
    (∀ r ∈ requests, r.Valid) → Allots policy requests := by
  intro hall
  obtain ⟨s, hs, hexact, -⟩ := hall .sjf twins twins_valid
  obtain ⟨s', hs', -, hiff⟩ := main_spec .sjf twins_valid
  obtain rfl : s = s' := Option.some.inj (hs.symm.trans hs')
  have hfits := hiff.mp hexact
  simp [Policy.Fits, Policy.Prefers, twins] at hfits

end Course.Os.Scheduler
