import Mathlib.Algebra.BigOperators.Group.List.Basic
import Mathlib.Algebra.Order.BigOperators.Group.List
import Mathlib.Algebra.Order.Group.Int
import Mathlib.Order.Defs.LinearOrder
import Course.Os.TaskQueue

/-! What a scheduler does to its list, apart from where its cursor stands: every
turn runs a task for a quantum or to its end, and a task that ends takes the
first one of its name out of the list. -/

universe u

namespace Course.Os.Scheduler

/-- The turns from a list of tasks up to the empty list. -/
inductive Run (quantum : Option ℤ) : List Task → Cpu → Cpu → Prop
  | nil (c : Cpu) : Run quantum [] c c
  | finish {t : Task} {c c' : Cpu} {a b : List Task} : (∀ q ∈ quantum, t.burst ≤ q) →
      Run quantum ((a ++ [t]).eraseP (named t) ++ b) (c.run t t.burst) c' →
      Run quantum (a ++ t :: b) c c'
  | slice {t : Task} {c c' : Cpu} {a b : List Task} {q : ℤ} : q ∈ quantum → q < t.burst →
      Run quantum (a ++ { t with burst := t.burst - q } :: b) (c.run t q) c' →
      Run quantum (a ++ t :: b) c c'

variable {quantum : Option ℤ} {c c' : Cpu} {l a b : List Task} {t : Task} {xs : List Slice}

@[simp]
theorem run_slices (c : Cpu) (t : Task) (q : ℤ) :
    (c.run t q).slices = c.slices ++ [⟨t.tid, c.time, q⟩] := by
  simp only [Cpu.run]
  split <;> split <;> rfl

/-- The time a task was given. -/
def received (xs : List Slice) (tid : ℕ) : ℤ :=
  ((xs.filter fun e => e.tid = tid).map Slice.length).sum

theorem received_append (xs ys : List Slice) (tid : ℕ) :
    received (xs ++ ys) tid = received xs tid + received ys tid := by
  simp [received]

theorem received_self (tid : ℕ) (start length : ℤ) :
    received [⟨tid, start, length⟩] tid = length := by
  simp [received]

theorem received_of_notMem (xs : List Slice) {tid : ℕ} (h : ∀ e ∈ xs, e.tid ≠ tid) :
    received xs tid = 0 := by
  have hfilter : xs.filter (fun e => e.tid = tid) = [] :=
    List.filter_eq_nil_iff.mpr fun e he => by simpa using h e he
  rw [received, hfilter]
  rfl

theorem received_nonneg (xs : List Slice) (h : ∀ e ∈ xs, 0 < e.length) (tid : ℕ) :
    0 ≤ received xs tid := by
  apply List.sum_nonneg
  intro d hd
  obtain ⟨e, he, rfl⟩ := List.mem_map.mp hd
  exact (h e (List.mem_of_mem_filter he)).le

/-! ### The books -/

variable (bursts : ℕ → Option ℤ)

/-- Every task was given the burst it was added with. -/
def Exact (xs : List Slice) : Prop :=
  ∀ tid w, bursts tid = some w → received xs tid = w

/-- No task was run after it had been given its burst. -/
def NoOverrun (xs : List Slice) : Prop :=
  ∀ pre e post, xs = pre ++ e :: post → ∃ w, bursts e.tid = some w ∧ received pre e.tid < w

/-- What is still due to the tasks of the list is what they have left, and
nothing is due to the others. -/
structure Good (l : List Task) (xs : List Slice) : Prop where
  pos : ∀ t ∈ l, 0 < t.burst
  due : ∀ t ∈ l, bursts t.tid = some (received xs t.tid + t.burst)
  done : ∀ tid w, bursts tid = some w → tid ∉ l.map Task.tid → received xs tid = w

/-- A task left the list without its burst. -/
def Lost (l : List Task) (xs : List Slice) : Prop :=
  ∃ tid w, bursts tid = some w ∧ tid ∉ l.map Task.tid ∧ received xs tid ≠ w

variable {bursts}

theorem mem_middle {x : Task} : x ∈ a ++ t :: b ↔ x = t ∨ x ∈ a ++ b := by
  simp only [List.mem_append, List.mem_cons]
  tauto

theorem mem_of_mem_finish {x : Task} (h : x ∈ (a ++ [t]).eraseP (named t) ++ b) :
    x ∈ a ++ t :: b := by
  rw [List.append_cons]
  exact List.mem_append.mpr ((List.mem_append.mp h).imp_left List.mem_of_mem_eraseP)

/-- The slices of a run: all of tasks of the list. -/
theorem Run.extends (h : Run quantum l c c') (hq : ∀ q ∈ quantum, 0 < q)
    (hpos : ∀ t ∈ l, 0 < t.burst) :
    ∃ zs, c'.slices = c.slices ++ zs ∧ ∀ e ∈ zs, e.tid ∈ l.map Task.tid ∧ 0 < e.length := by
  induction h with
  | nil c => exact ⟨[], by simp, by simp⟩
  | @finish t c c' a b hle hrun ih =>
    obtain ⟨zs, hzs, hmem⟩ := ih fun x hx => hpos x (mem_of_mem_finish hx)
    refine ⟨⟨t.tid, c.time, t.burst⟩ :: zs, by simp [hzs], fun e he => ?_⟩
    rcases List.mem_cons.mp he with rfl | he
    · exact ⟨by simp, hpos t (by simp)⟩
    · obtain ⟨htid, hlen⟩ := hmem e he
      obtain ⟨x, hx, hxe⟩ := List.mem_map.mp htid
      exact ⟨List.mem_map.mpr ⟨x, mem_of_mem_finish hx, hxe⟩, hlen⟩
  | @slice t c c' a b q hmem hlt hrun ih =>
    obtain ⟨zs, hzs, hzmem⟩ := ih (by
      intro x hx
      rcases List.mem_append.mp hx with hx | hx
      · exact hpos x (by simp [hx])
      · rcases List.mem_cons.mp hx with rfl | hx
        · exact Int.sub_pos_of_lt hlt
        · exact hpos x (by simp [hx]))
    refine ⟨⟨t.tid, c.time, q⟩ :: zs, by simp [hzs], fun e he => ?_⟩
    rcases List.mem_cons.mp he with rfl | he
    · exact ⟨by simp, hq q hmem⟩
    · simpa using hzmem e he

/-- What a lost task is short of is never made up. -/
theorem Run.not_exact (h : Run quantum l c c') (hq : ∀ q ∈ quantum, 0 < q)
    (hpos : ∀ t ∈ l, 0 < t.burst) (hlost : Lost bursts l c.slices) : ¬Exact bursts c'.slices := by
  obtain ⟨tid, w, hw, htid, hne⟩ := hlost
  obtain ⟨zs, hzs, hmem⟩ := h.extends hq hpos
  intro hexact
  have hzero : received zs tid = 0 :=
    received_of_notMem zs fun e he heq => htid (heq ▸ (hmem e he).1)
  have := hexact tid w hw
  rw [hzs, received_append, hzero, add_zero] at this
  exact hne this

theorem Exact.noOverrun (h : Exact bursts xs) (hpos : ∀ e ∈ xs, 0 < e.length)
    (htid : ∀ e ∈ xs, ∃ w, bursts e.tid = some w) : NoOverrun bursts xs := by
  intro pre e post hxs
  have he : e ∈ xs := by simp [hxs]
  obtain ⟨w, hw⟩ := htid e he
  refine ⟨w, hw, ?_⟩
  have hsum := h e.tid w hw
  have hpost := received_nonneg post (fun x hx => hpos x (by simp [hxs, hx])) e.tid
  have hself : received [e] e.tid = e.length := received_self e.tid e.start e.length
  have hlen := hpos e he
  rw [hxs, List.append_cons, received_append, received_append] at hsum
  omega

/-! ### Turns -/

theorem received_concat_of_ne {tid : ℕ} (hne : t.tid ≠ tid) (xs : List Slice) (start q : ℤ) :
    received (xs ++ [⟨t.tid, start, q⟩]) tid = received xs tid := by
  rw [received_append, received_of_notMem [⟨t.tid, start, q⟩] (by simpa using hne),
    add_zero]

theorem received_concat_self (t : Task) (xs : List Slice) (start q : ℤ) :
    received (xs ++ [⟨t.tid, start, q⟩]) t.tid = received xs t.tid + q := by
  rw [received_append, received_self]

/-- No other task of the list has the number of `t`. -/
theorem tid_ne (hnodup : ((a ++ t :: b).map Task.tid).Nodup) {x : Task} (hx : x ∈ a ++ b) :
    t.tid ≠ x.tid := by
  have hperm : ((t :: (a ++ b)).map Task.tid).Nodup :=
    (List.perm_middle.map Task.tid).nodup_iff.mp hnodup
  rw [List.map_cons, List.nodup_cons] at hperm
  exact fun heq => hperm.1 (heq ▸ List.mem_map_of_mem hx)

theorem Good.slice {q : ℤ} (h : Good bursts (a ++ t :: b) xs)
    (hnodup : ((a ++ t :: b).map Task.tid).Nodup) (hlt : q < t.burst) (start : ℤ) :
    Good bursts (a ++ { t with burst := t.burst - q } :: b) (xs ++ [⟨t.tid, start, q⟩]) := by
  refine ⟨?_, ?_, ?_⟩
  · intro x hx
    rcases mem_middle.mp hx with rfl | hx
    · exact Int.sub_pos_of_lt hlt
    · exact h.pos x (mem_middle.mpr (.inr hx))
  · intro x hx
    rcases mem_middle.mp hx with rfl | hx
    · rw [received_concat_self, h.due t (by simp)]
      simp only [Option.some.injEq]
      omega
    · rw [received_concat_of_ne (tid_ne hnodup hx), h.due x (mem_middle.mpr (.inr hx))]
  · intro tid w hw htid
    have htid : tid ∉ (a ++ t :: b).map Task.tid := by simpa using htid
    rw [received_concat_of_ne fun heq => htid (by simp [heq])]
    exact h.done tid w hw htid

theorem Good.finish (h : Good bursts (a ++ t :: b) xs)
    (hnodup : ((a ++ t :: b).map Task.tid).Nodup) (start : ℤ) :
    Good bursts (a ++ b) (xs ++ [⟨t.tid, start, t.burst⟩]) := by
  refine ⟨fun x hx => h.pos x (mem_middle.mpr (.inr hx)), ?_, ?_⟩
  · intro x hx
    rw [received_concat_of_ne (tid_ne hnodup hx), h.due x (mem_middle.mpr (.inr hx))]
  · intro tid w hw htid
    by_cases heq : t.tid = tid
    · subst heq
      rw [received_concat_self]
      exact Option.some.inj ((h.due t (by simp)).symm.trans hw)
    · rw [received_concat_of_ne heq]
      refine h.done tid w hw fun hmem => htid ?_
      obtain ⟨x, hx, rfl⟩ := List.mem_map.mp hmem
      rcases mem_middle.mp hx with rfl | hx
      · exact absurd rfl heq
      · exact List.mem_map_of_mem hx

/-- A task that ends while another of its name is before it takes that one out. -/
theorem Good.lost (h : Good bursts (a ++ t :: b) xs)
    (hnodup : ((a ++ t :: b).map Task.tid).Nodup) (hnamed : ∃ x ∈ a, named t x = true)
    (start : ℤ) :
    Lost bursts ((a ++ [t]).eraseP (named t) ++ b) (xs ++ [⟨t.tid, start, t.burst⟩]) := by
  obtain ⟨x, hx, hxn⟩ := hnamed
  obtain ⟨y, a₁, a₂, -, -, rfl, herase⟩ := List.exists_of_eraseP hx hxn
  have hy : y ∈ (a₁ ++ y :: a₂) ++ t :: b := by simp
  have hnotMem : y.tid ∉ ((a₁ ++ a₂ ++ [t]) ++ b).map Task.tid := by
    have hperm : ((y :: (a₁ ++ a₂ ++ [t] ++ b)).map Task.tid).Nodup := by
      refine List.Perm.nodup_iff (List.Perm.map _ ?_) |>.mp hnodup
      simp only [List.append_assoc, List.cons_append, List.nil_append]
      exact List.perm_middle
    rw [List.map_cons, List.nodup_cons] at hperm
    exact hperm.1
  refine ⟨y.tid, _, h.due y hy, ?_, ?_⟩
  · rwa [List.eraseP_append_left hxn _ hx, herase]
  · have hne : t.tid ≠ y.tid := fun heq => hnotMem (by simp [heq])
    rw [received_concat_of_ne hne]
    have := h.pos y hy
    omega

/-! ### Elimination by key -/

section Keys

variable {α : Type u} [LinearOrder α]

/-- Of two tasks of one name the first has the smaller key, or an equal one. -/
def Ordered (l : List (Task × α)) : Prop :=
  l.Pairwise fun x y => x.1.name = y.1.name → x.2 ≤ y.2

/-- The first of the smallest keys is between `a` and `b`. -/
structure IsFirst (a : List (Task × α)) (k : α) (b : List (Task × α)) : Prop where
  before : ∀ x ∈ a, k < x.2
  after : ∀ x ∈ b, k ≤ x.2

/-- The first task with the smallest key is alone of its name before it, unless
the keys are out of order. -/
theorem IsFirst.ordered_iff {a b : List (Task × α)} {k : α} (h : IsFirst a k b) :
    Ordered (a ++ (t, k) :: b) ↔ (∀ x ∈ a, named t x.1 = false) ∧ Ordered (a ++ b) := by
  simp only [Ordered, List.pairwise_append, List.pairwise_cons, List.mem_cons]
  constructor
  · rintro ⟨ha, ⟨-, hb⟩, hab⟩
    refine ⟨fun x hx => ?_, ha, hb, fun x hx y hy => hab x hx y (.inr hy)⟩
    apply decide_eq_false
    intro hname
    exact absurd (hab x hx (t, k) (.inl rfl) hname.symm) (not_le_of_gt (h.before x hx))
  · rintro ⟨hnamed, ha, hb, hab⟩
    refine ⟨ha, ⟨fun y hy _ => h.after y hy, hb⟩, fun x hx y hy hname => ?_⟩
    rcases hy with rfl | hy
    · exact absurd hname.symm (of_decide_eq_false (hnamed x hx))
    · exact hab x hx y hy hname

/-- A run that always ends the first task with the smallest key, up to the turn
that takes the wrong one out. -/
inductive Elimination (quantum : Option ℤ) : List (Task × α) → Cpu → Cpu → Prop
  | nil (c : Cpu) : Elimination quantum [] c c
  | finish {t : Task} {c c' : Cpu} {a b : List (Task × α)} {k : α} : IsFirst a k b →
      (∀ x ∈ a, named t x.1 = false) → (∀ q ∈ quantum, t.burst ≤ q) →
      Elimination quantum (a ++ b) (c.run t t.burst) c' →
      Elimination quantum (a ++ (t, k) :: b) c c'
  | lose {t : Task} {c c' : Cpu} {a b : List (Task × α)} {k : α} : IsFirst a k b →
      (∃ x ∈ a, named t x.1 = true) → (∀ q ∈ quantum, t.burst ≤ q) →
      Run quantum ((a.map Prod.fst ++ [t]).eraseP (named t) ++ b.map Prod.fst)
        (c.run t t.burst) c' →
      Elimination quantum (a ++ (t, k) :: b) c c'
  | slice {t : Task} {c c' : Cpu} {a b : List (Task × α)} {k : α} {q : ℤ} :
      q ∈ quantum → q < t.burst →
      Elimination quantum (a ++ ({ t with burst := t.burst - q }, k) :: b) (c.run t q) c' →
      Elimination quantum (a ++ (t, k) :: b) c c'
  | rekey {c c' : Cpu} {l l' : List (Task × α)} : l.map Prod.fst = l'.map Prod.fst →
      (Ordered l ↔ Ordered l') → Elimination quantum l' c c' → Elimination quantum l c c'

theorem eraseP_of_free (h : ∀ x ∈ a, named t x = false) : (a ++ [t]).eraseP (named t) = a := by
  rw [List.eraseP_append_right _ (by simpa using h),
    List.eraseP_cons_of_pos (named_self t), List.append_nil]

theorem Elimination.run {l : List (Task × α)} (h : Elimination quantum l c c') :
    Run quantum (l.map Prod.fst) c c' := by
  induction h with
  | nil c => exact .nil c
  | finish _ hfree hle _ ih =>
    rw [List.map_append, List.map_cons]
    refine .finish hle ?_
    rw [eraseP_of_free (by simpa using hfree), ← List.map_append]
    exact ih
  | lose _ _ hle hrun =>
    rw [List.map_append, List.map_cons]
    exact .finish hle hrun
  | slice hq hlt _ ih =>
    rw [List.map_append, List.map_cons] at ih ⊢
    exact .slice hq hlt ih
  | rekey hmap _ _ ih => exact hmap ▸ ih

/-- The turn of the first task with the smallest key, when the right task leaves
the list and when another does. -/
theorem Elimination.turn {a b l : List (Task × α)} {k : α} (hfirst : IsFirst a k b)
    (hle : ∀ q ∈ quantum, t.burst ≤ q)
    (hmap : l.map Prod.fst = (a.map Prod.fst ++ [t]).eraseP (named t) ++ b.map Prod.fst)
    (hordered : (∀ x ∈ a, named t x.1 = false) → (Ordered (a ++ b) ↔ Ordered l))
    (h : Elimination quantum l (c.run t t.burst) c') :
    Elimination quantum (a ++ (t, k) :: b) c c' := by
  by_cases hfree : ∀ x ∈ a, named t x.1 = false
  · refine .finish hfirst hfree hle (.rekey ?_ (hordered hfree) h)
    rw [hmap, eraseP_of_free (by simpa using hfree), List.map_append]
  · push Not at hfree
    obtain ⟨x, hx, hxn⟩ := hfree
    exact .lose hfirst ⟨x, hx, by simpa using hxn⟩ hle (hmap ▸ h.run)

/-- The books come out right exactly when the keys are in order. -/
theorem Elimination.exact_iff {l : List (Task × α)} (h : Elimination quantum l c c')
    (hq : ∀ q ∈ quantum, 0 < q) (hnodup : ((l.map Prod.fst).map Task.tid).Nodup)
    (hgood : Good bursts (l.map Prod.fst) c.slices) : Exact bursts c'.slices ↔ Ordered l := by
  induction h with
  | nil c =>
    refine ⟨fun _ => List.Pairwise.nil, fun _ tid w hw => ?_⟩
    exact hgood.done tid w hw (by simp)
  | @finish t c c' a b k hfirst hfree hle _ ih =>
    rw [List.map_append, List.map_cons] at hnodup hgood
    rw [hfirst.ordered_iff, and_iff_right hfree]
    apply ih
    · rw [List.map_append]
      refine hnodup.sublist (List.Sublist.map _ (List.Sublist.append_left ?_ _))
      exact List.sublist_cons_self _ _
    · rw [run_slices, List.map_append]
      exact hgood.finish hnodup _
  | @lose t c c' a b k hfirst hnamed hle hrun =>
    rw [List.map_append, List.map_cons] at hnodup hgood
    rw [hfirst.ordered_iff]
    obtain ⟨x, hx, hxn⟩ := hnamed
    refine iff_of_false ?_ fun hord => ?_
    · refine hrun.not_exact hq (fun y hy => hgood.pos y (mem_of_mem_finish hy)) ?_
      rw [run_slices]
      exact hgood.lost hnodup ⟨x.1, List.mem_map_of_mem hx, hxn⟩ _
    · rw [hord.1 x hx] at hxn
      cases hxn
  | @slice t c c' a b k q hmem hlt _ ih =>
    rw [List.map_append, List.map_cons] at hnodup hgood
    have hord : Ordered (a ++ (t, k) :: b) ↔
        Ordered (a ++ ({ t with burst := t.burst - q }, k) :: b) := by
      simp [Ordered, List.pairwise_append, List.pairwise_cons]
    rw [hord]
    apply ih
    · simpa using hnodup
    · rw [run_slices, List.map_append, List.map_cons]
      exact hgood.slice hnodup hlt _
  | rekey hmap hord _ ih =>
    rw [hord]
    exact ih (hmap ▸ hnodup) (hmap ▸ hgood)

end Keys

end Course.Os.Scheduler
