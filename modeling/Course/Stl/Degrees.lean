import Mathlib.Data.List.Count
import Mathlib.Data.List.Nodup
import Mathlib.Data.List.Perm.Basic
import Mathlib.Data.Nat.Find

/-! The degrees of a list of trees, and what the passes of the private `merge` make
of them. -/

namespace Course.Stl.PriorityQueue.Degrees

/-- The first loop, on the degrees. -/
def front : List ℕ → List ℕ
  | [] => []
  | [d] => [d]
  | d :: d' :: n => if d = d' then front ((d + 1) :: n) else d :: d' :: n
termination_by l => l.length

/-- The second loop, on the degrees. -/
def rest : List ℕ → List ℕ
  | [] => []
  | [d] => [d]
  | d :: d' :: n => if d = d' ∧ n.head? ≠ some d' then (d + 1) :: rest n else d :: rest (d' :: n)

/-- The second loop begins behind the first tree. -/
def tail : List ℕ → List ℕ
  | [] => []
  | d :: n => d :: rest n

def pass (l : List ℕ) : List ℕ := tail (front l)

variable {l n : List ℕ} {d e m t : ℕ}

/-! ### The second loop -/

theorem le_of_mem_rest (h : ∀ x ∈ l, m ≤ x) : ∀ x ∈ rest l, m ≤ x := by
  fun_induction rest l with
  | case1 => exact h
  | case2 d => exact h
  | case3 d d' n heq ih =>
    have hd := h d List.mem_cons_self
    refine List.forall_mem_cons.mpr ⟨by omega, ih fun x hx => ?_⟩
    exact h x (List.mem_cons_of_mem _ (List.mem_cons_of_mem _ hx))
  | case4 d d' n hne ih =>
    exact List.forall_mem_cons.mpr
      ⟨h d List.mem_cons_self, ih fun x hx => h x (List.mem_cons_of_mem _ hx)⟩

/-- Degrees in order, at most two of each. -/
structure Sorted (l : List ℕ) : Prop where
  le : l.Pairwise (· ≤ ·)
  count_le : ∀ k, l.count k ≤ 2

namespace Sorted

theorem of_cons (h : Sorted (d :: n)) : Sorted n where
  le := h.le.of_cons
  count_le k := Nat.le_trans List.count_le_count_cons (h.count_le k)

theorem merge (hl : l.Pairwise (· < ·)) (hn : n.Pairwise (· < ·)) :
    Sorted (l.merge n (· ≤ ·)) where
  le := by
    have hle : ∀ {l : List ℕ}, l.Pairwise (· < ·) → l.Pairwise fun a b => decide (a ≤ b) = true :=
      fun hl => hl.imp fun hlt => decide_eq_true (Nat.le_of_lt hlt)
    have hmerge : (l.merge n (· ≤ ·)).Pairwise fun a b => decide (a ≤ b) = true := by
      refine List.pairwise_merge (fun a b c hab hbc => ?_) (fun a b => ?_) l n (hle hl) (hle hn)
      · exact decide_eq_true (Nat.le_trans (of_decide_eq_true hab) (of_decide_eq_true hbc))
      · simpa using Nat.le_total a b
    exact hmerge.imp of_decide_eq_true
  count_le k := by
    have hperm : (l.merge n (· ≤ ·)).Perm (l ++ n) := List.merge_perm_append _
    have hl' := List.nodup_iff_count_le_one.mp (hl.imp fun h => Nat.ne_of_lt h) k
    have hn' := List.nodup_iff_count_le_one.mp (hn.imp fun h => Nat.ne_of_lt h) k
    rw [hperm.count_eq, List.count_append]
    omega

theorem head_le (h : Sorted (d :: n)) : ∀ x ∈ n, d ≤ x :=
  fun _ hx => List.rel_of_pairwise_cons h.le hx

/-- Behind two equal degrees all are higher. -/
theorem lt_of_twice (h : Sorted (d :: d :: n)) : ∀ x ∈ n, d < x := by
  intro x hx
  refine Nat.lt_of_le_of_ne (h.of_cons.head_le x hx) ?_
  rintro rfl
  have hcount := h.count_le d
  have hpos := List.count_pos_iff.mpr hx
  simp only [List.count_cons_self] at hcount
  omega

/-- Two neighbours that the second loop leaves apart are different. -/
theorem lt_of_apart {d' : ℕ} (h : Sorted (d :: d' :: n)) (hne : ¬(d = d' ∧ n.head? ≠ some d')) :
    ∀ x ∈ d' :: n, d < x := by
  have hlt : d < d' := by
    refine Nat.lt_of_le_of_ne (h.head_le d' List.mem_cons_self) ?_
    rintro rfl
    have hhead : n.head? = some d := by
      by_contra hhead
      exact hne ⟨rfl, hhead⟩
    exact absurd (h.lt_of_twice d (List.mem_of_head? hhead)) (Nat.lt_irrefl d)
  intro x hx
  rcases List.mem_cons.mp hx with rfl | hx
  · exact hlt
  · exact Nat.lt_of_lt_of_le hlt (h.of_cons.head_le x hx)

/-- The lowest degree of the result was there once. -/
theorem count_of_mem_rest (h : Sorted l) (hm : ∀ x ∈ l, m ≤ x) (hmem : m ∈ rest l) :
    l.count m = 1 := by
  fun_induction rest l with
  | case1 => exact absurd hmem List.not_mem_nil
  | case2 d =>
    obtain rfl := List.mem_singleton.mp hmem
    exact List.count_singleton_self
  | case3 d d' n heq ih =>
    obtain ⟨rfl, -⟩ := heq
    have hd := hm d List.mem_cons_self
    rcases List.mem_cons.mp hmem with rfl | hmem
    · omega
    · have hlt := le_of_mem_rest (m := d + 1) (fun x hx => h.lt_of_twice x hx) m hmem
      omega
  | case4 d d' n hne ih =>
    have hlt := h.lt_of_apart hne
    rcases List.mem_cons.mp hmem with rfl | hmem
    · rw [List.count_cons_self, List.count_eq_zero.mpr]
      exact fun hmem' => absurd (hlt m hmem') (Nat.lt_irrefl m)
    · have hle := le_of_mem_rest (m := d + 1) (fun x hx => hlt x hx) m hmem
      have hd := hm d List.mem_cons_self
      omega

/-- No carry of the second loop meets a single degree. -/
def Clear (t : ℕ) (l : List ℕ) : Prop := ∀ k, t ≤ k → l.count k = 2 → l.count (k + 1) ≠ 1

theorem pairwise_rest (h : Sorted l) (ht : ∀ x ∈ l, t ≤ x) (hclear : Clear t l) :
    (rest l).Pairwise (· < ·) := by
  fun_induction rest l generalizing t with
  | case1 => exact .nil
  | case2 d => exact List.pairwise_singleton ..
  | case3 d d' n heq ih =>
    obtain ⟨rfl, -⟩ := heq
    have hlt := h.lt_of_twice
    have hnot : d ∉ n := fun hmem => absurd (hlt d hmem) (Nat.lt_irrefl d)
    have hcount : ∀ k, d < k → (d :: d :: n).count k = n.count k := by
      intro k hk
      rw [List.count_cons_of_ne (by omega), List.count_cons_of_ne (by omega)]
    refine List.pairwise_cons.mpr ⟨fun x hx => ?_, ih h.of_cons.of_cons (t := d + 1) hlt ?_⟩
    · -- the carry is below all that follows, unless `d + 1` is there once
      have hle := le_of_mem_rest (m := d + 1) hlt x hx
      refine Nat.lt_of_le_of_ne hle ?_
      rintro rfl
      have hone := h.of_cons.of_cons.count_of_mem_rest hlt hx
      refine hclear d (ht d List.mem_cons_self) ?_ ?_
      · rw [List.count_cons_self, List.count_cons_self, List.count_eq_zero.mpr hnot]
      · rw [hcount _ (Nat.lt_succ_self d), hone]
    · intro k hk htwo
      have hd := ht d List.mem_cons_self
      rw [← hcount k (by omega)] at htwo
      rw [← hcount (k + 1) (by omega)]
      exact hclear k (by omega) htwo
  | case4 d d' n hne ih =>
    have hlt := h.lt_of_apart hne
    have hcount : ∀ k, d < k → (d :: d' :: n).count k = (d' :: n).count k :=
      fun k hk => List.count_cons_of_ne (by omega)
    refine List.pairwise_cons.mpr ⟨fun x hx => ?_, ih h.of_cons (t := d + 1) hlt ?_⟩
    · exact le_of_mem_rest (m := d + 1) hlt x hx
    · intro k hk htwo
      have hd := ht d List.mem_cons_self
      rw [← hcount k (by omega)] at htwo
      rw [← hcount (k + 1) (by omega)]
      exact hclear k (by omega) htwo

/-- What the second loop leaves, or makes of two. -/
theorem mem_rest (h : Sorted l) {x : ℕ} :
    x ∈ rest l ↔ l.count x = 1 ∨ ∃ k, k + 1 = x ∧ l.count k = 2 := by
  fun_induction rest l with
  | case1 => simp
  | case2 d =>
    simp only [List.mem_singleton, List.count_singleton, beq_iff_eq]
    grind
  | case3 d d' n heq ih =>
    obtain ⟨rfl, -⟩ := heq
    have hnot : d ∉ n := fun hmem => absurd (h.lt_of_twice d hmem) (Nat.lt_irrefl d)
    have hzero : n.count d = 0 := List.count_eq_zero.mpr hnot
    rw [List.mem_cons, ih h.of_cons.of_cons]
    simp only [List.count_cons, beq_iff_eq]
    grind
  | case4 d d' n hne ih =>
    have hnot : d ∉ d' :: n := fun hmem => absurd (h.lt_of_apart hne d hmem) (Nat.lt_irrefl d)
    have hzero : (d' :: n).count d = 0 := List.count_eq_zero.mpr hnot
    rw [List.mem_cons, ih h.of_cons]
    simp only [fun k => List.count_cons (a := k) (b := d) (l := d' :: n), beq_iff_eq]
    generalize (d' :: n).count = c at *
    grind

end Sorted

/-! ### A whole pass -/

theorem front_of_lt (h : ∀ x ∈ n, d < x) : front (d :: n) = d :: n := by
  cases n with
  | nil => rw [front]
  | cons d' n =>
    rw [front, if_neg]
    exact Nat.ne_of_lt (h d' List.mem_cons_self)

theorem front_twice : front (d :: d :: n) = front ((d + 1) :: n) := by
  rw [front, if_pos rfl]

theorem pass_of_lt (h : ∀ x ∈ n, d < x) : pass (d :: n) = d :: rest n := by
  rw [pass, front_of_lt h, tail]

theorem pass_twice : pass (d :: d :: n) = pass ((d + 1) :: n) := by
  rw [pass, pass, front_twice]

theorem le_of_mem_front (h : ∀ x ∈ l, m ≤ x) : ∀ x ∈ front l, m ≤ x := by
  fun_induction front l with
  | case1 => exact h
  | case2 d => exact h
  | case3 d n ih =>
    apply ih
    have hd := h d List.mem_cons_self
    refine List.forall_mem_cons.mpr ⟨by omega, fun x hx => ?_⟩
    exact h x (List.mem_cons_of_mem _ (List.mem_cons_of_mem _ hx))
  | case4 => exact h

theorem le_of_mem_pass (h : ∀ x ∈ l, m ≤ x) : ∀ x ∈ pass l, m ≤ x := by
  have hfront := le_of_mem_front h
  rw [pass]
  generalize front l = l' at hfront
  cases l' with
  | nil => exact hfront
  | cons d n =>
    rw [tail]
    refine List.forall_mem_cons.mpr ⟨hfront d List.mem_cons_self, le_of_mem_rest fun x hx => ?_⟩
    exact hfront x (List.mem_cons_of_mem _ hx)

/-- A list that begins with its lowest degree, by what it has behind it. -/
theorem Sorted.exists_cons (h : Sorted n) (he : ∀ x ∈ n, e ≤ x) (hmem : e ∈ n) :
    ∃ n', n = e :: n' := by
  obtain ⟨d, n', rfl⟩ := List.exists_cons_of_ne_nil (List.ne_nil_of_mem hmem)
  obtain rfl : e = d := by
    refine Nat.le_antisymm (he d List.mem_cons_self) ?_
    rcases List.mem_cons.mp hmem with rfl | hmem
    · exact Nat.le_refl e
    · exact h.head_le e hmem
  exact ⟨n', rfl⟩

/-- A carry that goes through `k` single degrees up to a missing one. -/
theorem pairwise_pass_carry {k : ℕ} (h : Sorted n) (he : ∀ x ∈ n, e ≤ x)
    (hrun : ∀ i, e ≤ i → i < e + k → n.count i = 1) (hzero : n.count (e + k) = 0)
    (hclear : Sorted.Clear (e + k + 1) n) : (pass (e :: n)).Pairwise (· < ·) := by
  induction k generalizing e n with
  | zero =>
    have hall : ∀ x ∈ n, e < x := by
      intro x hx
      refine Nat.lt_of_le_of_ne (he x hx) ?_
      rintro rfl
      exact absurd hx (List.count_eq_zero.mp hzero)
    rw [pass_of_lt hall]
    exact List.pairwise_cons.mpr ⟨le_of_mem_rest (m := e + 1) hall, h.pairwise_rest hall hclear⟩
  | succ k ih =>
    have hone := hrun e (Nat.le_refl e) (by omega)
    obtain ⟨n', rfl⟩ := h.exists_cons he (List.count_pos_iff.mp (by omega))
    have hcount : ∀ i, e < i → (e :: n').count i = n'.count i :=
      fun i hi => List.count_cons_of_ne (by omega)
    have hnot : e ∉ n' := by
      rw [List.count_cons_self] at hone
      exact List.count_eq_zero.mp (by omega)
    have hlast : e + (k + 1) = e + 1 + k := by omega
    rw [pass_twice]
    apply ih h.of_cons
    · intro x hx
      exact Nat.lt_of_le_of_ne (h.head_le x hx) fun heq => hnot (heq ▸ hx)
    · intro i hi hik
      rw [← hcount i hi]
      exact hrun i (by omega) (by omega)
    · rw [← hcount _ (by omega), ← hlast]
      exact hzero
    · intro i hi htwo
      rw [← hcount i (by omega)] at htwo
      rw [← hcount (i + 1) (by omega)]
      exact hclear i (by omega) htwo

/-- A pass over these degrees drops no carry: `t` is where the carry of the lowest
degree ends, and above it no two equal degrees are followed by a single one. -/
def Carries (l : List ℕ) : Prop :=
  ∃ t, Sorted.Clear (t + 1) l ∧ ∀ m ∈ l, (∀ x ∈ l, m ≤ x) →
    l.count m = 1 ∧ t = m ∨
    l.count m = 2 ∧ m < t ∧ (∀ i, m < i → i < t → l.count i = 1) ∧ l.count t = 0

theorem Carries.perm (h : Carries l) (hperm : l.Perm n) : Carries n := by
  obtain ⟨t, hclear, hlow⟩ := h
  refine ⟨t, fun k hk => ?_, fun m hm hle => ?_⟩
  · rw [← hperm.count_eq, ← hperm.count_eq]
    exact hclear k hk
  · have hlowest := hlow m (hperm.mem_iff.mpr hm) fun x hx => hle x (hperm.mem_iff.mp hx)
    simpa only [hperm.count_eq] using hlowest

theorem pairwise_pass (h : Sorted l) (hcarries : Carries l) : (pass l).Pairwise (· < ·) := by
  obtain ⟨t, hclear, hlow⟩ := hcarries
  cases l with
  | nil => simp [pass, front, tail]
  | cons m n =>
    have hle : ∀ x ∈ m :: n, m ≤ x := List.forall_mem_cons.mpr ⟨Nat.le_refl m, h.head_le⟩
    have hcount : ∀ k, m < k → (m :: n).count k = n.count k :=
      fun k hk => List.count_cons_of_ne (by omega)
    have hclear' : Sorted.Clear (t + 1) n ∨ t < m := by
      rcases Nat.lt_or_ge t m with hlt | hge
      · exact .inr hlt
      · refine .inl fun k hk htwo => ?_
        rw [← hcount k (by omega)] at htwo
        rw [← hcount (k + 1) (by omega)]
        exact hclear k hk htwo
    rcases hlow m List.mem_cons_self hle with ⟨hone, rfl⟩ | ⟨htwo, hlt, hrun, hzero⟩
    · have hall : ∀ x ∈ n, t < x := by
        intro x hx
        refine Nat.lt_of_le_of_ne (h.head_le x hx) ?_
        rintro rfl
        have hpos := List.count_pos_iff.mpr hx
        rw [List.count_cons_self] at hone
        omega
      rw [pass_of_lt hall]
      refine List.pairwise_cons.mpr ⟨le_of_mem_rest (m := t + 1) hall, ?_⟩
      exact h.of_cons.pairwise_rest hall (hclear'.resolve_right (Nat.lt_irrefl t))
    · have hmem : m ∈ n := by
        rw [List.count_cons_self] at htwo
        exact List.count_pos_iff.mp (by omega)
      obtain ⟨n', rfl⟩ := h.of_cons.exists_cons h.head_le hmem
      have hcount' : ∀ k, m < k → (m :: m :: n').count k = n'.count k := by
        intro k hk
        rw [hcount k hk, List.count_cons_of_ne (by omega)]
      obtain ⟨k, rfl⟩ := Nat.exists_eq_add_of_le hlt
      rw [pass_twice]
      apply pairwise_pass_carry (k := k) h.of_cons.of_cons h.lt_of_twice
      · intro i hi hit
        rw [← hcount' i hi]
        exact hrun i hi hit
      · rw [← hcount' _ hlt]
        exact hzero
      · intro i hi htwo'
        rw [← hcount' i (by omega)] at htwo'
        rw [← hcount' (i + 1) (by omega)]
        exact hclear i hi htwo'

/-- As many different degrees reach at least this high. -/
theorem exists_length_le (h : l.Pairwise (· < ·)) (hne : l ≠ []) : ∃ d ∈ l, l.length ≤ d + 1 := by
  have hfrom : ∀ (l : List ℕ) (m : ℕ), l.Pairwise (· < ·) → (∀ x ∈ l, m ≤ x) → l ≠ [] →
      ∃ d ∈ l, m + l.length ≤ d + 1 := by
    intro l
    induction l with
    | nil => exact fun m _ _ hne => absurd rfl hne
    | cons a n ih =>
      intro m h hm _
      obtain ⟨ha, hn⟩ := List.pairwise_cons.mp h
      have hma := hm a List.mem_cons_self
      rcases eq_or_ne n [] with rfl | hne
      · exact ⟨a, List.mem_cons_self, by simpa using hma⟩
      · obtain ⟨d, hd, hle⟩ := ih (a + 1) hn ha hne
        refine ⟨d, List.mem_cons_of_mem a hd, ?_⟩
        rw [List.length_cons]
        omega
  obtain ⟨d, hd, hle⟩ := hfrom l 0 h (fun x _ => Nat.zero_le x) hne
  exact ⟨d, hd, by omega⟩

/-! ### One more tree -/

theorem exists_gt_notMem (l : List ℕ) (e : ℕ) : ∃ k, e < k ∧ k ∉ l := by
  have habove : ∃ k, e < k ∧ ∀ x ∈ l, x < k := by
    induction l with
    | nil => exact ⟨e + 1, Nat.lt_succ_self e, fun x hx => absurd hx List.not_mem_nil⟩
    | cons a l ih =>
      obtain ⟨k, hk, hall⟩ := ih
      refine ⟨max k (a + 1), by omega, List.forall_mem_cons.mpr ⟨by omega, fun x hx => ?_⟩⟩
      exact Nat.lt_of_lt_of_le (hall x hx) (Nat.le_max_left ..)
  obtain ⟨k, hk, hall⟩ := habove
  exact ⟨k, hk, fun hmem => absurd (hall k hmem) (Nat.lt_irrefl k)⟩

/-- The lowest degree joins every run of degrees above it. -/
theorem carries_lowest (hcount : ∀ k, l.count k = n.count k + if k = e then 1 else 0)
    (hnodup : ∀ k, n.count k ≤ 1) (he : e ∈ n) (hle : ∀ x ∈ l, e ≤ x) : Carries l := by
  obtain ⟨t, ⟨hlt, hnot⟩, hmin⟩ := Nat.findX (exists_gt_notMem n e)
  have htwo : n.count e = 1 := Nat.le_antisymm (hnodup e) (List.count_pos_iff.mpr he)
  refine ⟨t, fun k hk hk2 => ?_, fun m hm hlow => .inr ?_⟩
  · rw [hcount, if_neg (by omega)] at hk2
    have hone := hnodup k
    omega
  · have hel : e ∈ l := List.count_pos_iff.mp (by rw [hcount]; omega)
    obtain rfl : m = e := Nat.le_antisymm (hlow e hel) (hle m hm)
    refine ⟨by rw [hcount, if_pos rfl, htwo], hlt, fun i hi hit => ?_, ?_⟩
    · rw [hcount, if_neg (by omega)]
      have hmem : i ∈ n := by
        by_contra hnot'
        exact hmin i hit ⟨hi, hnot'⟩
      exact Nat.le_antisymm (hnodup i) (List.count_pos_iff.mpr hmem)
    · rw [hcount, if_neg (by omega), List.count_eq_zero.mpr hnot]

theorem count_insert {l' : List ℕ} (hperm : l'.Perm (e :: l)) (k : ℕ) :
    l'.count k = l.count k + if k = e then 1 else 0 := by
  rw [hperm.count_eq, List.count_cons]
  simp only [beq_iff_eq, eq_comm (a := e)]

/-- One more tree of the lowest degree. -/
theorem pass_insert_lowest {l' : List ℕ} (hnodup : ∀ k, l.count k ≤ 1) (h : Sorted l')
    (hperm : l'.Perm (e :: l)) (hel : e ∈ l) (hle : ∀ x ∈ l, e ≤ x) :
    (pass l').Pairwise (· < ·) ∧ ∀ x ∈ pass l', e < x := by
  have hle' : ∀ x ∈ l', e ≤ x := by
    intro x hx
    rcases List.mem_cons.mp (hperm.mem_iff.mp hx) with rfl | hx
    · exact Nat.le_refl x
    · exact hle x hx
  have hmem : e ∈ l' := hperm.mem_iff.mpr List.mem_cons_self
  refine ⟨pairwise_pass h (carries_lowest (count_insert hperm) hnodup hel hle'), ?_⟩
  have htwo := count_insert hperm e
  obtain ⟨n, rfl⟩ := h.exists_cons hle' hmem
  rw [if_pos rfl, List.count_cons_self] at htwo
  have hpos := List.count_pos_iff.mpr hel
  obtain ⟨n, rfl⟩ := h.of_cons.exists_cons h.head_le (List.count_pos_iff.mp (by omega))
  rw [pass_twice]
  exact le_of_mem_pass (List.forall_mem_cons.mpr ⟨Nat.le_refl _, h.lt_of_twice⟩)

section Above

variable {m : ℕ} (hnodup : ∀ k, l.count k ≤ 1) (h : Sorted (m :: n))
  (hperm : (m :: n).Perm (e :: l)) (hlow : ¬(e ∈ l ∧ ∀ x ∈ l, e ≤ x))

include h hperm

theorem head_le_of_insert : ∀ x ∈ l, m ≤ x := by
  intro x hx
  rcases List.mem_cons.mp (hperm.mem_iff.mpr (List.mem_cons_of_mem e hx)) with rfl | hx
  · exact Nat.le_refl x
  · exact h.head_le x hx

include hnodup hlow

/-- The lowest degree is there once. -/
theorem head_lt_of_insert : ∀ x ∈ n, m < x := by
  have hone : n.count m = 0 := by
    have hm := count_insert hperm m
    have hle1 := hnodup m
    rw [List.count_cons_self] at hm
    split at hm
    next heq =>
      subst heq
      by_contra hne
      exact hlow ⟨List.count_pos_iff.mp (by omega), head_le_of_insert h hperm⟩
    · omega
  intro x hx
  refine Nat.lt_of_le_of_ne (h.head_le x hx) ?_
  rintro rfl
  exact absurd hx (List.count_eq_zero.mp hone)

omit hnodup hlow h in
theorem count_above {k : ℕ} (hk : m < k) : n.count k = l.count k + if k = e then 1 else 0 := by
  rw [← count_insert hperm, List.count_cons_of_ne (by omega)]

omit hlow h in
theorem eq_of_count_two {k : ℕ} (hk : m < k) (hk2 : n.count k = 2) : k = e := by
  by_contra hne
  have hk1 := count_above hperm hk
  rw [if_neg hne] at hk1
  have hle1 := hnodup k
  omega

omit h in
theorem clear_of_insert (hcarry : e ∈ l → e + 1 ∈ l → ∀ x ∈ l, e ≤ x) :
    Sorted.Clear (m + 1) n := by
  intro k hk hk2 hnext
  obtain rfl := eq_of_count_two hnodup hperm hk hk2
  have hk1 := count_above hperm hk
  have hnext1 := count_above hperm (k := k + 1) (by omega)
  rw [if_pos rfl] at hk1
  rw [if_neg (by omega)] at hnext1
  exact hlow ⟨List.count_pos_iff.mp (by omega),
    hcarry (List.count_pos_iff.mp (by omega)) (List.count_pos_iff.mp (by omega))⟩

/-- Below the carry nothing changes. -/
theorem mem_rest_insert {x : ℕ} (hx : x ≤ e) : x ∈ rest n ↔ n.count x = 1 := by
  rw [h.of_cons.mem_rest, or_iff_left]
  rintro ⟨k, rfl, hk2⟩
  have hmem : k ∈ n := List.count_pos_iff.mp (by omega)
  have hke := eq_of_count_two hnodup hperm (head_lt_of_insert hnodup h hperm hlow k hmem) hk2
  omega

theorem pass_insert_above (hcarry : e ∈ l → e + 1 ∈ l → ∀ x ∈ l, e ≤ x) :
    (pass (m :: n)).Pairwise (· < ·) ∧ (∀ x < e, x ∈ pass (m :: n) ↔ x ∈ l) ∧
      (e ∈ pass (m :: n) ↔ e ∉ l) := by
  have hle := head_le_of_insert h hperm
  have hall := head_lt_of_insert hnodup h hperm hlow
  have hmem : ∀ x, x ∈ m :: n ↔ x = e ∨ x ∈ l :=
    fun x => by rw [hperm.mem_iff, List.mem_cons]
  -- the first loop does nothing
  rw [pass_of_lt hall]
  refine ⟨List.pairwise_cons.mpr ⟨le_of_mem_rest hall,
    h.of_cons.pairwise_rest hall (clear_of_insert hnodup hperm hlow hcarry)⟩, fun x hx => ?_, ?_⟩
  · rw [List.mem_cons, mem_rest_insert hnodup h hperm hlow (by omega)]
    constructor
    · rintro (rfl | hcount1)
      · exact ((hmem x).mp List.mem_cons_self).resolve_left (by omega)
      · have hxn : x ∈ n := List.count_pos_iff.mp (by omega)
        exact ((hmem x).mp (List.mem_cons_of_mem m hxn)).resolve_left (by omega)
    · intro hxl
      refine or_iff_not_imp_left.mpr fun hne => ?_
      have hlt : m < x := Nat.lt_of_le_of_ne (hle x hxl) (Ne.symm hne)
      have hle1 := hnodup x
      have hpos := List.count_pos_iff.mpr hxl
      rw [count_above hperm hlt, if_neg (by omega)]
      omega
  · have hme : m ≤ e := by
      rcases List.mem_cons.mp ((hmem e).mpr (.inl rfl)) with rfl | hen
      · exact Nat.le_refl _
      · exact Nat.le_of_lt (hall e hen)
    rw [List.mem_cons, mem_rest_insert hnodup h hperm hlow (Nat.le_refl e)]
    rcases Nat.eq_or_lt_of_le hme with rfl | hlt
    · exact iff_of_true (.inl rfl) fun hel => hlow ⟨hel, hle⟩
    · rw [count_above hperm hlt, if_pos rfl, or_iff_right (by omega), ← List.count_eq_zero]
      omega

end Above

/-- One more tree of degree `e`: a carry that meets the next degree is none of the
lowest. -/
theorem pass_insert {l' : List ℕ} (hl : l.Pairwise (· < ·)) (h : Sorted l')
    (hperm : l'.Perm (e :: l)) (hcarry : e ∈ l → e + 1 ∈ l → ∀ x ∈ l, e ≤ x) :
    (pass l').Pairwise (· < ·) ∧ (∀ x < e, x ∈ pass l' ↔ x ∈ l) ∧ (e ∈ pass l' ↔ e ∉ l) := by
  have hnodup : ∀ k, l.count k ≤ 1 :=
    List.nodup_iff_count_le_one.mp (hl.imp fun hlt => Nat.ne_of_lt hlt)
  by_cases hlow : e ∈ l ∧ ∀ x ∈ l, e ≤ x
  · obtain ⟨hel, hle⟩ := hlow
    obtain ⟨hincreasing, habove⟩ := pass_insert_lowest hnodup h hperm hel hle
    refine ⟨hincreasing, fun x hx => ?_, ?_⟩
    · exact iff_of_false (fun hm => absurd (habove x hm) (by omega))
        fun hm => absurd (hle x hm) (by omega)
    · exact iff_of_false (fun hm => absurd (habove e hm) (by omega)) (not_not_intro hel)
  · obtain ⟨m, n, rfl⟩ := List.exists_cons_of_ne_nil (l := l') (by
      rintro rfl
      exact absurd hperm.length_eq (by simp))
    exact pass_insert_above hnodup h hperm hlow hcarry

/-! ### The children of a tree -/

/-- Of the degrees below `d`, added from the highest down, none but the lowest degree
carries to a next one that was added before. -/
def Adopts (d : ℕ) (l : List ℕ) : Prop :=
  ∀ e ∈ l, e + 1 < d → e + 1 ∉ l → ∀ x ∈ l, e ≤ x

/-- The degrees `l'` that are left of `l` when those from `e` to below `d` are added. -/
structure Adopting (d e : ℕ) (l l' : List ℕ) : Prop where
  increasing : l'.Pairwise (· < ·)
  below : ∀ x < e, x ∈ l' ↔ x ∈ l
  last : e ∈ l' → e < d ∧ e ∉ l

theorem Adopting.insert {l' l'' : List ℕ} (hl : Adopting d (e + 1) l l') (hadopts : Adopts d l)
    (he : e < d) (h : Sorted l'') (hperm : l''.Perm (e :: l')) : Adopting d e l (pass l'') := by
  have hbelow : e ∈ l' ↔ e ∈ l := hl.below e (Nat.lt_succ_self e)
  have hcarry : e ∈ l' → e + 1 ∈ l' → ∀ x ∈ l', e ≤ x := by
    intro hmem hnext x hx
    obtain ⟨hlt, hnot⟩ := hl.last hnext
    by_contra hxe
    have hxl := (hl.below x (by omega)).mp hx
    exact hxe (hadopts e (hbelow.mp hmem) hlt hnot x hxl)
  obtain ⟨hincreasing, hsame, hmem⟩ := pass_insert hl.increasing h hperm hcarry
  refine ⟨hincreasing, fun x hx => ?_, fun hpass => ?_⟩
  · rw [hsame x hx]
    exact hl.below x (by omega)
  · exact ⟨he, fun hel => hmem.mp hpass (hbelow.mpr hel)⟩

end Course.Stl.PriorityQueue.Degrees
