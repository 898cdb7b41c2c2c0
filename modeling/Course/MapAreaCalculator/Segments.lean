import Course.Lib.LineWalk
import Course.MapAreaCalculator.Polygon
import Mathlib.Tactic.FieldSimp
import Mathlib.Tactic.LinearCombination
import Mathlib.Tactic.Linarith
import Mathlib.Tactic.Positivity
import Mathlib.Tactic.Ring

/-! What the intersection test decides: whether two edges that are not parallel have a point in
common. -/

open Course.Lib

namespace Course.MapAreaCalculator

variable {a1 a2 b1 b2 : Point}

/-- The vector product of two edges. -/
def det (a1 a2 b1 b2 : Point) : ℚ :=
  ((a2.x : ℚ) - a1.x) * (b2.y - b1.y) - (b2.x - b1.x) * (a2.y - a1.y)

/-- Two edges have the same direction, or one of them is a point. -/
def Parallel (a1 a2 b1 b2 : Point) : Prop := det a1 a2 b1 b2 = 0

/-- The point of the edge from `a1` to `a2` at `s` is that of the other edge at `t`. -/
structure MeetAt (a1 a2 b1 b2 : Point) (s t : ℚ) : Prop where
  x : (a1.x : ℚ) + s * (a2.x - a1.x) = b1.x + t * (b2.x - b1.x)
  y : (a1.y : ℚ) + s * (a2.y - a1.y) = b1.y + t * (b2.y - b1.y)

/-- The edges have a point in common. -/
def SharePoint (a1 a2 b1 b2 : Point) : Prop :=
  ∃ s t, 0 ≤ s ∧ s ≤ 1 ∧ 0 ≤ t ∧ t ≤ 1 ∧ MeetAt a1 a2 b1 b2 s t

/-- Lines that are not parallel meet where the test divides. -/
theorem meetAt_iff (h : det a1 a2 b1 b2 ≠ 0) {s t : ℚ} : MeetAt a1 a2 b1 b2 s t ↔
    s = ((b2.x - b1.x) * (a1.y - b1.y) - (b2.y - b1.y) * (a1.x - b1.x)) / det a1 a2 b1 b2 ∧
      t = ((a2.x - a1.x) * (a1.y - b1.y) - (a2.y - a1.y) * (a1.x - b1.x)) / det a1 a2 b1 b2 := by
  rw [eq_div_iff h, eq_div_iff h]
  constructor
  · rintro ⟨hx, hy⟩
    rw [det]
    constructor
    · linear_combination ((b2.y : ℚ) - b1.y) * hx - ((b2.x : ℚ) - b1.x) * hy
    · linear_combination ((a2.y : ℚ) - a1.y) * hx - ((a2.x : ℚ) - a1.x) * hy
  · rintro ⟨hs, ht⟩
    constructor
    · refine mul_right_cancel₀ h ?_
      rw [add_mul, mul_right_comm, hs, add_mul, mul_right_comm t, ht, det]
      ring
    · refine mul_right_cancel₀ h ?_
      rw [add_mul, mul_right_comm, hs, add_mul, mul_right_comm t, ht, det]
      ring

theorem intersect_iff :
    Intersect a1 a2 b1 b2 ↔ ¬Parallel a1 a2 b1 b2 ∧ SharePoint a1 a2 b1 b2 := by
  refine and_congr_right fun h => ?_
  have h : det a1 a2 b1 b2 ≠ 0 := h
  constructor
  · rintro ⟨hs, hs', ht, ht'⟩
    exact ⟨_, _, hs, hs', ht, ht', (meetAt_iff h).mpr ⟨rfl, rfl⟩⟩
  · rintro ⟨s, t, hs, hs', ht, ht', hmeet⟩
    obtain ⟨rfl, rfl⟩ := (meetAt_iff h).mp hmeet
    exact ⟨hs, hs', ht, ht'⟩

theorem intersect_comm : Intersect a1 a2 b1 b2 ↔ Intersect b1 b2 a1 a2 := by
  have hparallel : Parallel a1 a2 b1 b2 ↔ Parallel b1 b2 a1 a2 := by
    rw [Parallel, Parallel, det, det, ← neg_eq_zero]
    ring_nf
  have hshare : ∀ {a1 a2 b1 b2 : Point}, SharePoint a1 a2 b1 b2 → SharePoint b1 b2 a1 a2 := by
    rintro a1 a2 b1 b2 ⟨s, t, hs, hs', ht, ht', hx, hy⟩
    exact ⟨t, s, ht, ht', hs, hs', hx.symm, hy.symm⟩
  rw [intersect_iff, intersect_iff, hparallel]
  exact and_congr_right fun _ => ⟨hshare, hshare⟩

/-! ### Along a line -/

section Line

variable (o b : Point)

/-- Zero on the line from `o` to `b`. -/
def side (q : Point) : ℚ := (b.x - o.x) * (q.y - o.y) - (b.y - o.y) * (q.x - o.x)

/-- The position along the line, scaled. -/
def along (q : Point) : ℚ := (b.x - o.x) * (q.x - o.x) + (b.y - o.y) * (q.y - o.y)

/-- Where the edge from `u` to `v` crosses the line. -/
def crossing (u v : Point) : ℚ :=
  (along o b u * side o b v - along o b v * side o b u) / (side o b v - side o b u)

/-- The edge has its ends on different sides, or one end on the line. -/
def Crosses (u v : Point) : Prop := side o b u ≠ side o b v ∧ side o b u * side o b v ≤ 0

theorem crossing_of_left {u v : Point} (hu : side o b u = 0) (hv : side o b v ≠ 0) :
    Crosses o b u v ∧ crossing o b u v = along o b u := by
  refine ⟨⟨hu ▸ hv.symm, by rw [hu, zero_mul]⟩, ?_⟩
  rw [crossing, hu, mul_zero, sub_zero, sub_zero, mul_div_cancel_right₀ _ hv]

theorem crossing_of_right {u v : Point} (hu : side o b u ≠ 0) (hv : side o b v = 0) :
    Crosses o b u v ∧ crossing o b u v = along o b v := by
  refine ⟨⟨hv ▸ hu, by rw [hv, mul_zero]⟩, ?_⟩
  rw [crossing, hv, mul_zero, zero_sub, zero_sub, neg_div_neg_eq, mul_div_cancel_right₀ _ hu]

/-- A walk seen from the line. -/
def lineWalk (p : ℕ → Point) : LineWalk ℚ where
  on n := side o b (p n) = 0
  pos n := along o b (p n)
  crosses n := Crosses o b (p n) (p (n + 1))
  place n := crossing o b (p n) (p (n + 1))
  leave _ h h' := crossing_of_left o b h h'
  enter _ h h' := crossing_of_right o b h h'
  off _ h hu hv := h.1 (hu.trans hv.symm)

variable {o b} {u v q r : Point}

theorem side_left : side o b o = 0 := by
  rw [side]
  ring

theorem side_right : side o b b = 0 := by
  rw [side]
  ring

theorem along_left : along o b o = 0 := by
  rw [along]
  ring

theorem along_right_pos (h : o ≠ b) : 0 < along o b b := by
  have hne : ((b.x : ℚ) - o.x) ≠ 0 ∨ ((b.y : ℚ) - o.y) ≠ 0 := by
    by_contra hzero
    rw [not_or, not_not, not_not, sub_eq_zero, sub_eq_zero, Int.cast_inj, Int.cast_inj] at hzero
    obtain ⟨ox, oy⟩ := o
    obtain ⟨bx, byy⟩ := b
    exact h (congrArg₂ Point.mk hzero.1.symm hzero.2.symm)
  rw [along]
  rcases hne with hne | hne
  · exact add_pos_of_pos_of_nonneg (mul_self_pos.mpr hne) (mul_self_nonneg _)
  · exact add_pos_of_nonneg_of_pos (mul_self_nonneg _) (mul_self_pos.mpr hne)

/-- Two points of the line are told apart by their positions. -/
theorem eq_of_along (hob : o ≠ b) (hq : side o b q = 0) (hr : side o b r = 0)
    (h : along o b q = along o b r) : q = r := by
  have hpos := (along_right_pos hob).ne'
  have hx : (q.x : ℚ) = r.x := by
    refine mul_left_cancel₀ hpos ?_
    rw [along] at h ⊢
    rw [along] at h
    rw [side] at hq hr
    linear_combination ((b.x : ℚ) - o.x) * h - ((b.y : ℚ) - o.y) * hq + ((b.y : ℚ) - o.y) * hr
  have hy : (q.y : ℚ) = r.y := by
    refine mul_left_cancel₀ hpos ?_
    rw [along] at h ⊢
    rw [along] at h
    rw [side] at hq hr
    linear_combination ((b.y : ℚ) - o.y) * h + ((b.x : ℚ) - o.x) * hq - ((b.x : ℚ) - o.x) * hr
  obtain ⟨qx, qy⟩ := q
  obtain ⟨rx, ry⟩ := r
  exact congrArg₂ Point.mk (Int.cast_inj.mp hx) (Int.cast_inj.mp hy)

theorem meetAt_iff_along (hob : o ≠ b) {s t : ℚ} : MeetAt q r u v s t ↔
    side o b q + s * (side o b r - side o b q) = side o b u + t * (side o b v - side o b u) ∧
      along o b q + s * (along o b r - along o b q) =
        along o b u + t * (along o b v - along o b u) := by
  have hpos := (along_right_pos hob).ne'
  constructor
  · rintro ⟨hx, hy⟩
    simp only [side, along]
    constructor
    · linear_combination ((b.x : ℚ) - o.x) * hy - ((b.y : ℚ) - o.y) * hx
    · linear_combination ((b.x : ℚ) - o.x) * hx + ((b.y : ℚ) - o.y) * hy
  · rintro ⟨hside, halong⟩
    constructor
    · refine mul_left_cancel₀ hpos ?_
      simp only [side, along] at hside halong ⊢
      linear_combination ((b.x : ℚ) - o.x) * halong - ((b.y : ℚ) - o.y) * hside
    · refine mul_left_cancel₀ hpos ?_
      simp only [side, along] at hside halong ⊢
      linear_combination ((b.y : ℚ) - o.y) * halong + ((b.x : ℚ) - o.x) * hside

theorem parallel_iff_side (hob : o ≠ b) (hq : side o b q = 0) (hr : side o b r = 0)
    (hne : along o b q ≠ along o b r) : Parallel q r u v ↔ side o b u = side o b v := by
  have hdet : along o b b * det q r u v =
      (along o b r - along o b q) * (side o b v - side o b u) -
        (along o b v - along o b u) * (side o b r - side o b q) := by
    simp only [side, along, det]
    ring
  rw [hq, hr, sub_self, mul_zero, sub_zero] at hdet
  rw [Parallel, ← mul_eq_zero_iff_left (along_right_pos hob).ne', hdet,
    mul_eq_zero_iff_left (sub_ne_zero.mpr hne.symm), sub_eq_zero, eq_comm]

theorem div_nonneg_of_mul_nonneg {x y : ℚ} (h : 0 ≤ x * y) : 0 ≤ x / y :=
  div_nonneg_iff.mpr (mul_nonneg_iff.mp h)

/-- Edges between positions `x` and `y` reach what lies between them. -/
theorem mem_uIcc_iff {x y z : ℚ} : z ∈ Set.uIcc x y ↔
    ∃ s, 0 ≤ s ∧ s ≤ 1 ∧ x + s * (y - x) = z := by
  constructor
  · intro h
    rcases eq_or_ne x y with rfl | hne
    · rw [Set.uIcc_self, Set.mem_singleton_iff] at h
      exact ⟨0, le_rfl, zero_le_one, by rw [h]; ring⟩
    · refine ⟨(z - x) / (y - x), ?_, ?_, ?_⟩
      · rcases Set.mem_uIcc.mp h with h | h
        · exact div_nonneg (by linarith) (by linarith)
        · exact div_nonneg_of_nonpos (by linarith) (by linarith)
      · rcases lt_or_gt_of_ne hne with hlt | hlt
        · rw [Set.uIcc_of_le hlt.le] at h
          rw [div_le_one (sub_pos.mpr hlt)]
          linarith [h.2]
        · rw [Set.uIcc_of_ge hlt.le] at h
          rw [div_le_one_of_neg (sub_neg.mpr hlt)]
          linarith [h.1]
      · rw [div_mul_cancel₀ _ (sub_ne_zero.mpr hne.symm)]
        ring
  · rintro ⟨s, hs, hs', rfl⟩
    rcases le_total x y with hle | hle
    · rw [Set.uIcc_of_le hle]
      constructor <;> nlinarith
    · rw [Set.uIcc_of_ge hle]
      constructor <;> nlinarith

/-- An edge that runs along the line meets one that crosses it exactly when it covers the place
of the crossing. -/
theorem intersect_iff_of_side (hob : o ≠ b) (hq : side o b q = 0) (hr : side o b r = 0)
    (hne : along o b q ≠ along o b r) : Intersect q r u v ↔
      Crosses o b u v ∧ crossing o b u v ∈ Set.uIcc (along o b q) (along o b r) := by
  rw [intersect_iff, parallel_iff_side hob hq hr hne, Crosses, and_assoc]
  refine and_congr_right fun hside => ?_
  have hsub := sub_ne_zero.mpr (Ne.symm hside)
  -- the point of the line on the edge from `u` to `v`
  have hplace : ∀ t : ℚ, side o b u + t * (side o b v - side o b u) = 0 →
      along o b u + t * (along o b v - along o b u) = crossing o b u v := by
    intro t ht
    rw [crossing, eq_div_iff hsub]
    linear_combination (along o b v - along o b u) * ht
  rw [mem_uIcc_iff]
  simp only [SharePoint, meetAt_iff_along hob, hq, hr, sub_self, mul_zero, add_zero]
  constructor
  · rintro ⟨s, t, hs, hs', ht, ht', hzero, hmeet⟩
    refine ⟨?_, s, hs, hs', hmeet.trans (hplace t hzero.symm)⟩
    have hu : side o b u = -(t * (side o b v - side o b u)) := by linarith
    have hv : side o b v = (1 - t) * (side o b v - side o b u) := by linarith
    have hprod : side o b u * side o b v =
        -(t * (1 - t) * ((side o b v - side o b u) * (side o b v - side o b u))) := by
      linear_combination side o b v * hu - t * (side o b v - side o b u) * hv
    rw [hprod, neg_nonpos]
    exact mul_nonneg (mul_nonneg ht (sub_nonneg.mpr ht')) (mul_self_nonneg _)
  · rintro ⟨hprod, s, hs, hs', hmeet⟩
    have hzero : side o b u + -side o b u / (side o b v - side o b u) *
        (side o b v - side o b u) = 0 := by
      rw [div_mul_cancel₀ _ hsub]
      ring
    refine ⟨s, -side o b u / (side o b v - side o b u), hs, hs', ?_, ?_, hzero.symm,
      hmeet.trans (hplace _ hzero).symm⟩
    · refine div_nonneg_of_mul_nonneg ?_
      linarith [mul_self_nonneg (side o b u)]
    · have hrest : 1 - -side o b u / (side o b v - side o b u) =
          side o b v / (side o b v - side o b u) := by
        rw [eq_div_iff hsub, sub_mul, div_mul_cancel₀ _ hsub]
        ring
      rw [← sub_nonneg, hrest]
      refine div_nonneg_of_mul_nonneg ?_
      linarith [mul_self_nonneg (side o b v)]

theorem intersect_of_hits {p : ℕ → Point} {i j : ℕ} (hob : o ≠ b) (h : (lineWalk o b p).Hits i j) :
    Intersect (p j) (p (j + 1)) (p i) (p (i + 1)) :=
  (intersect_iff_of_side hob h.2.left h.2.right h.2.ne).mpr ⟨h.1, h.2.mem⟩

theorem hits_of_intersect {p : ℕ → Point} {i j : ℕ} (hob : o ≠ b) (hj : side o b (p j) = 0)
    (hj' : side o b (p (j + 1)) = 0) (hne : p j ≠ p (j + 1))
    (h : Intersect (p j) (p (j + 1)) (p i) (p (i + 1))) : (lineWalk o b p).Hits i j := by
  have hne' := fun halong => hne (eq_of_along hob hj hj' halong)
  obtain ⟨hcross, hmem⟩ := (intersect_iff_of_side hob hj hj' hne').mp h
  exact ⟨hcross, hj, hj', hne', hmem⟩

end Line

end Course.MapAreaCalculator
