import Course.VisualQuadtree.Conservation
import Mathlib.Tactic.Ring

/-! Which circles a stretch of a frame moves and which pairs it lets collide, and
where two overlapping circles can lie. -/

namespace Course.VisualQuadtree

variable {ι K : Type}

/-- The collision is one of the two circles. -/
def Collision.joins (e : Collision ι K) (a b : ι) : Prop :=
  e.circle = a ∧ e.other = b ∨ e.circle = b ∧ e.other = a

instance [DecidableEq ι] (e : Collision ι K) (a b : ι) : Decidable (e.joins a b) :=
  inferInstanceAs (Decidable (_ ∧ _ ∨ _ ∧ _))

/-- Two of the collisions' circles are these. -/
def Met (a b : ι) (δ : List (Collision ι K)) : Prop := ∃ e ∈ δ, e.joins a b

theorem met_append {a b : ι} {δ δ' : List (Collision ι K)} :
    Met a b (δ ++ δ') ↔ Met a b δ ∨ Met a b δ' := by
  simp [Met, or_and_right, exists_or]

theorem not_met_nil {a b : ι} : ¬ Met a b ([] : List (Collision ι K)) := by
  simp [Met]

variable [Field K] [LinearOrder K]

def Collision.moves (e : Collision ι K) (c : ι) : Prop :=
  e.circle = c ∧ e.impulse.offset ≠ ⟨0, 0⟩ ∨ e.other = c ∧ e.impulse.otherOffset ≠ ⟨0, 0⟩

/-- No collision with a third circle moves one of the two. -/
def Undisturbed (a b : ι) (δ : List (Collision ι K)) : Prop :=
  ∀ e ∈ δ, ¬ e.joins a b → ¬ e.moves a ∧ ¬ e.moves b

omit [LinearOrder K] in
theorem undisturbed_append {a b : ι} {δ δ' : List (Collision ι K)} :
    Undisturbed a b (δ ++ δ') ↔ Undisturbed a b δ ∧ Undisturbed a b δ' :=
  List.forall_mem_append

namespace Circle

/-- The same place and size. -/
def Still (c c' : Circle K) : Prop :=
  c'.mCenter = c.mCenter ∧ c'.mRadius = c.mRadius

omit [Field K] [LinearOrder K] in
theorem Still.refl (c : Circle K) : c.Still c := ⟨rfl, rfl⟩

omit [Field K] [LinearOrder K] in
theorem Still.trans {c c' c'' : Circle K} (h : c.Still c') (h' : c'.Still c'') : c.Still c'' :=
  ⟨h'.1.trans h.1, h'.2.trans h.2⟩

theorem Still.contain {c c' : Circle K} (h : c.Still c') (b : Bounds) :
    b.contain c' ↔ b.contain c := by
  rw [Bounds.contain, Bounds.contain, inside, inside, h.1, h.2]

theorem Still.collideCheck {c c' d d' : Circle K} (h : c.Still c') (h' : d.Still d') :
    c'.collideCheck d' ↔ c.collideCheck d := by
  rw [Circle.collideCheck, Circle.collideCheck, h.1, h.2, h'.1, h'.2]

omit [LinearOrder K] in
theorem push_still (c : Circle K) (velocity : Vec2 K) : c.Still (c.push ⟨0, 0⟩ velocity) := by
  simp [Still, push, Vec2.add]

theorem collideCheck_comm {c d : Circle K} : c.collideCheck d ↔ d.collideCheck c := by
  have hnorm : (c.mCenter.sub d.mCenter).norm2 = (d.mCenter.sub c.mCenter).norm2 := by
    simp only [Vec2.sub, Vec2.norm2]
    ring
  rw [collideCheck, collideCheck, hnorm, add_comm c.mRadius]

variable [IsStrictOrderedRing K]

/-- Circles whose centers are a sum of radii apart along an axis do not overlap. -/
theorem not_collideCheck_of_apart {c d : Circle K}
    (h : c.mRadius + d.mRadius ≤ d.mCenter.x - c.mCenter.x ∨
      c.mRadius + d.mRadius ≤ d.mCenter.y - c.mCenter.y) : ¬ c.collideCheck d := by
  rintro ⟨hpos, hlt⟩
  simp only [Vec2.sub, Vec2.norm2] at hlt
  rcases h with h | h
  · have hsq := mul_self_le_mul_self hpos.le h
    linarith [mul_self_nonneg (c.mCenter.y - d.mCenter.y)]
  · have hsq := mul_self_le_mul_self hpos.le h
    linarith [mul_self_nonneg (c.mCenter.x - d.mCenter.x)]

theorem collideCheck_self {c : Circle K} (h : 3 ≤ c.mRadius) : c.collideCheck c := by
  have hpos : 0 < c.mRadius + c.mRadius := by linarith
  have hnorm : (c.mCenter.sub c.mCenter).norm2 = 0 := by simp [Vec2.sub, Vec2.norm2]
  exact ⟨hpos, hnorm.trans_lt (mul_pos hpos hpos)⟩

end Circle

namespace Bounds

variable [IsStrictOrderedRing K]

theorem contain_of_quadrant {b : Bounds} {q : Quadrant} {c : Circle K}
    (h : (b.quadrant q).contain c) : b.contain c := by
  have hx1 : ((b.mX1 : ℤ) : K) ≤ middle b.mX1 b.mX2 := Int.cast_le.mpr (le_middle b.x_le)
  have hx2 : ((middle b.mX1 b.mX2 : ℤ) : K) ≤ b.mX2 := Int.cast_le.mpr (middle_le b.x_le)
  have hy1 : ((b.mY1 : ℤ) : K) ≤ middle b.mY1 b.mY2 := Int.cast_le.mpr (le_middle b.y_le)
  have hy2 : ((middle b.mY1 b.mY2 : ℤ) : K) ≤ b.mY2 := Int.cast_le.mpr (middle_le b.y_le)
  obtain ⟨h1, h2, h3, h4⟩ := h
  cases q
  · exact ⟨hx1.trans h1, h2, h3, h4.trans hy2⟩
  · exact ⟨h1, h2.trans hx2, h3, h4.trans hy2⟩
  · exact ⟨h1, h2.trans hx2, hy1.trans h3, h4⟩
  · exact ⟨hx1.trans h1, h2, hy1.trans h3, h4⟩

/-- Overlapping circles do not lie in two quadrants. -/
theorem quadrant_eq_of_collideCheck {b : Bounds} {q q' : Quadrant} {c d : Circle K}
    (hc : (b.quadrant q).contain c) (hd : (b.quadrant q').contain d)
    (h : c.collideCheck d) : q = q' := by
  have h' := Circle.collideCheck_comm.mp h
  obtain ⟨hc1, hc2, hc3, hc4⟩ := hc
  obtain ⟨hd1, hd2, hd3, hd4⟩ := hd
  by_contra hne
  cases q <;> cases q' <;> simp only [quadrant] at hc1 hc2 hc3 hc4 hd1 hd2 hd3 hd4 <;>
    first
    | exact hne rfl
    | exact Circle.not_collideCheck_of_apart (.inl (by linarith)) h
    | exact Circle.not_collideCheck_of_apart (.inr (by linarith)) h
    | exact Circle.not_collideCheck_of_apart (.inl (by linarith)) h'
    | exact Circle.not_collideCheck_of_apart (.inr (by linarith)) h'

theorem quadrant_eq {b : Bounds} {q q' : Quadrant} {c : Circle K} (hr : 3 ≤ c.mRadius)
    (hc : (b.quadrant q).contain c) (hc' : (b.quadrant q').contain c) : q = q' :=
  quadrant_eq_of_collideCheck hc hc' (Circle.collideCheck_self hr)

end Bounds

namespace World

variable [DecidableEq ι] {impulse : List (Collision ι K) → Circle K → Circle K → Impulse K}
  {w w' w'' : World ι K} {δ δ' : List (Collision ι K)}

/-- `w'` comes after `w` and the collisions `δ`: it differs from `w` in the
circles that they move. -/
structure After (w : World ι K) (δ : List (Collision ι K)) (w' : World ι K) : Prop where
  collisions : w'.collisions = w.collisions ++ δ
  still : ∀ c, (∀ e ∈ δ, ¬ e.moves c) → (w.circles c).Still (w'.circles c)

omit [DecidableEq ι] [LinearOrder K] in
theorem After.refl (w : World ι K) : w.After [] w :=
  ⟨(List.append_nil _).symm, fun _ _ => .refl _⟩

omit [DecidableEq ι] [LinearOrder K] in
theorem After.trans (h : w.After δ w') (h' : w'.After δ' w'') : w.After (δ ++ δ') w'' :=
  ⟨by rw [h'.collisions, h.collisions, List.append_assoc],
    fun c hc => (h.still c fun e he => hc e (List.mem_append_left _ he)).trans
      (h'.still c fun e he => hc e (List.mem_append_right _ he))⟩

omit [DecidableEq ι] [LinearOrder K] in
theorem After.eq (h : w.After δ w') (h' : w'.collisions = w.collisions ++ δ') : δ' = δ :=
  List.append_cancel_left (h'.symm.trans h.collisions)

omit [LinearOrder K] in
theorem collide_after (p : ι × ι) : w.After
    [⟨p.1, p.2, impulse w.collisions (w.circles p.1) (w.circles p.2)⟩]
    (w.collide impulse p.1 p.2) := by
  refine ⟨rfl, fun c hc => ?_⟩
  have hc := hc _ (List.mem_singleton_self _)
  simp only [Collision.moves, not_or, not_and, not_not] at hc
  simp only [collide, Function.update_apply]
  split_ifs with h2 h1
  · rw [hc.2 h2.symm, h2]
    exact Circle.push_still ..
  · rw [hc.1 h1.symm, h1]
    exact Circle.push_still ..
  · exact .refl _

variable (impulse) in
theorem meet_after (w : World ι K) (p : ι × ι) : ∃ δ, w.After δ (w.meet impulse p) := by
  rw [meet]
  split_ifs
  · exact ⟨_, collide_after p⟩
  · exact ⟨_, .refl w⟩

variable (impulse) in
theorem foldl_meet_after (w : World ι K) (l : List (ι × ι)) :
    ∃ δ, w.After δ (l.foldl (meet impulse) w) := by
  induction l generalizing w with
  | nil => exact ⟨_, .refl w⟩
  | cons p l ih =>
    obtain ⟨δ, h⟩ := meet_after impulse w p
    obtain ⟨δ', h'⟩ := ih (w.meet impulse p)
    exact ⟨_, h.trans h'⟩

/-- The pairs that a node compares. -/
def compared (cs parents : List ι) : List (ι × ι) :=
  pairs cs ++ pairs parents ++ cs.flatMap fun c => parents.map (c, ·)

theorem meetAll_eq (w : World ι K) (cs parents : List ι) :
    w.meetAll impulse cs parents = (compared cs parents).foldl (meet impulse) w := by
  rw [compared, List.foldl_append, List.foldl_append]
  rfl

variable (impulse) in
theorem meetAll_after (w : World ι K) (cs parents : List ι) :
    ∃ δ, w.After δ (w.meetAll impulse cs parents) := by
  rw [meetAll_eq]
  exact foldl_meet_after impulse w _

end World

theorem mem_pairs {α : Type} {a b : α} (hab : a ≠ b) {l : List α} :
    (a, b) ∈ pairs l ∨ (b, a) ∈ pairs l ↔ a ∈ l ∧ b ∈ l := by
  induction l with
  | nil => simp [pairs]
  | cons c l ih => simp only [pairs, List.mem_append, List.mem_map, List.mem_cons]; grind

theorem mem_compared {a b : ι} (hab : a ≠ b) {cs parents : List ι} :
    (a, b) ∈ World.compared cs parents ∨ (b, a) ∈ World.compared cs parents ↔
      (a ∈ cs ∨ a ∈ parents) ∧ (b ∈ cs ∨ b ∈ parents) := by
  have hcs := mem_pairs hab (l := cs)
  have hparents := mem_pairs hab (l := parents)
  have hcross : ∀ c d : ι, (c, d) ∈ (cs.flatMap fun c => parents.map (c, ·)) ↔
      c ∈ cs ∧ d ∈ parents := by simp
  simp only [World.compared, List.mem_append, hcross]
  grind

section meeting

variable [DecidableEq ι] {impulse : List (Collision ι K) → Circle K → Circle K → Impulse K}
  {w₀ w w' : World ι K} {δ : List (Collision ι K)} {a b : ι}

/-- The two circles are where they were in `w₀`. -/
def Calm (w₀ : World ι K) (a b : ι) (w : World ι K) : Prop :=
  (w₀.circles a).Still (w.circles a) ∧ (w₀.circles b).Still (w.circles b)

omit [DecidableEq ι] [LinearOrder K] in
theorem Calm.after (h : Calm w₀ a b w) (hδ : w.After δ w') (hq : Undisturbed a b δ)
    (hmet : ¬ Met a b δ) : Calm w₀ a b w' := by
  have hstill : ∀ e ∈ δ, ¬ e.moves a ∧ ¬ e.moves b :=
    fun e he => hq e he fun hjoin => hmet ⟨e, he, hjoin⟩
  exact ⟨h.1.trans (hδ.still a fun e he => (hstill e he).1),
    h.2.trans (hδ.still b fun e he => (hstill e he).2)⟩

omit [DecidableEq ι] in
theorem Calm.contain (h : Calm w₀ a b w) {c : ι} (hc : c = a ∨ c = b) (bounds : Bounds) :
    bounds.contain (w.circles c) ↔ bounds.contain (w₀.circles c) := by
  rcases hc with rfl | rfl
  · exact h.1.contain bounds
  · exact h.2.contain bounds

theorem met_meet (hab : a ≠ b) (hover : (w₀.circles a).collideCheck (w₀.circles b))
    {p : ι × ι} (h : Calm w₀ a b w) (hδ : w.After δ (w.meet impulse p)) :
    Met a b δ ↔ p = (a, b) ∨ p = (b, a) := by
  by_cases hcheck : p.1 ≠ p.2 ∧ (w.circles p.1).collideCheck (w.circles p.2)
  · rw [World.meet, if_pos hcheck] at hδ
    obtain rfl := (World.collide_after p).eq hδ.collisions
    simp [Met, Collision.joins, Prod.ext_iff]
  · rw [World.meet, if_neg hcheck] at hδ
    obtain rfl := (World.After.refl w).eq hδ.collisions
    have hab' := (h.1.collideCheck h.2).mpr hover
    refine iff_of_false not_met_nil ?_
    rintro (rfl | rfl)
    · exact hcheck ⟨hab, hab'⟩
    · exact hcheck ⟨hab.symm, Circle.collideCheck_comm.mp hab'⟩

/-- As long as nothing else moves them, two overlapping circles collide when
they are compared. -/
theorem met_foldl_meet (hab : a ≠ b) (hover : (w₀.circles a).collideCheck (w₀.circles b))
    {l : List (ι × ι)} (h : Calm w₀ a b w) (hδ : w.After δ (l.foldl (World.meet impulse) w))
    (hq : Undisturbed a b δ) : Met a b δ ↔ (a, b) ∈ l ∨ (b, a) ∈ l := by
  induction l generalizing w δ with
  | nil =>
    obtain rfl := (World.After.refl w).eq hδ.collisions
    simp [not_met_nil]
  | cons p l ih =>
    obtain ⟨δ₁, h₁⟩ := World.meet_after impulse w p
    obtain ⟨δ₂, h₂⟩ := World.foldl_meet_after impulse (w.meet impulse p) l
    obtain rfl := (h₁.trans h₂).eq hδ.collisions
    obtain ⟨hq₁, hq₂⟩ := undisturbed_append.mp hq
    have hmet₁ := met_meet hab hover h h₁
    rw [met_append, List.mem_cons, List.mem_cons]
    by_cases hp : p = (a, b) ∨ p = (b, a)
    · exact iff_of_true (.inl (hmet₁.mpr hp))
        (hp.imp (fun heq => .inl heq.symm) fun heq => .inl heq.symm)
    · rw [not_or] at hp
      have hnot : ¬ Met a b δ₁ := fun hmet => (hmet₁.mp hmet).elim hp.1 hp.2
      rw [ih (h.after h₁ hq₁ hnot) h₂ hq₂]
      simp [hnot, hp.1, hp.2, eq_comm (a := (a, b)), eq_comm (a := (b, a))]

theorem met_meetAll (hab : a ≠ b) (hover : (w₀.circles a).collideCheck (w₀.circles b))
    {cs parents : List ι} (h : Calm w₀ a b w) (hδ : w.After δ (w.meetAll impulse cs parents))
    (hq : Undisturbed a b δ) :
    Met a b δ ↔ (a ∈ cs ∨ a ∈ parents) ∧ (b ∈ cs ∨ b ∈ parents) := by
  rw [World.meetAll_eq] at hδ
  rw [met_foldl_meet hab hover h hδ hq, mem_compared hab]

end meeting

end Course.VisualQuadtree
