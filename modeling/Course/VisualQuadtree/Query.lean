import Course.VisualQuadtree.Collisions

/-! The query of the quadtree for a circle that overlaps: it goes into one child only where
one contains the circle, and still finds what a scan of all circles finds. -/

namespace Course.VisualQuadtree

variable {ι K : Type} [Field K] [LinearOrder K]

section query

variable [DecidableEq ι]

/-- `Circle::collideCheck` of two pointers. -/
def Overlaps (circles : ι → Circle K) (c other : ι) : Prop :=
  c ≠ other ∧ (circles c).collideCheck (circles other)

instance (circles : ι → Circle K) (c other : ι) : Decidable (Overlaps circles c other) :=
  inferInstanceAs (Decidable (_ ∧ _))

def Node.collideCheck (circles : ι → Circle K) (c : ι) : Node ι → Bool
  | .leaf _ _ cs => cs.any fun other => Overlaps circles c other
  | .inner _ _ cs ch =>
    (cs.any fun other => Overlaps circles c other) ||
      match Quadrant.all.find? fun q => decide ((ch q).bounds.contain (circles c)) with
      | some q => (ch q).collideCheck circles c
      | none => Quadrant.all.any fun q => (ch q).collideCheck circles c

def Quadtree.collideCheck (s : Quadtree ι K) (c : ι) : Bool :=
  s.mRoot.collideCheck s.world.circles c

end query

namespace Node

/-- The children of every node have its quadrants, as `split` makes them. -/
def Quartered : Node ι → Prop
  | .leaf _ _ _ => True
  | .inner b _ _ ch => ∀ q, (ch q).bounds = b.quadrant q ∧ (ch q).Quartered

/-- Every circle lies inside the rectangle of the node that stores it. -/
def Holds (circles : ι → Circle K) : Node ι → Prop
  | .leaf b _ cs => ∀ c ∈ cs, b.contain (circles c)
  | .inner b _ cs ch => (∀ c ∈ cs, b.contain (circles c)) ∧ ∀ q, (ch q).Holds circles

variable {circles : ι → Circle K} {t : Node ι} {c d : ι}

omit [Field K] [LinearOrder K] in
theorem Shaped.quartered (h : t.Shaped) : t.Quartered := by
  induction t with
  | leaf _ _ _ => trivial
  | inner b num cs ch ih => exact fun q => ⟨(h.2 q).1, ih q (h.2 q).2⟩

variable [IsStrictOrderedRing K]

/-- What a subtree stores lies inside the rectangle of its root. -/
theorem Holds.contain (h : t.Holds circles) (hq : t.Quartered) (hd : d ∈ t.merge) :
    t.bounds.contain (circles d) := by
  induction t with
  | leaf b num cs => exact h d hd
  | inner b num cs ch ih =>
    rw [merge_inner, List.mem_append, mem_mergeAll] at hd
    rcases hd with hd | ⟨q, hd⟩
    · exact h.1 d hd
    · have hchild := ih q (h.2 q) (hq q).2 hd
      rw [(hq q).1] at hchild
      exact Bounds.contain_of_quadrant hchild

/-- The circles that overlap one inside a child's rectangle are not in the other children. -/
theorem eq_of_overlaps {b : Bounds} {num : ℤ} {cs : List ι} {ch : Quadrant → Node ι}
    {q q' : Quadrant} (h : (inner b num cs ch).Holds circles)
    (hq : (inner b num cs ch).Quartered) (hc : (ch q).bounds.contain (circles c))
    (hd : d ∈ (ch q').merge) (hover : (circles c).collideCheck (circles d)) : q' = q := by
  have hd := (h.2 q').contain (hq q').2 hd
  rw [(hq q).1] at hc
  rw [(hq q').1] at hd
  exact (Bounds.quadrant_eq_of_collideCheck hc hd hover).symm

variable [DecidableEq ι]

theorem collideCheck_iff (h : t.Holds circles) (hq : t.Quartered) :
    t.collideCheck circles c = true ↔ ∃ d ∈ t.merge, Overlaps circles c d := by
  induction t with
  | leaf b num cs => simp only [collideCheck, merge, List.any_eq_true, decide_eq_true_eq]
  | inner b num cs ch ih =>
    have ih := fun q => ih q (h.2 q) (hq q).2
    rw [collideCheck, merge_inner, Bool.or_eq_true, List.any_eq_true]
    simp only [decide_eq_true_eq, List.mem_append, mem_mergeAll, or_and_right, exists_or]
    refine or_congr Iff.rfl ?_
    split
    · rename_i q hfind
      have hc := List.find?_some hfind
      rw [decide_eq_true_eq] at hc
      rw [ih q]
      constructor
      · rintro ⟨d, hd, hover⟩
        exact ⟨d, ⟨q, hd⟩, hover⟩
      · rintro ⟨d, ⟨q', hd⟩, hover⟩
        obtain rfl := eq_of_overlaps h hq hc hd hover.2
        exact ⟨d, hd, hover⟩
    · simp only [List.any_eq_true, Quadrant.mem_all, true_and, ih]
      constructor
      · rintro ⟨q, d, hd, hover⟩
        exact ⟨d, ⟨q, hd⟩, hover⟩
      · rintro ⟨d, ⟨q, hd⟩, hover⟩
        exact ⟨q, d, hd, hover⟩

end Node

namespace Quadtree

variable [IsStrictOrderedRing K] [DecidableEq ι]

/-- The query answers as a scan of all the circles of the tree. -/
theorem collideCheck_eq_scan {s : Quadtree ι K} (h : s.mRoot.Holds s.world.circles)
    (hq : s.mRoot.Quartered) (c : ι) : s.collideCheck c = true ↔
      ∃ d ∈ s.mRoot.merge, d ≠ c ∧ (s.world.circles c).collideCheck (s.world.circles d) := by
  rw [collideCheck, Node.collideCheck_iff h hq]
  simp only [Overlaps, ne_comm]

theorem crossed_le : (0 : ℤ) ≤ 100 := by decide

/-- A root with a circle in its first child and one across the middle. -/
def crossed : Quadtree ℕ ℚ where
  mRoot := .inner ⟨0, 100, 0, 100, crossed_le, crossed_le⟩ 2 [1] fun q =>
    .leaf (Bounds.quadrant ⟨0, 100, 0, 100, crossed_le, crossed_le⟩ q) 0
      (if q = .topRight then [0] else [])
  sCircleLimit := 5
  world := ⟨fun c => ⟨⟨if c = 1 then 50 else 60, 10⟩, ⟨0, 0⟩, 6⟩, []⟩
  mCircles := [0, 1]

theorem collideCheck_eq_scan_crossed : crossed.mRoot.Holds crossed.world.circles ∧
    crossed.mRoot.Quartered ∧ (crossed.collideCheck 2 = true ↔
      ∃ d ∈ crossed.mRoot.merge, d ≠ 2 ∧
        (crossed.world.circles 2).collideCheck (crossed.world.circles d)) := by
  have hmid : middle 0 100 = 50 := by decide
  have hholds : crossed.mRoot.Holds crossed.world.circles := by
    refine ⟨?_, fun q => ?_⟩
    · simp only [List.mem_singleton, forall_eq, crossed, Bounds.contain, Circle.inside]
      norm_num
    · cases q
      · simp only [Node.Holds, crossed, if_true, List.mem_singleton, forall_eq, Bounds.contain,
          Circle.inside, Bounds.quadrant, hmid]
        norm_num
      all_goals exact fun c hc => absurd hc List.not_mem_nil
  have hquartered : crossed.mRoot.Quartered := fun q => ⟨rfl, trivial⟩
  exact ⟨hholds, hquartered, collideCheck_eq_scan hholds hquartered 2⟩

end Quadtree

end Course.VisualQuadtree
