import Course.VisualQuadtree.Collisions

/-! Where an `update` will take the circles of a tree: a circle rises to the
lowest node that still contains it, or sinks into the children that do.  The
insertions on the way change neither. -/

namespace Course.VisualQuadtree

namespace Node

variable {ι K : Type} [Field K] [LinearOrder K]

/-- The circle is below the node, in a child that it left for the node. -/
def Rises (circles : ι → Circle K) (b : Bounds) (ch : Quadrant → Node ι) (c : ι) : Prop :=
  b.contain (circles c) ∧ ∃ q, c ∈ (ch q).merge ∧ ¬ (ch q).bounds.contain (circles c)

/-- A child contains the circle, and no other child stores it. -/
def Sinks (circles : ι → Circle K) (ch : Quadrant → Node ι) (c : ι) : Prop :=
  ∃ q, (ch q).bounds.contain (circles c) ∧ ∀ q', c ∈ (ch q').merge → q' = q

/-- At some node the first circle rises past the second one. -/
def Overlooks (circles : ι → Circle K) (a b : ι) : Node ι → Prop
  | .leaf _ _ _ => False
  | .inner bounds _ _ ch =>
    Rises circles bounds ch a ∧ Sinks circles ch b ∨ ∃ q, (ch q).Overlooks circles a b

variable {circles circles' : ι → Circle K} {a b c : ι} {bounds : Bounds} {num num' : ℤ}
  {cs cs' : List ι} {ch ch' : Quadrant → Node ι} {t t' : Node ι} {q q' : Quadrant}

theorem overlooks_inner : (inner bounds num cs ch).Overlooks circles a b ↔
    Rises circles bounds ch a ∧ Sinks circles ch b ∨ ∃ q, (ch q).Overlooks circles a b :=
  Iff.rfl

theorem overlooks_congr (ha : (circles a).Still (circles' a))
    (hb : (circles b).Still (circles' b)) :
    t.Overlooks circles' a b ↔ t.Overlooks circles a b := by
  induction t with
  | leaf _ _ _ => rfl
  | inner bounds num cs ch ih =>
    simp only [overlooks_inner, Rises, Sinks, ha.contain, hb.contain, ih]

theorem nodup_child (h : (mergeAll ch).Nodup) (q : Quadrant) : ((ch q).merge).Nodup :=
  (List.nodup_flatMap.mp h).1 q q.mem_all

theorem eq_of_mem_children (h : (mergeAll ch).Nodup) (hq : c ∈ (ch q).merge)
    (hq' : c ∈ (ch q').merge) : q = q' := by
  by_contra hne
  have hpair := (List.nodup_flatMap.mp h).2
  simp only [Quadrant.all, List.pairwise_cons, Function.onFun, List.disjoint_left] at hpair
  cases q <;> cases q' <;> grind

section overlooked

variable [IsStrictOrderedRing K]

theorem overlooks_spec (h : t.WellFormed) (hover : t.Overlooks circles a b) :
    a ∈ t.merge ∧ t.bounds.contain (circles a) ∧ t.bounds.contain (circles b) := by
  induction t with
  | leaf _ _ _ => exact hover.elim
  | inner bounds num cs ch ih =>
    obtain ⟨-, -, hch⟩ := wellFormed_inner.mp h
    rw [merge_inner, List.mem_append, mem_mergeAll]
    rcases hover with ⟨⟨ha, q, hq, -⟩, q', hb, -⟩ | ⟨q, hq⟩
    · exact ⟨.inr ⟨q, hq⟩, ha, Bounds.contain_of_quadrant ((hch q').1 ▸ hb)⟩
    · obtain ⟨hmem, ha, hb⟩ := ih q (hch q).2 hq
      rw [(hch q).1] at ha hb
      exact ⟨.inr ⟨q, hmem⟩, Bounds.contain_of_quadrant ha, Bounds.contain_of_quadrant hb⟩

end overlooked

/-- A circle that a child gains while it contains the circle. -/
theorem overlooks_update (hc : (ch q).bounds.contain (circles c)) (hgain : Gains (ch q) c t')
    (hnew : c ∉ mergeAll ch)
    (hover : t'.Overlooks circles a b ↔ (ch q).Overlooks circles a b) :
    (inner bounds num cs (Function.update ch q t')).Overlooks circles a b ↔
      (inner bounds num' cs' ch).Overlooks circles a b := by
  have hbounds : ∀ q', (Function.update ch q t' q').bounds = (ch q').bounds := by
    intro q'
    rcases eq_or_ne q' q with rfl | hne
    · rw [Function.update_self, hgain.bounds]
    · rw [Function.update_of_ne hne]
  have hmem : ∀ x q', x ∈ (Function.update ch q t' q').merge ↔
      x ∈ (ch q').merge ∨ q' = q ∧ x = c := by
    intro x q'
    rcases eq_or_ne q' q with rfl | hne
    · rw [Function.update_self, hgain.perm.mem_iff, List.mem_cons]
      tauto
    · rw [Function.update_of_ne hne]
      tauto
  have hbelow : ∀ q', (Function.update ch q t' q').Overlooks circles a b ↔
      (ch q').Overlooks circles a b := by
    intro q'
    rcases eq_or_ne q' q with rfl | hne
    · rw [Function.update_self, hover]
    · rw [Function.update_of_ne hne]
  have hrises : Rises circles bounds (Function.update ch q t') a ↔
      Rises circles bounds ch a := by
    simp only [Rises, hbounds, hmem]
    grind
  have hsinks : Sinks circles (Function.update ch q t') b ↔ Sinks circles ch b := by
    rw [mem_mergeAll, not_exists] at hnew
    simp only [Sinks, hbounds, hmem]
    grind
  simp only [overlooks_inner, hrises, hsinks, hbelow]

/-- An insertion that does not change what is overlooked. -/
def Overlooking (circles : ι → Circle K) (a b : ι) (n : ℕ)
    (insert : Node ι → ι → Option (Bool × Node ι)) : Prop :=
  ∀ t c t', t.WellFormed → t.bounds.width < n → t.merge.Nodup → c ∉ t.merge →
    insert t c = some (true, t') → (t'.Overlooks circles a b ↔ t.Overlooks circles a b)

variable {n : ℕ} {ins : Node ι → ι → Option (Bool × Node ι)}

theorem overlooks_sift (hins : Inserts circles n ins) (hkeep : Overlooking circles a b n ins)
    (hn : ∀ q, (bounds.quadrant q).width < n) {todo kept : List ι} (hch : Quarters bounds ch)
    (hnodup : (todo ++ mergeAll ch).Nodup) (h : sift ins ch todo = some (kept, ch')) :
    (inner bounds num cs ch').Overlooks circles a b ↔
      (inner bounds num' cs' ch).Overlooks circles a b := by
  induction todo generalizing ch kept with
  | nil =>
    obtain ⟨-, rfl⟩ := Prod.mk.inj (Option.some.inj h)
    rfl
  | cons c todo ih =>
    rw [List.cons_append, List.nodup_cons, List.mem_append, not_or] at hnodup
    obtain ⟨⟨htodo, hnew⟩, hnodup⟩ := hnodup
    rcases offer_spec hins hch hn c Quadrant.all with
      ⟨q, t', hc, ht', hgain, hoffer⟩ | ⟨-, hoffer⟩
    · simp only [sift, hoffer, Option.bind_eq_bind, Option.bind_some,
        Option.bind_eq_some_iff] at h
      obtain ⟨⟨kept', ch''⟩, hsift, heq⟩ := h
      obtain ⟨-, rfl⟩ := Prod.mk.inj (Option.some.inj heq)
      have hperm := (hgain.mergeAll_update.append_left todo).trans List.perm_middle
      have hnodup' : (todo ++ mergeAll (Function.update ch q t')).Nodup := by
        rw [hperm.nodup_iff, List.nodup_cons, List.mem_append, not_or]
        exact ⟨⟨htodo, hnew⟩, hnodup⟩
      rw [ih (hch.update hgain.bounds hgain.wellFormed) hnodup' hsift]
      refine overlooks_update ((hch q).1 ▸ hc) hgain hnew ?_
      have hchildren := (List.nodup_append.mp hnodup).2.1
      exact hkeep _ c t' (hch q).2 ((hch q).1 ▸ hn q) (nodup_child hchildren q)
        (fun hmem => hnew (mem_mergeAll.mpr ⟨q, hmem⟩)) ht'
    · simp only [sift, hoffer, Option.bind_eq_bind, Option.bind_some,
        Option.bind_eq_some_iff] at h
      obtain ⟨⟨kept', ch''⟩, hsift, heq⟩ := h
      obtain ⟨-, rfl⟩ := Prod.mk.inj (Option.some.inj heq)
      exact ih hch hnodup hsift

theorem overlooks_place (hins : Inserts circles n ins) (hkeep : Overlooking circles a b n ins)
    (hn : ∀ q, (bounds.quadrant q).width < n) (hch : Quarters bounds ch)
    (hnodup : (mergeAll ch).Nodup) (hnew : c ∉ mergeAll ch)
    (h : place ins bounds num cs ch c = some (true, t')) :
    t'.Overlooks circles a b ↔ (inner bounds num' cs' ch).Overlooks circles a b := by
  rcases offer_spec hins hch hn c Quadrant.all with
    ⟨q, child, hc, hchild, hgain, hoffer⟩ | ⟨-, hoffer⟩
  · rw [place, hoffer] at h
    obtain ⟨-, rfl⟩ := Prod.mk.inj (Option.some.inj h)
    refine overlooks_update ((hch q).1 ▸ hc) hgain hnew ?_
    exact hkeep _ c child (hch q).2 ((hch q).1 ▸ hn q) (nodup_child hnodup q)
      (fun hmem => hnew (mem_mergeAll.mpr ⟨q, hmem⟩)) hchild
  · rw [place, hoffer] at h
    obtain ⟨-, rfl⟩ := Prod.mk.inj (Option.some.inj h)
    rfl

theorem not_overlooks_leaves :
    ¬ (inner bounds num cs fun q => leaf (bounds.quadrant q) 0 []).Overlooks circles a b := by
  rintro (⟨⟨-, q, hq, -⟩, -⟩ | ⟨q, hq⟩)
  · exact List.not_mem_nil hq
  · exact hq

/-- New nodes contain their circles, so nothing rises at them. -/
theorem overlooks_insert [IsStrictOrderedRing K] (hr : ∀ c, 3 ≤ (circles c).mRadius)
    (sCircleLimit : ℤ) (n : ℕ) :
    Overlooking circles a b n (insert circles sCircleLimit n) := by
  induction n with
  | zero => exact fun t _ _ _ h => absurd h (Nat.not_lt_zero _)
  | succ n ih =>
    intro t c t' hwf hwidth hnodup hnew h
    have hins := inserts hr sCircleLimit n
    by_cases hc : t.bounds.contain (circles c)
    swap
    · rw [insert_of_not_contain n.succ_pos hc] at h
      exact absurd (Prod.mk.inj (Option.some.inj h)).1 Bool.false_ne_true
    have hwide := hc.two_le_width (hr c)
    have hn : ∀ q, (t.bounds.quadrant q).width < n :=
      fun q => (Bounds.width_quadrant_lt q hwide).trans_le (Nat.lt_succ_iff.mp hwidth)
    cases t with
    | leaf bounds num cs =>
      rw [insert, if_pos hc] at h
      dsimp only at h
      split_ifs at h with hlimit
      · obtain ⟨-, rfl⟩ := Prod.mk.inj (Option.some.inj h)
        rfl
      · obtain ⟨kept, ch, hsplit, hch, hperm⟩ := split_spec (b := bounds) hins hn cs
        rw [hsplit] at h
        have hnodup' := hperm.nodup_iff.mpr hnodup
        have hnew' : c ∉ mergeAll ch := fun hmem =>
          hnew (hperm.mem_iff.mp (List.mem_append_right kept hmem))
        have hplace : t'.Overlooks circles a b ↔ (inner bounds num cs ch).Overlooks circles a b :=
          overlooks_place hins ih hn hch (List.nodup_append.mp hnodup').2.1 hnew' h
        have hsift : (inner bounds num cs ch).Overlooks circles a b ↔
            (inner bounds num cs fun q => leaf (bounds.quadrant q) 0 []).Overlooks circles a b :=
          overlooks_sift hins ih hn (quarters_leaves bounds)
            (by rw [mergeAll_leaves, List.append_nil]; exact hnodup) hsplit
        rw [hplace, hsift]
        exact iff_of_false not_overlooks_leaves id
    | inner bounds num cs ch =>
      obtain ⟨-, -, hch⟩ := wellFormed_inner.mp hwf
      rw [insert, if_pos hc] at h
      exact overlooks_place hins ih hn hch (List.nodup_append.mp hnodup).2.1
        (fun hmem => hnew (List.mem_append_right cs hmem)) h

end Node

end Course.VisualQuadtree
