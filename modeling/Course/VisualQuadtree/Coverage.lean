import Course.VisualQuadtree.Routing

/-! Which overlapping circles a frame lets collide: all but the pairs one of which
rises past the other. -/

namespace Course.VisualQuadtree

variable {ι K : Type} [Field K] [LinearOrder K] [DecidableEq ι]

namespace Node

variable {impulse : List (Collision ι K) → Circle K → Circle K → Impulse K} {sCircleLimit : ℤ}
  {bounds : Bounds} {num : ℤ} {cs parents : List ι} {ch : Quadrant → Node ι} {n : ℕ}
  {w : World ι K} {r : World ι K × Node ι × List ι}

theorem update_leaf_some
    (h : update impulse sCircleLimit (n + 1) w (.leaf bounds num cs) parents = some r) :
    ∃ stay, cs.partition (fun c => decide (bounds.contain (w.circles c))) = (stay, r.2.2) ∧
      r.1 = w.meetAll impulse stay parents := by
  obtain ⟨stay, outs, hp⟩ : ∃ stay outs,
    cs.partition (fun c => decide (bounds.contain (w.circles c))) = (stay, outs) := ⟨_, _, rfl⟩
  rw [update_leaf_eq hp] at h
  split_ifs at h with hmany
  · simp only [Option.bind_eq_bind, Option.bind_eq_some_iff] at h
    obtain ⟨⟨kept, ch⟩, -, h⟩ := h
    obtain rfl := Option.some.inj h
    exact ⟨stay, hp, rfl⟩
  · obtain rfl := Option.some.inj h
    exact ⟨stay, hp, rfl⟩

theorem update_inner_some
    (h : update impulse sCircleLimit (n + 1) w (.inner bounds num cs ch) parents = some r) :
    ∃ stay outs kept ch' f,
      cs.partition (fun c => decide (bounds.contain (w.circles c))) = (stay, outs) ∧
      sift (insert w.circles sCircleLimit n) ch stay = some (kept, ch') ∧
      updateChildren (update impulse sCircleLimit n) bounds (parents ++ kept) Quadrant.all
        ⟨w, ch', kept, outs⟩ = some f ∧
      r.1 = f.world.meetAll impulse f.mCircles (parents ++ kept) ∧
      r.2.2 = f.outOfBoundsCircles := by
  obtain ⟨stay, outs, hp⟩ : ∃ stay outs,
    cs.partition (fun c => decide (bounds.contain (w.circles c))) = (stay, outs) := ⟨_, _, rfl⟩
  have hrun := h
  simp only [update, hp, Option.bind_eq_bind, Option.bind_eq_some_iff] at hrun
  obtain ⟨⟨kept, ch'⟩, hsift, f, hf, -⟩ := hrun
  obtain rfl := Option.some.inj ((update_inner_eq hp hsift hf).symm.trans h)
  exact ⟨stay, outs, kept, ch', f, hp, hsift, hf, rfl, rfl⟩

omit [DecidableEq ι] in
theorem updateChildren_some
    {upd : World ι K → Node ι → List ι → Option (World ι K × Node ι × List ι)}
    {q : Quadrant} {qs : List Quadrant} {f f' : Frame ι K}
    (h : updateChildren upd bounds parents (q :: qs) f = some f') :
    ∃ w child outs stay leave, upd f.world (f.mChildren q) parents = some (w, child, outs) ∧
      outs.partition (fun c => decide (bounds.contain (w.circles c))) = (stay, leave) ∧
      updateChildren upd bounds parents qs ⟨w, Function.update f.mChildren q child,
        f.mCircles ++ stay, f.outOfBoundsCircles ++ leave⟩ = some f' := by
  have hrun := h
  simp only [updateChildren, Option.bind_eq_bind, Option.bind_eq_some_iff] at hrun
  obtain ⟨⟨w, child, outs⟩, hr, -⟩ := hrun
  exact ⟨w, child, outs, _, _, hr, rfl, (updateChildren_cons hr rfl).symm.trans h⟩

omit [DecidableEq ι] in
theorem updateChildren_after
    {upd : World ι K → Node ι → List ι → Option (World ι K × Node ι × List ι)}
    (hupd : ∀ {w t parents r}, upd w t parents = some r → ∃ δ, w.After δ r.1)
    {qs : List Quadrant} {f f' : Frame ι K}
    (h : updateChildren upd bounds parents qs f = some f') : ∃ δ, f.world.After δ f'.world := by
  induction qs generalizing f with
  | nil =>
    obtain rfl := Option.some.inj h
    exact ⟨_, .refl _⟩
  | cons q qs ih =>
    obtain ⟨w, child, outs, stay, leave, hr, -, hrest⟩ := updateChildren_some h
    obtain ⟨δ, hδ⟩ := hupd hr
    obtain ⟨δ', hδ'⟩ := ih hrest
    exact ⟨_, hδ.trans hδ'⟩

theorem update_after {t : Node ι} (h : update impulse sCircleLimit n w t parents = some r) :
    ∃ δ, w.After δ r.1 := by
  induction n generalizing w t parents r with
  | zero => exact nomatch h
  | succ n ih =>
    cases t with
    | leaf bounds num cs =>
      obtain ⟨stay, -, hw⟩ := update_leaf_some h
      rw [hw]
      exact World.meetAll_after impulse w _ _
    | inner bounds num cs ch =>
      obtain ⟨stay, outs, kept, ch', f, -, -, hf, hw, -⟩ := update_inner_some h
      obtain ⟨δ, hδ⟩ := updateChildren_after ih hf
      obtain ⟨δ', hδ'⟩ := World.meetAll_after impulse f.world f.mCircles
        (parents ++ kept)
      rw [hw]
      exact ⟨_, hδ.trans hδ'⟩

/-- Where a circle can be while the children of a node are updated: `P` with an
ancestor, `K` kept by the node, `M q` stored under the child `q`.  The node
contains it if `I`, the child `q` if `J q`. -/
structure Placed (P K I : Prop) (M J : Quadrant → Prop) : Prop where
  parent : P → ¬ I ∧ ∀ q, ¬ M q
  kept : K → I ∧ (∀ q, ¬ J q) ∧ ∀ q, ¬ M q
  inside : ∀ q, J q → I
  unique : ∀ q q', M q → M q' → q = q'
  only : ∀ q q', J q → J q' → q = q'

section placed

variable {P K I P' K' I' : Prop} {M J M' J' O O' : Quadrant → Prop}

/-- It stays at hand, rises from a child to the node, or stays in a child. -/
theorem Placed.cases (h : Placed P K I M J) (hnear : P ∨ (K ∨ ∃ q, M q) ∧ I) :
    (P ∨ K) ∧ (∀ q, ¬ J q) ∧ (∀ q, ¬ M q) ∨ (∃ q, M q ∧ ¬ J q) ∧ I ∧ ¬ P ∧ ¬ K ∨
      (∃ q, M q ∧ J q) ∧ I ∧ ¬ P ∧ ¬ K := by
  obtain ⟨hP, hK, hJ, -, -⟩ := h
  rcases hnear with hp | ⟨hk | ⟨q, hq⟩, hi⟩
  · exact .inl ⟨.inl hp, fun q hj => (hP hp).1 (hJ q hj), (hP hp).2⟩
  · exact .inl ⟨.inr hk, (hK hk).2⟩
  · have hp : ¬ P := fun hp => (hP hp).2 q hq
    have hk : ¬ K := fun hk => (hK hk).2.2 q hq
    by_cases hj : J q
    · exact .inr (.inr ⟨⟨q, hq, hj⟩, hi, hp, hk⟩)
    · exact .inr (.inl ⟨⟨q, hq, hj⟩, hi, hp, hk⟩)

/-- Two circles meet in a child or at the node unless one rises past the other. -/
theorem Placed.meet_iff (h : Placed P K I M J) (h' : Placed P' K' I' M' J')
    (hsame : ∀ q q', J q → J' q' → q = q') (hO : ∀ q, O q → M q ∧ J q ∧ J' q)
    (hO' : ∀ q, O' q → M' q ∧ J' q ∧ J q) :
    ((∃ q, ((P ∨ K) ∨ M q ∧ J q) ∧ ((P' ∨ K') ∨ M' q ∧ J' q) ∧ ¬ O q ∧ ¬ O' q) ∨
      ((K ∨ ∃ q, M q ∧ ¬ J q ∧ I) ∨ P ∨ K) ∧ ((K' ∨ ∃ q, M' q ∧ ¬ J' q ∧ I') ∨ P' ∨ K')) ↔
    (P ∨ (K ∨ ∃ q, M q) ∧ I) ∧ (P' ∨ (K' ∨ ∃ q, M' q) ∧ I') ∧
      ¬ ((I ∧ ∃ q, M q ∧ ¬ J q) ∧ (∃ q, J' q ∧ ∀ q', M' q' → q' = q) ∨ ∃ q, O q) ∧
      ¬ ((I' ∧ ∃ q, M' q ∧ ¬ J' q) ∧ (∃ q, J q ∧ ∀ q', M q' → q' = q) ∨ ∃ q, O' q) := by
  by_cases hnear : P ∨ (K ∨ ∃ q, M q) ∧ I
  · by_cases hnear' : P' ∨ (K' ∨ ∃ q, M' q) ∧ I'
    · have hunique := h.unique
      have hunique' := h'.unique
      have honly := h.only
      have honly' := h'.only
      have q := Quadrant.topRight
      rcases h.cases hnear with hcase | hcase | hcase <;>
        rcases h'.cases hnear' with hcase' | hcase' | hcase' <;> grind
    · obtain ⟨hP, hK, hI, -, -⟩ := h'
      grind
  · obtain ⟨hP, hK, hI, -, -⟩ := h
    grind

end placed

section covering

variable {w₀ : World ι K} {a b : ι} {radius : ι → K} {δ : List (Collision ι K)}

/-- The circle was handed down to the node, or it stays below it. -/
def Near (circles : ι → Circle K) (parents : List ι) (t : Node ι) (c : ι) : Prop :=
  c ∈ parents ∨ c ∈ t.merge ∧ t.bounds.contain (circles c)

def Meets (circles : ι → Circle K) (a b : ι) (parents : List ι) (t : Node ι) : Prop :=
  Near circles parents t a ∧ Near circles parents t b ∧
    ¬ t.Overlooks circles a b ∧ ¬ t.Overlooks circles b a

/-- What holds when a node is updated while the two circles are where they were. -/
structure Ready (w₀ : World ι K) (a b : ι) (radius : ι → K) (n : ℕ) (w : World ι K)
    (t : Node ι) (parents : List ι) : Prop where
  radii : w.Radii radius
  wellFormed : t.WellFormed
  width : t.bounds.width < n
  nodup : (parents ++ t.merge).Nodup
  outside : ∀ c, c = a ∨ c = b → c ∈ parents → ¬ t.bounds.contain (w₀.circles c)
  calm : Calm w₀ a b w

/-- The two circles collide if they meet, and else the ones that the node does
not contain are handed up. -/
def Covers (w₀ : World ι K) (a b : ι) (radius : ι → K) (n : ℕ)
    (upd : World ι K → Node ι → List ι → Option (World ι K × Node ι × List ι)) : Prop :=
  ∀ {w t parents r δ}, Ready w₀ a b radius n w t parents → upd w t parents = some r →
    w.After δ r.1 → Undisturbed a b δ →
    (Met a b δ ↔ Meets w₀.circles a b parents t) ∧
      (¬ Met a b δ → ∀ c, c = a ∨ c = b →
        (c ∈ r.2.2 ↔ c ∈ t.merge ∧ ¬ t.bounds.contain (w₀.circles c)))

omit [DecidableEq ι] in
theorem mem_partition {p : ι → Bool} {l l₁ l₂ : List ι} (h : l.partition p = (l₁, l₂)) (c : ι) :
    (c ∈ l₁ ↔ c ∈ l ∧ p c) ∧ (c ∈ l₂ ↔ c ∈ l ∧ ¬ p c) := by
  rw [List.partition_eq_filter_filter] at h
  obtain ⟨rfl, rfl⟩ := Prod.mk.inj h
  simp

omit [DecidableEq ι] in
theorem mem_partition_contain (h : Calm w₀ a b w) {c : ι} (hc : c = a ∨ c = b)
    {l l₁ l₂ : List ι}
    (hp : l.partition (fun c => decide (bounds.contain (w.circles c))) = (l₁, l₂)) :
    (c ∈ l₁ ↔ c ∈ l ∧ bounds.contain (w₀.circles c)) ∧
      (c ∈ l₂ ↔ c ∈ l ∧ ¬ bounds.contain (w₀.circles c)) := by
  simpa only [decide_eq_true_eq, h.contain hc] using mem_partition hp c

variable [IsStrictOrderedRing K]

/-- What holds of the loop over the children. -/
structure ReadyChildren (w₀ : World ι K) (a b : ι) (radius : ι → K) (n : ℕ) (bounds : Bounds)
    (parents : List ι) (f : Frame ι K) : Prop where
  radii : f.world.Radii radius
  quarters : Quarters bounds f.mChildren
  width : ∀ q, (bounds.quadrant q).width < n
  nodup : (parents ++ mergeAll f.mChildren).Nodup
  outside : ∀ c, c = a ∨ c = b → c ∈ parents → ∀ q, ¬ (bounds.quadrant q).contain (w₀.circles c)
  calm : Calm w₀ a b f.world

omit [Field K] [LinearOrder K] [DecidableEq ι] [IsStrictOrderedRing K] in
theorem merge_sublist (q : Quadrant) : (ch q).merge.Sublist (mergeAll ch) :=
  List.sublist_flatten_of_mem (List.mem_map.mpr ⟨q, q.mem_all, rfl⟩)

omit [DecidableEq ι] [IsStrictOrderedRing K] in
theorem updateChildren_covers
    {upd : World ι K → Node ι → List ι → Option (World ι K × Node ι × List ι)}
    (hupd : Covers w₀ a b radius n upd) (hspec : Updates radius n upd)
    (hafter : ∀ {w t parents r}, upd w t parents = some r → ∃ δ, w.After δ r.1)
    {qs : List Quadrant} (hqs : qs.Nodup) {f f' : Frame ι K}
    (hf : ReadyChildren w₀ a b radius n bounds parents f)
    (h : updateChildren upd bounds parents qs f = some f') (hδ : f.world.After δ f'.world)
    (hq : Undisturbed a b δ) :
    (Met a b δ ↔ ∃ q ∈ qs, Meets w₀.circles a b parents (f.mChildren q)) ∧
      (¬ Met a b δ → ∀ c, c = a ∨ c = b →
        (c ∈ f'.mCircles ↔ c ∈ f.mCircles ∨ ∃ q ∈ qs, c ∈ (f.mChildren q).merge ∧
          ¬ (bounds.quadrant q).contain (w₀.circles c) ∧ bounds.contain (w₀.circles c)) ∧
        (c ∈ f'.outOfBoundsCircles ↔ c ∈ f.outOfBoundsCircles ∨
          ∃ q ∈ qs, c ∈ (f.mChildren q).merge ∧
            ¬ (bounds.quadrant q).contain (w₀.circles c) ∧
            ¬ bounds.contain (w₀.circles c))) := by
  induction qs generalizing f δ with
  | nil =>
    obtain rfl := Option.some.inj h
    obtain rfl := (World.After.refl f.world).eq hδ.collisions
    simp [not_met_nil]
  | cons q qs ih =>
    obtain ⟨hnotin, hqs⟩ := List.nodup_cons.mp hqs
    obtain ⟨w, child, outs, stay, leave, hr, hp, hrest⟩ := updateChildren_some h
    obtain ⟨δ₁, h₁⟩ := hafter hr
    obtain ⟨δ₂, h₂⟩ := updateChildren_after hafter hrest
    obtain rfl := (h₁.trans h₂).eq hδ.collisions
    obtain ⟨hq₁, hq₂⟩ := undisturbed_append.mp hq
    obtain ⟨hb, hwf⟩ := hf.quarters q
    have hready : Ready w₀ a b radius n f.world (f.mChildren q) parents := by
      refine ⟨hf.radii, hwf, hb ▸ hf.width q, ?_, ?_, hf.calm⟩
      · exact hf.nodup.sublist ((merge_sublist q).append_left parents)
      · rw [hb]
        exact fun c hc hmem => hf.outside c hc hmem q
    obtain ⟨hmet, houts⟩ := hupd hready hr h₁ hq₁
    have hothers : ∀ q' ∈ qs, Function.update f.mChildren q child q' = f.mChildren q' :=
      fun q' hq' => Function.update_of_ne (ne_of_mem_of_not_mem hq' hnotin) ..
    rw [met_append]
    by_cases hnow : Met a b δ₁
    · refine ⟨iff_of_true (.inl hnow) ⟨q, List.mem_cons_self, hmet.mp hnow⟩, fun hnot => ?_⟩
      exact absurd (.inl hnow) hnot
    · have hcalm := hf.calm.after h₁ hq₁ hnow
      obtain ⟨r, hr', hdone⟩ := hspec f.world (f.mChildren q) parents hf.radii hwf (hb ▸ hf.width q)
      obtain rfl := Option.some.inj (hr'.symm.trans hr)
      have hmerge : (mergeAll (Function.update f.mChildren q child) ++ outs).Perm
          ([] ++ mergeAll f.mChildren) := mergeAll_update hdone.perm
      have hready' : ReadyChildren w₀ a b radius n bounds parents
          ⟨w, Function.update f.mChildren q child, f.mCircles ++ stay,
            f.outOfBoundsCircles ++ leave⟩ := by
        refine ⟨hdone.radii, hf.quarters.update hdone.bounds hdone.wellFormed, hf.width, ?_,
          hf.outside, hcalm⟩
        have hnodup := ((hmerge.append_left parents).nodup_iff).mpr hf.nodup
        rw [← List.append_assoc] at hnodup
        exact (List.nodup_append.mp hnodup).1
      obtain ⟨hmet', hlists⟩ := ih hqs hready' hrest h₂ hq₂
      have hmeets : (∃ q' ∈ qs, Meets w₀.circles a b parents
          (Function.update f.mChildren q child q')) ↔
          ∃ q' ∈ qs, Meets w₀.circles a b parents (f.mChildren q') :=
        exists_congr fun q' => and_congr_right fun hq' => by rw [hothers q' hq']
      refine ⟨?_, fun hnot c hc => ?_⟩
      · rw [hmet', hmeets, hmet, List.exists_mem_cons_iff]
      · have hother : ∀ p : Quadrant → Prop,
            (∃ q' ∈ qs, c ∈ (Function.update f.mChildren q child q').merge ∧ p q') ↔
              ∃ q' ∈ qs, c ∈ (f.mChildren q').merge ∧ p q' :=
          fun p => exists_congr fun q' => and_congr_right fun hq' => by rw [hothers q' hq']
        obtain ⟨hin, hout⟩ := hlists (fun hmet => hnot (.inr hmet)) c hc
        obtain ⟨hstay, hleave⟩ := mem_partition_contain hcalm hc hp
        have hup := houts hnow c hc
        rw [hb] at hup
        rw [hin, hout, hother, hother, List.mem_append, List.mem_append, hstay, hleave, hup,
          List.exists_mem_cons_iff, List.exists_mem_cons_iff, or_assoc, or_assoc, and_assoc,
          and_assoc]
        exact ⟨Iff.rfl, Iff.rfl⟩

omit [DecidableEq ι] in
/-- A circle of a node when its children are about to be updated. -/
theorem placed {c : ι} {kept : List ι} (hr : 3 ≤ (w₀.circles c).mRadius)
    (hnodup : (parents ++ kept ++ mergeAll ch).Nodup)
    (houtside : c ∈ parents → ¬ bounds.contain (w₀.circles c))
    (hkept : c ∈ kept → bounds.contain (w₀.circles c) ∧
      ∀ q, ¬ (bounds.quadrant q).contain (w₀.circles c)) :
    Placed (c ∈ parents) (c ∈ kept) (bounds.contain (w₀.circles c)) (fun q => c ∈ (ch q).merge)
      fun q => (bounds.quadrant q).contain (w₀.circles c) := by
  obtain ⟨-, hchildren, hapart⟩ := List.nodup_append.mp hnodup
  have hchild : c ∈ parents ++ kept → ∀ q, c ∉ (ch q).merge :=
    fun hc q hq => hapart c hc c (mem_mergeAll.mpr ⟨q, hq⟩) rfl
  exact ⟨fun hc => ⟨houtside hc, hchild (List.mem_append_left _ hc)⟩,
    fun hc => ⟨(hkept hc).1, (hkept hc).2, hchild (List.mem_append_right _ hc)⟩,
    fun q => Bounds.contain_of_quadrant, fun q q' => eq_of_mem_children hchildren,
    fun q q' => Bounds.quadrant_eq hr⟩

section sifted

variable {stay outs kept : List ι} {ch' : Quadrant → Node ι}

omit [DecidableEq ι] [IsStrictOrderedRing K] in
theorem nodup_sift
    (hp : cs.partition (fun c => decide (bounds.contain (w.circles c))) = (stay, outs))
    (hperm : (kept ++ mergeAll ch').Perm (stay ++ mergeAll ch))
    (hnodup : (parents ++ (inner bounds num cs ch).merge).Nodup) :
    (parents ++ kept ++ mergeAll ch').Nodup := by
  have hstay : stay.Sublist cs := by
    rw [List.partition_eq_filter_filter] at hp
    rw [← (Prod.mk.inj hp).1]
    exact List.filter_sublist
  rw [List.append_assoc, (hperm.append_left parents).nodup_iff]
  exact hnodup.sublist ((hstay.append_right _).append_left parents)

omit [DecidableEq ι] [IsStrictOrderedRing K] in
theorem near_sift {c : ι} (hcalm : Calm w₀ a b w) (hc : c = a ∨ c = b)
    (hp : cs.partition (fun c => decide (bounds.contain (w.circles c))) = (stay, outs))
    (hperm : (kept ++ mergeAll ch').Perm (stay ++ mergeAll ch)) :
    Near w₀.circles parents (inner bounds num cs ch) c ↔
      c ∈ parents ∨ (c ∈ kept ∨ ∃ q, c ∈ (ch' q).merge) ∧ bounds.contain (w₀.circles c) := by
  have hmem := hperm.mem_iff (a := c)
  have hstay := (mem_partition_contain hcalm hc hp).1
  rw [List.mem_append, List.mem_append, mem_mergeAll, hstay] at hmem
  rw [Near, merge_inner, List.mem_append]
  simp only [Node.bounds]
  grind

omit [DecidableEq ι] in
/-- The circles meet at the node or in a child that they have in common. -/
theorem meets_sift (hover : (w₀.circles a).collideCheck (w₀.circles b))
    (hcalm : Calm w₀ a b w)
    (hp : cs.partition (fun c => decide (bounds.contain (w.circles c))) = (stay, outs))
    (hperm : (kept ++ mergeAll ch').Perm (stay ++ mergeAll ch)) (hch' : Quarters bounds ch')
    (hsame : (inner bounds num cs ch').Overlooks w₀.circles a b ↔
      (inner bounds num cs ch).Overlooks w₀.circles a b)
    (hsame' : (inner bounds num cs ch').Overlooks w₀.circles b a ↔
      (inner bounds num cs ch).Overlooks w₀.circles b a)
    (hplaced : ∀ c, c = a ∨ c = b →
      Placed (c ∈ parents) (c ∈ kept) (bounds.contain (w₀.circles c))
        (fun q => c ∈ (ch' q).merge) fun q => (bounds.quadrant q).contain (w₀.circles c)) :
    Meets w₀.circles a b parents (inner bounds num cs ch) ↔
      (∃ q ∈ Quadrant.all, Meets w₀.circles a b (parents ++ kept) (ch' q)) ∨
        ((a ∈ kept ∨ ∃ q, a ∈ (ch' q).merge ∧ ¬ (bounds.quadrant q).contain (w₀.circles a) ∧
            bounds.contain (w₀.circles a)) ∨ a ∈ parents ++ kept) ∧
          ((b ∈ kept ∨ ∃ q, b ∈ (ch' q).merge ∧ ¬ (bounds.quadrant q).contain (w₀.circles b) ∧
            bounds.contain (w₀.circles b)) ∨ b ∈ parents ++ kept) := by
  have hbelow : ∀ q a b, (ch' q).Overlooks w₀.circles a b →
      a ∈ (ch' q).merge ∧ (bounds.quadrant q).contain (w₀.circles a) ∧
        (bounds.quadrant q).contain (w₀.circles b) :=
    fun q a b h => (hch' q).1 ▸ overlooks_spec (hch' q).2 h
  rw [Meets, near_sift hcalm (.inl rfl) hp hperm, near_sift hcalm (.inr rfl) hp hperm,
    ← hsame, ← hsame']
  simp only [overlooks_inner, Rises, Sinks, (hch' _).1]
  rw [← Placed.meet_iff (hplaced a (.inl rfl)) (hplaced b (.inr rfl))
    (fun q q' ha hb => Bounds.quadrant_eq_of_collideCheck ha hb hover)
    (fun q => hbelow q a b) (fun q => hbelow q b a)]
  simp only [Meets, Near, List.mem_append, Quadrant.mem_all, true_and, (hch' _).1]

end sifted

theorem update_covers (hr : ∀ c, 3 ≤ radius c) (hlimit : 0 < sCircleLimit) (hab : a ≠ b)
    (hover : (w₀.circles a).collideCheck (w₀.circles b)) (hw₀ : w₀.Radii radius) (n : ℕ) :
    Covers w₀ a b radius n (update impulse sCircleLimit n) := by
  induction n with
  | zero => exact fun _ h _ _ => nomatch h
  | succ n ih =>
    intro w t parents r δ hready h hδ hq
    obtain ⟨hw, hwf, hwidth, hnodup, houtside, hcalm⟩ := hready
    cases t with
    | leaf bounds num cs =>
      obtain ⟨stay, hp, hr⟩ := update_leaf_some h
      rw [hr] at hδ
      have hparts := fun c hc => mem_partition_contain hcalm (c := c) hc hp
      refine ⟨?_, fun _ c hc => (hparts c hc).2⟩
      rw [met_meetAll hab hover hcalm hδ hq, (hparts a (.inl rfl)).1, (hparts b (.inr rfl)).1]
      simp only [Meets, Near, Overlooks, merge, Node.bounds, not_false_eq_true, and_true]
      rw [or_comm, @or_comm (b ∈ cs ∧ _)]
    | inner bounds num cs ch =>
      obtain ⟨stay, outs, kept, ch', f, hp, hsift, hf, hr', houts⟩ := update_inner_some h
      obtain ⟨-, hwide, hch⟩ := wellFormed_inner.mp hwf
      have hn : ∀ q, (bounds.quadrant q).width < n :=
        fun q => (Bounds.width_quadrant_lt q hwide).trans_le (Nat.lt_succ_iff.mp hwidth)
      have hr₃ : ∀ c, 3 ≤ (w.circles c).mRadius := fun c => (hr c).trans_eq (hw c).symm
      obtain ⟨kept', ch'', hsift', hch', hperm, hkept⟩ :=
        sift_spec (inserts hr₃ sCircleLimit n) hn stay hch
      obtain ⟨rfl, rfl⟩ := Prod.mk.inj (Option.some.inj (hsift'.symm.trans hsift))
      have hnodup' := nodup_sift hp hperm hnodup
      have hkept' : ∀ c, c = a ∨ c = b → c ∈ kept' → bounds.contain (w₀.circles c) ∧
          ∀ q, ¬ (bounds.quadrant q).contain (w₀.circles c) := fun c hc hmem =>
        ⟨((mem_partition_contain hcalm hc hp).1.mp (hkept c hmem).1).2,
          fun q => (hcalm.contain hc _).not.mp ((hkept c hmem).2 q)⟩
      have hplaced : ∀ c, c = a ∨ c = b →
          Placed (c ∈ parents) (c ∈ kept') (bounds.contain (w₀.circles c))
            (fun q => c ∈ (ch'' q).merge) fun q => (bounds.quadrant q).contain (w₀.circles c) :=
        fun c hc => placed ((hr c).trans_eq (hw₀ c).symm) hnodup' (houtside c hc) (hkept' c hc)
      have hready : ReadyChildren w₀ a b radius n bounds (parents ++ kept')
          ⟨w, ch'', kept', outs⟩ := by
        refine ⟨hw, hch', hn, hnodup', fun c hc hmem q => ?_, hcalm⟩
        rcases List.mem_append.mp hmem with hmem | hmem
        · exact fun hin => houtside c hc hmem (Bounds.contain_of_quadrant hin)
        · exact (hkept' c hc hmem).2 q
      obtain ⟨δ₁, h₁⟩ := updateChildren_after update_after hf
      obtain ⟨δ₂, h₂⟩ := World.meetAll_after impulse f.world f.mCircles
        (parents ++ kept')
      rw [hr'] at hδ
      obtain rfl := (h₁.trans h₂).eq hδ.collisions
      obtain ⟨hq₁, hq₂⟩ := undisturbed_append.mp hq
      obtain ⟨hmet, hlists⟩ := updateChildren_covers ih (update_spec hr hlimit n) update_after
        (by decide : Quadrant.all.Nodup) hready hf h₁ hq₁
      have hstay : (stay ++ mergeAll ch).Nodup := by
        rw [← hperm.nodup_iff]
        rw [List.append_assoc] at hnodup'
        exact (List.nodup_append.mp hnodup').2.1
      have hsame : ∀ {c d}, (w₀.circles c).Still (w.circles c) →
          (w₀.circles d).Still (w.circles d) →
          ((inner bounds num cs ch'').Overlooks w₀.circles c d ↔
            (inner bounds num cs ch).Overlooks w₀.circles c d) := by
        intro c d hc hd
        rw [← overlooks_congr hc hd, ← overlooks_congr hc hd]
        exact overlooks_sift (inserts hr₃ sCircleLimit n) (overlooks_insert hr₃ sCircleLimit n) hn
          hch hstay hsift
      rw [met_append, meets_sift hover hcalm hp hperm hch' (hsame hcalm.1 hcalm.2)
        (hsame hcalm.2 hcalm.1) hplaced, ← hmet]
      by_cases hnow : Met a b δ₁
      · exact ⟨iff_of_true (.inl hnow) (.inl hnow), fun hnot => absurd (.inl hnow) hnot⟩
      · have hcalm' := hcalm.after h₁ hq₁ hnow
        obtain ⟨ha, -⟩ := hlists hnow a (.inl rfl)
        obtain ⟨hb, -⟩ := hlists hnow b (.inr rfl)
        simp only [Quadrant.mem_all, true_and] at ha hb
        rw [met_meetAll hab hover hcalm' h₂ hq₂, ha, hb]
        refine ⟨Iff.rfl, fun _ c hc => ?_⟩
        obtain ⟨-, hout⟩ := hlists hnow c hc
        obtain ⟨hin, hgone⟩ := mem_partition_contain hcalm hc hp
        have hmem := hperm.mem_iff (a := c)
        simp only [List.mem_append, mem_mergeAll, hin] at hmem
        simp only [Quadrant.mem_all, true_and, hgone] at hout
        have hkept := hkept' c hc
        have hinside : ∀ q, (bounds.quadrant q).contain (w₀.circles c) →
          bounds.contain (w₀.circles c) := fun q => Bounds.contain_of_quadrant
        rw [houts, hout, merge_inner, List.mem_append, mem_mergeAll]
        simp only [Node.bounds]
        grind

end covering

end Node

/-- The collisions of the frame from `s` to `t`. -/
def Quadtree.frame (s t : Quadtree ι K) : List (Collision ι K) :=
  t.world.collisions.drop s.world.collisions.length

namespace Window

variable {g : Window ι K} {n : ℕ} {s t : Quadtree ι K} {es : List (Action ι K)} {a b : ι}

/-- The window inserts circles that it has just made. -/
def Fresh (s : Quadtree ι K) : Action ι K → Prop
  | .insert c => c ∉ s.mCircles
  | _ => True

instance (s : Quadtree ι K) (e : Action ι K) : Decidable (Fresh s e) :=
  match e with
  | .insert c => inferInstanceAs (Decidable (c ∉ s.mCircles))
  | .move _ => isTrue trivial
  | .setCircleLimit _ => isTrue trivial
  | .update => isTrue trivial

theorem mCircles_step {e : Action ι K} (h : (g.machine n).step s e = some t) :
    t.mCircles = s.mCircles ∨ ∃ c, e = .insert c ∧ t.mCircles = s.mCircles ++ [c] := by
  cases e with
  | insert c =>
    simp only [machine, Option.bind_eq_bind, Option.bind_eq_some_iff] at h
    obtain ⟨⟨inserted, root⟩, -, h⟩ := h
    obtain rfl := Option.some.inj h
    cases inserted
    · exact .inl rfl
    · exact .inr ⟨c, rfl, rfl⟩
  | move place =>
    obtain rfl := Option.some.inj h
    exact .inl rfl
  | setCircleLimit circleLimit =>
    obtain rfl := Option.some.inj h
    exact .inl rfl
  | update =>
    simp only [machine, update, Option.bind_eq_bind, Option.bind_eq_some_iff] at h
    obtain ⟨r, -, r', -, h⟩ := h
    obtain rfl := Option.some.inj h
    exact .inl rfl

theorem nodup_run (h : s.mCircles.Nodup)
    (hrun : (g.machine n).Run (fun s e => Permitted e ∧ Fresh s e) s es t) :
    t.mCircles.Nodup := by
  induction hrun with
  | nil => exact h
  | cons he hstep _ ih =>
    refine ih ?_
    rcases mCircles_step hstep with heq | ⟨c, rfl, heq⟩
    · rwa [heq]
    · rw [heq, (List.perm_append_singleton c _).nodup_iff]
      exact List.nodup_cons.mpr ⟨he.2, h⟩

theorem collisions_putBack {sCircleLimit : ℤ} {outs : List ι} {w w' : World ι K}
    {root root' : Node ι} (h : g.putBack sCircleLimit n w root outs = some (w', root')) :
    w'.collisions = w.collisions := by
  induction outs generalizing w root with
  | nil =>
    obtain ⟨rfl, -⟩ := Prod.mk.inj (Option.some.inj h)
    rfl
  | cons c outs ih =>
    simp only [putBack, Option.bind_eq_bind, Option.bind_eq_some_iff] at h
    obtain ⟨⟨inserted, root''⟩, -, h⟩ := h
    have hcollisions := ih h
    exact hcollisions

variable [IsStrictOrderedRing K]

/-- Two circles in the window that overlap, and that nothing else moves, collide
in a frame exactly if neither rises past the other. -/
theorem frame_collides_iff {circles : ι → Circle K}
    (hg : g.Suits fun c => (circles c).mRadius) (hn : g.width < n)
    (hrun : (g.machine n).Run (fun s e => Permitted e ∧ Fresh s e) (g.start circles) es s)
    (hstep : (g.machine n).step s .update = some t)
    (ha : a ∈ s.mRoot.merge) (hb : b ∈ s.mRoot.merge) (hab : a ≠ b)
    (hina : g.bounds.contain (s.world.circles a)) (hinb : g.bounds.contain (s.world.circles b))
    (hover : (s.world.circles a).collideCheck (s.world.circles b))
    (hq : Undisturbed a b (s.frame t)) :
    Met a b (s.frame t) ↔
      ¬ s.mRoot.Overlooks s.world.circles a b ∧ ¬ s.mRoot.Overlooks s.world.circles b a := by
  have hwidth : g.bounds.width < n := by
    have h0 := g.width_nonneg
    simp only [bounds, Bounds.width]
    omega
  have hs := conserves_start.run hg hwidth (hrun.mono fun _ _ h => h.1)
  have hnodup : s.mRoot.merge.Nodup :=
    hs.perm.nodup_iff.mpr (nodup_run List.nodup_nil hrun)
  have hlimit : 0 < s.sCircleLimit := by
    have hlimit := hs.limit
    omega
  simp only [machine, update, Option.bind_eq_bind, Option.bind_eq_some_iff] at hstep
  obtain ⟨r, hupdate, ⟨w, root⟩, hback, hstep⟩ := hstep
  obtain rfl := Option.some.inj hstep
  obtain ⟨δ, hδ⟩ := Node.update_after hupdate
  have hframe : s.frame { s with mRoot := root, world := w } = δ := by
    rw [Quadtree.frame, collisions_putBack hback, hδ.collisions, List.drop_left]
  rw [hframe] at hq ⊢
  have hready : Node.Ready s.world a b (fun c => (circles c).mRadius) n s.world s.mRoot [] :=
    ⟨hs.radii, hs.wellFormed, hs.bounds ▸ hwidth, hnodup, fun _ _ h => (List.not_mem_nil h).elim,
      .refl _, .refl _⟩
  rw [(Node.update_covers hg.three_le hlimit hab hover hs.radii n hready hupdate hδ hq).1,
    Node.Meets, Node.Near, Node.Near, hs.bounds]
  simp only [ha, hb, hina, hinb, List.not_mem_nil, true_and, or_true]

/-- The third and fourth circle of the row overlap, but the third one rises past
the fourth. -/
theorem row_frame : ∃ s t,
    (rowWindow.machine 101).Run (fun s e => Permitted e ∧ Fresh s e) (rowWindow.start row)
      rowScript s ∧
    (rowWindow.machine 101).step s .update = some t ∧
    (2 ∈ s.mRoot.merge ∧ 3 ∈ s.mRoot.merge ∧ rowWindow.bounds.contain (s.world.circles 2) ∧
      rowWindow.bounds.contain (s.world.circles 3) ∧
      (s.world.circles 2).collideCheck (s.world.circles 3)) ∧
    s.frame t = [] := by
  have h : (do
      let s ← (rowWindow.machine 101).execWhile (fun s e => Permitted e ∧ Fresh s e)
        (rowWindow.start row) rowScript
      let t ← (rowWindow.machine 101).step s .update
      some (decide ((2 ∈ s.mRoot.merge ∧ 3 ∈ s.mRoot.merge ∧
        rowWindow.bounds.contain (s.world.circles 2) ∧
        rowWindow.bounds.contain (s.world.circles 3) ∧
        (s.world.circles 2).collideCheck (s.world.circles 3)) ∧ s.frame t = []))) =
      some true := by
    decide +kernel
  simp only [Option.bind_eq_bind, Option.bind_eq_some_iff] at h
  obtain ⟨s, hs, t, ht, h⟩ := h
  exact ⟨s, t, Lib.Machine.run_iff_execWhile.mpr hs, ht, of_decide_eq_true (Option.some.inj h)⟩

theorem frame_collides_iff_row : ∃ s t,
    (rowWindow.machine 101).step s .update = some t ∧
      (Met 2 3 (s.frame t) ↔
        ¬ s.mRoot.Overlooks s.world.circles 2 3 ∧ ¬ s.mRoot.Overlooks s.world.circles 3 2) := by
  obtain ⟨s, t, hrun, hstep, ⟨ha, hb, hina, hinb, hover⟩, hframe⟩ := row_frame
  exact ⟨s, t, hstep, frame_collides_iff row_suits (by decide) hrun hstep ha hb (by decide) hina
    hinb hover (by rw [hframe]; exact List.forall_mem_nil _)⟩

/-- Not every pair of overlapping circles is passed to `collide`. -/
theorem not_frame_collides : ¬ ∀ {s t : Quadtree ℕ ℚ} {es : List (Action ℕ ℚ)} {a b : ℕ},
    (rowWindow.machine 101).Run (fun s e => Permitted e ∧ Fresh s e) (rowWindow.start row) es s →
    (rowWindow.machine 101).step s .update = some t →
    a ∈ s.mRoot.merge → b ∈ s.mRoot.merge → a ≠ b →
    rowWindow.bounds.contain (s.world.circles a) →
    rowWindow.bounds.contain (s.world.circles b) →
    (s.world.circles a).collideCheck (s.world.circles b) → Undisturbed a b (s.frame t) →
    Met a b (s.frame t) := by
  intro h
  obtain ⟨s, t, hrun, hstep, ⟨ha, hb, hina, hinb, hover⟩, hframe⟩ := row_frame
  have hmet := h hrun hstep ha hb (by decide) hina hinb hover
    (by rw [hframe]; exact List.forall_mem_nil _)
  rw [hframe] at hmet
  exact not_met_nil hmet

end Window

end Course.VisualQuadtree
