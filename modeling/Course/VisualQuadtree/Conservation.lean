import Course.VisualQuadtree.Update
import Mathlib.Data.List.Nodup

/-! Every operation of the quadtree returns and keeps the circles that it has. -/

namespace Course.VisualQuadtree

variable {ι K : Type}

namespace Node

/-- Every node counts the circles of its subtree. -/
def Counted : Node ι → Prop
  | .leaf _ num cs => num = cs.length
  | .inner b num cs ch => num = (merge (.inner b num cs ch)).length ∧ ∀ q, (ch q).Counted

/-- The children of a node have its quadrants, and the node can be halved. -/
def Shaped : Node ι → Prop
  | .leaf _ _ _ => True
  | .inner b _ _ ch => 2 ≤ b.width ∧ ∀ q, (ch q).bounds = b.quadrant q ∧ (ch q).Shaped

structure WellFormed (t : Node ι) : Prop where
  counted : t.Counted
  shaped : t.Shaped

/-- The children that a node with the rectangle `b` can have. -/
def Quarters (b : Bounds) (ch : Quadrant → Node ι) : Prop :=
  ∀ q, (ch q).bounds = b.quadrant q ∧ (ch q).WellFormed

def mergeAll (ch : Quadrant → Node ι) : List ι :=
  Quadrant.all.flatMap fun q => (ch q).merge

theorem merge_inner {b : Bounds} {num : ℤ} {cs : List ι} {ch : Quadrant → Node ι} :
    (inner b num cs ch).merge = cs ++ mergeAll ch := rfl

theorem mem_mergeAll {ch : Quadrant → Node ι} {c : ι} :
    c ∈ mergeAll ch ↔ ∃ q, c ∈ (ch q).merge := by
  simp [mergeAll, Quadrant.mem_all]

theorem wellFormed_leaf {b : Bounds} {num : ℤ} {cs : List ι} :
    (leaf b num cs).WellFormed ↔ num = cs.length :=
  ⟨fun h => h.counted, fun h => ⟨h, trivial⟩⟩

theorem wellFormed_inner {b : Bounds} {num : ℤ} {cs : List ι} {ch : Quadrant → Node ι} :
    (inner b num cs ch).WellFormed ↔
      num = (cs ++ mergeAll ch).length ∧ 2 ≤ b.width ∧ Quarters b ch :=
  ⟨fun h => ⟨h.counted.1, h.shaped.1,
      fun q => ⟨(h.shaped.2 q).1, h.counted.2 q, (h.shaped.2 q).2⟩⟩,
    fun h => ⟨⟨h.1, fun q => (h.2.2 q).2.counted⟩,
      h.2.1, fun q => ⟨(h.2.2 q).1, (h.2.2 q).2.shaped⟩⟩⟩

theorem WellFormed.mNumCircles {t : Node ι} (h : t.WellFormed) :
    t.mNumCircles = t.merge.length := by
  cases t with
  | leaf b num cs => exact h.counted
  | inner b num cs ch => exact h.counted.1

theorem Quarters.update {b : Bounds} {ch : Quadrant → Node ι} {t : Node ι} {q : Quadrant}
    (h : Quarters b ch) (hb : t.bounds = (ch q).bounds) (ht : t.WellFormed) :
    Quarters b (Function.update ch q t) := by
  intro q'
  rcases eq_or_ne q' q with rfl | hne
  · rw [Function.update_self]
    exact ⟨hb.trans (h _).1, ht⟩
  · rw [Function.update_of_ne hne]
    exact h q'

theorem quarters_leaves (b : Bounds) :
    Quarters b fun q => (leaf (b.quadrant q) 0 [] : Node ι) :=
  fun _ => ⟨rfl, wellFormed_leaf.mpr rfl⟩

theorem mergeAll_leaves (b : Bounds) :
    (mergeAll fun q => (leaf (b.quadrant q) 0 [] : Node ι)) = [] := rfl

/-- What one child gains and loses is what all of them gain and lose. -/
theorem mergeAll_update {ch : Quadrant → Node ι} {t : Node ι} {q : Quadrant} {gain loss : List ι}
    (h : (t.merge ++ loss).Perm (gain ++ (ch q).merge)) :
    (mergeAll (Function.update ch q t) ++ loss).Perm (gain ++ mergeAll ch) := by
  classical
  rw [List.perm_iff_count] at h ⊢
  intro c
  have hc := h c
  cases q <;>
    simp only [mergeAll, Quadrant.all, List.flatMap_cons, List.flatMap_nil, List.count_append,
      Function.update_self, Function.update_of_ne, ne_eq, reduceCtorEq, not_false_eq_true,
      List.count_nil] at hc ⊢ <;> omega

end Node

variable [Field K] [LinearOrder K]

/-- A circle of the radius that the program gives fits into no narrow rectangle. -/
theorem Bounds.contain.two_le_width [IsStrictOrderedRing K] {b : Bounds} {c : Circle K}
    (h : b.contain c) (hr : 3 ≤ c.mRadius) : 2 ≤ b.width := by
  obtain ⟨h1, h2, -, -⟩ := h
  have hx : ((b.mX1 + 6 : ℤ) : K) ≤ (b.mX2 : ℤ) := by
    push_cast
    linarith
  have hx := Int.cast_le.mp hx
  rw [width]
  omega

namespace Node

/-- `t'` is `t` with the circle `c` inserted. -/
structure Gains (t : Node ι) (c : ι) (t' : Node ι) : Prop where
  wellFormed : t'.WellFormed
  bounds : t'.bounds = t.bounds
  perm : t'.merge.Perm (c :: t.merge)

/-- What a call of `insert` does to the nodes that are narrower than `n`. -/
def Inserts (circles : ι → Circle K) (n : ℕ) (insert : Node ι → ι → Option (Bool × Node ι)) :
    Prop :=
  ∀ t c, t.WellFormed → t.bounds.width < n →
    (t.bounds.contain (circles c) → ∃ t', insert t c = some (true, t') ∧ Gains t c t') ∧
      (¬ t.bounds.contain (circles c) → insert t c = some (false, t))

variable {circles : ι → Circle K} {n : ℕ} {ins : Node ι → ι → Option (Bool × Node ι)}
  {b : Bounds} {ch : Quadrant → Node ι}

theorem offer_spec (hins : Inserts circles n ins) (hch : Quarters b ch)
    (hn : ∀ q, (b.quadrant q).width < n) (c : ι) (qs : List Quadrant) :
    (∃ q t', (b.quadrant q).contain (circles c) ∧ ins (ch q) c = some (true, t') ∧
      Gains (ch q) c t' ∧ offer ins ch c qs = some (true, Function.update ch q t')) ∨
    (∀ q ∈ qs, ¬ (b.quadrant q).contain (circles c)) ∧ offer ins ch c qs = some (false, ch) := by
  induction qs with
  | nil => exact .inr ⟨by simp, rfl⟩
  | cons q qs ih =>
    obtain ⟨hb, hwf⟩ := hch q
    obtain ⟨hyes, hno⟩ := hins (ch q) c hwf (hb ▸ hn q)
    rw [hb] at hyes hno
    by_cases hc : (b.quadrant q).contain (circles c)
    · obtain ⟨t', ht', hgain⟩ := hyes hc
      exact .inl ⟨q, t', hc, ht', hgain, by simp [offer, ht']⟩
    · have hoffer : offer ins ch c (q :: qs) = offer ins ch c qs := by
        simp [offer, hno hc]
      rw [hoffer]
      exact ih.imp_right fun ⟨h, hrest⟩ => ⟨List.forall_mem_cons.mpr ⟨hc, h⟩, hrest⟩

theorem Gains.mergeAll_update {c : ι} {q : Quadrant} {t' : Node ι} (h : Gains (ch q) c t') :
    (mergeAll (Function.update ch q t')).Perm (c :: mergeAll ch) := by
  have hmerge : (mergeAll (Function.update ch q t') ++ []).Perm ([c] ++ mergeAll ch) :=
    Node.mergeAll_update (by simpa using h.perm)
  simpa using hmerge

theorem sift_spec (hins : Inserts circles n ins) (hn : ∀ q, (b.quadrant q).width < n)
    (cs : List ι) (hch : Quarters b ch) :
    ∃ kept ch', sift ins ch cs = some (kept, ch') ∧ Quarters b ch' ∧
      (kept ++ mergeAll ch').Perm (cs ++ mergeAll ch) ∧
      ∀ c ∈ kept, c ∈ cs ∧ ∀ q, ¬ (b.quadrant q).contain (circles c) := by
  induction cs generalizing ch with
  | nil => exact ⟨[], ch, rfl, hch, .refl _, by simp⟩
  | cons c cs ih =>
    rcases offer_spec hins hch hn c Quadrant.all with
      ⟨q, t', -, -, hgain, hoffer⟩ | ⟨hnone, hoffer⟩
    · obtain ⟨kept, ch', hsift, hch', hperm, hkept⟩ :=
        ih (hch.update hgain.bounds hgain.wellFormed)
      refine ⟨kept, ch', by simp [sift, hoffer, hsift], hch', hperm.trans ?_, fun d hd => ?_⟩
      · exact (hgain.mergeAll_update.append_left cs).trans List.perm_middle
      · exact ⟨List.mem_cons_of_mem c (hkept d hd).1, (hkept d hd).2⟩
    · obtain ⟨kept, ch', hsift, hch', hperm, hkept⟩ := ih hch
      refine ⟨c :: kept, ch', by simp [sift, hoffer, hsift], hch', hperm.cons c, ?_⟩
      rintro d (- | ⟨-, hd⟩)
      · exact ⟨List.mem_cons_self, fun q => hnone q q.mem_all⟩
      · exact ⟨List.mem_cons_of_mem c (hkept d hd).1, (hkept d hd).2⟩

theorem place_spec (hins : Inserts circles n ins) (hn : ∀ q, (b.quadrant q).width < n)
    (hch : Quarters b ch) (hwide : 2 ≤ b.width) (cs : List ι) (c : ι) :
    ∃ t', place ins b ((cs ++ mergeAll ch).length + 1) cs ch c = some (true, t') ∧
      t'.WellFormed ∧ t'.bounds = b ∧ t'.merge.Perm (c :: (cs ++ mergeAll ch)) := by
  rcases offer_spec hins hch hn c Quadrant.all with ⟨q, t', -, -, hgain, hoffer⟩ | ⟨-, hoffer⟩
  · have hmerge : (cs ++ mergeAll (Function.update ch q t')).Perm (c :: (cs ++ mergeAll ch)) :=
      (hgain.mergeAll_update.append_left cs).trans List.perm_middle
    refine ⟨_, by rw [place, hoffer]; rfl, wellFormed_inner.mpr ⟨?_, hwide, ?_⟩, rfl, hmerge⟩
    · rw [hmerge.length_eq]
      simp
    · exact hch.update hgain.bounds hgain.wellFormed
  · have hmerge : (cs ++ [c] ++ mergeAll ch).Perm (c :: (cs ++ mergeAll ch)) := by
      rw [List.append_assoc]
      exact List.perm_middle
    refine ⟨_, by rw [place, hoffer]; rfl, wellFormed_inner.mpr ⟨?_, hwide, hch⟩, rfl, hmerge⟩
    rw [hmerge.length_eq]
    simp

theorem split_spec (hins : Inserts circles n ins) (hn : ∀ q, (b.quadrant q).width < n)
    (cs : List ι) :
    ∃ kept ch, split ins b cs = some (kept, ch) ∧ Quarters b ch ∧
      (kept ++ mergeAll ch).Perm cs := by
  obtain ⟨kept, ch, hsift, hch, hperm, -⟩ := sift_spec hins hn cs (quarters_leaves b)
  rw [mergeAll_leaves, List.append_nil] at hperm
  exact ⟨kept, ch, hsift, hch, hperm⟩

theorem insert_of_not_contain {sCircleLimit : ℤ} {t : Node ι} {c : ι} (hn : 0 < n)
    (h : ¬ t.bounds.contain (circles c)) :
    insert circles sCircleLimit n t c = some (false, t) := by
  cases n with
  | zero => omega
  | succ n => cases t <;> exact if_neg h

variable [IsStrictOrderedRing K]

theorem inserts (hr : ∀ c, 3 ≤ (circles c).mRadius) (sCircleLimit : ℤ) (n : ℕ) :
    Inserts circles n (insert circles sCircleLimit n) := by
  induction n with
  | zero => exact fun t c _ h => absurd h (Nat.not_lt_zero _)
  | succ n ih =>
    intro t c hwf hwidth
    refine ⟨fun hc => ?_, insert_of_not_contain n.succ_pos⟩
    have hwide := hc.two_le_width (hr c)
    have hn : ∀ q, (t.bounds.quadrant q).width < n :=
      fun q => (Bounds.width_quadrant_lt q hwide).trans_le (Nat.lt_succ_iff.mp hwidth)
    cases t with
    | leaf b num cs =>
      obtain rfl := wellFormed_leaf.mp hwf
      rw [insert, if_pos hc]
      dsimp only
      split_ifs with hlimit
      · refine ⟨_, rfl, wellFormed_leaf.mpr (by simp), rfl, ?_⟩
        exact List.perm_append_singleton c cs
      · obtain ⟨kept, ch, hsplit, hch, hperm⟩ := split_spec (b := b) ih hn cs
        obtain ⟨t', hplace, hwf', hb, hmerge⟩ := place_spec (b := b) ih hn hch hwide kept c
        rw [hperm.length_eq] at hplace
        exact ⟨t', by rw [hsplit]; exact hplace, hwf', hb, hmerge.trans (hperm.cons c)⟩
    | inner b num cs ch =>
      obtain ⟨rfl, -, hch⟩ := wellFormed_inner.mp hwf
      obtain ⟨t', hplace, hwf', hb, hmerge⟩ := place_spec ih hn hch hwide cs c
      rw [insert, if_pos hc]
      exact ⟨t', hplace, hwf', hb, hmerge⟩

end Node

namespace World

variable [DecidableEq ι] {impulse : List (Collision ι K) → Circle K → Circle K → Impulse K}
  {radius : ι → K} {w : World ι K}

/-- No operation changes the radius of a circle. -/
def Radii (radius : ι → K) (w : World ι K) : Prop :=
  ∀ c, (w.circles c).mRadius = radius c

theorem meet_mRadius (p : ι × ι) (c : ι) :
    ((w.meet impulse p).circles c).mRadius = (w.circles c).mRadius := by
  rw [meet]
  split_ifs with hcheck
  · simp only [collide, Function.update_apply]
    split_ifs with h2 h1
    · rw [h2]; rfl
    · rw [h1]; rfl
    · rfl
  · rfl

theorem Radii.foldl_meet (h : w.Radii radius) (l : List (ι × ι)) :
    (l.foldl (World.meet impulse) w).Radii radius := by
  induction l generalizing w with
  | nil => exact h
  | cons p l ih => exact ih fun c => (meet_mRadius p c).trans (h c)

variable (impulse) in
theorem Radii.meetAll (h : w.Radii radius) (cs parents : List ι) :
    (w.meetAll impulse cs parents).Radii radius :=
  ((h.foldl_meet _).foldl_meet _).foldl_meet _

theorem Radii.collideWalls (h : w.Radii radius) (restitution x1 x2 y1 y2 : K) (c : ι) :
    (w.collideWalls restitution x1 x2 y1 y2 c).Radii radius := by
  intro c'
  simp only [World.collideWalls, Function.update_apply]
  split_ifs with hc
  · rw [hc]
    exact h c
  · exact h c'

end World

namespace Node

variable [DecidableEq ι] {impulse : List (Collision ι K) → Circle K → Circle K → Impulse K}
  {radius : ι → K} {w : World ι K} {sCircleLimit : ℤ}

/-- `update` leaves a well-formed node, and hands back the circles it lost. -/
structure Updated (radius : ι → K) (t : Node ι) (r : World ι K × Node ι × List ι) : Prop where
  radii : r.1.Radii radius
  wellFormed : r.2.1.WellFormed
  bounds : r.2.1.bounds = t.bounds
  perm : (r.2.1.merge ++ r.2.2).Perm t.merge

def Updates (radius : ι → K) (n : ℕ)
    (update : World ι K → Node ι → List ι → Option (World ι K × Node ι × List ι)) : Prop :=
  ∀ w t parents, w.Radii radius → t.WellFormed → t.bounds.width < n →
    ∃ r, update w t parents = some r ∧ Updated radius t r

/-- The circles a frame knows of. -/
def Frame.all (f : Frame ι K) : List ι :=
  f.mCircles ++ mergeAll f.mChildren ++ f.outOfBoundsCircles

omit [DecidableEq ι] in
theorem partition_spec {p : ι → Bool} {l l₁ l₂ : List ι} (h : l.partition p = (l₁, l₂)) :
    (l₁ ++ l₂).Perm l ∧ ∀ c ∈ l₁, p c := by
  rw [List.partition_eq_filter_filter] at h
  obtain ⟨rfl, rfl⟩ := Prod.mk.inj h
  exact ⟨List.filter_append_perm p l, fun c hc => (List.mem_filter.mp hc).2⟩

theorem updateChildren_spec {upd : World ι K → Node ι → List ι → Option (World ι K × Node ι × List ι)}
    (hupd : Updates radius n upd) (hn : ∀ q, (b.quadrant q).width < n) (parents : List ι)
    (qs : List Quadrant) {f : Frame ι K} (hf : f.world.Radii radius)
    (hch : Quarters b f.mChildren) :
    ∃ f', updateChildren upd b parents qs f = some f' ∧ f'.world.Radii radius ∧
      Quarters b f'.mChildren ∧ f'.all.Perm f.all := by
  induction qs generalizing f with
  | nil => exact ⟨f, rfl, hf, hch, .refl _⟩
  | cons q qs ih =>
    obtain ⟨hb, hwf⟩ := hch q
    obtain ⟨⟨w, child, outs⟩, hr, hw, hwf', hb', hperm⟩ :=
      hupd f.world (f.mChildren q) parents hf hwf (hb ▸ hn q)
    obtain ⟨stay, leave, hp⟩ : ∃ stay leave,
      outs.partition (fun c => decide (b.contain (w.circles c))) = (stay, leave) := ⟨_, _, rfl⟩
    obtain ⟨f', hf', hw', hch', hall⟩ :=
      ih (f := ⟨w, Function.update f.mChildren q child, f.mCircles ++ stay,
        f.outOfBoundsCircles ++ leave⟩) hw (hch.update hb' hwf')
    refine ⟨f', (updateChildren_cons hr hp).trans hf', hw', hch', hall.trans ?_⟩
    have hmerge : (mergeAll (Function.update f.mChildren q child) ++ outs).Perm
        ([] ++ mergeAll f.mChildren) := mergeAll_update hperm
    have hparts := (partition_spec hp).1
    rw [List.perm_iff_count] at hmerge hparts ⊢
    intro c
    have hm := hmerge c
    have hp := hparts c
    simp only [Frame.all, List.count_append, List.nil_append] at hm hp ⊢
    omega

variable [IsStrictOrderedRing K]

theorem update_leaf (hr : ∀ c, 3 ≤ radius c) (hlimit : 0 < sCircleLimit) (hw : w.Radii radius)
    (hwidth : b.width < n + 1) (cs parents : List ι) :
    ∃ r, update impulse sCircleLimit (n + 1) w (.leaf b cs.length cs) parents = some r ∧
      Updated radius (.leaf b cs.length cs) r := by
  obtain ⟨stay, outs, hp⟩ : ∃ stay outs,
    cs.partition (fun c => decide (b.contain (w.circles c))) = (stay, outs) := ⟨_, _, rfl⟩
  obtain ⟨hparts, hstay⟩ := partition_spec hp
  have hlen := hparts.length_eq
  rw [List.length_append] at hlen
  have hw' := hw.meetAll impulse stay parents
  rw [update_leaf_eq hp]
  split_ifs with hmany
  · -- some circle is inside the leaf, so the leaf is wide enough to be halved
    obtain ⟨c, hc⟩ : ∃ c, c ∈ stay := List.exists_mem_of_length_pos (by omega)
    have hwide := (of_decide_eq_true (hstay c hc)).two_le_width ((hr c).trans_eq (hw c).symm)
    have hn : ∀ q, (b.quadrant q).width < n :=
      fun q => (Bounds.width_quadrant_lt q hwide).trans_le (Nat.lt_succ_iff.mp hwidth)
    obtain ⟨kept, ch, hsplit, hch, hperm⟩ :=
      split_spec (inserts (fun c => (hr c).trans_eq (hw' c).symm) sCircleLimit n) hn stay
    refine ⟨_, by rw [hsplit]; rfl, hw', wellFormed_inner.mpr ⟨?_, hwide, hch⟩, rfl, ?_⟩
    · rw [hperm.length_eq]
      omega
    · exact (hperm.append_right outs).trans hparts
  · exact ⟨_, rfl, hw', wellFormed_leaf.mpr (by omega), rfl, hparts⟩

theorem update_inner {ch : Quadrant → Node ι} (hr : ∀ c, 3 ≤ radius c) (hw : w.Radii radius)
    (hupd : Updates radius n (update impulse sCircleLimit n)) (hwide : 2 ≤ b.width)
    (hch : Quarters b ch) (hwidth : b.width < n + 1) (cs parents : List ι) :
    ∃ r, update impulse sCircleLimit (n + 1) w
        (.inner b (cs ++ mergeAll ch).length cs ch) parents = some r ∧
      Updated radius (.inner b (cs ++ mergeAll ch).length cs ch) r := by
  have hn : ∀ q, (b.quadrant q).width < n :=
    fun q => (Bounds.width_quadrant_lt q hwide).trans_le (Nat.lt_succ_iff.mp hwidth)
  obtain ⟨stay, outs, hp⟩ : ∃ stay outs,
    cs.partition (fun c => decide (b.contain (w.circles c))) = (stay, outs) := ⟨_, _, rfl⟩
  obtain ⟨hparts, hstay⟩ := partition_spec hp
  obtain ⟨kept, ch', hsift, hch', hkept, -⟩ :=
    sift_spec (inserts (fun c => (hr c).trans_eq (hw c).symm) sCircleLimit n) hn stay hch
  obtain ⟨f, hf, hwf, hchf, hall⟩ :=
    updateChildren_spec hupd hn (parents ++ kept) Quadrant.all
      (f := ⟨w, ch', kept, outs⟩) hw hch'
  have hperm : (f.mCircles ++ mergeAll f.mChildren ++ f.outOfBoundsCircles).Perm
      (cs ++ mergeAll ch) := by
    refine hall.trans ?_
    rw [List.perm_iff_count] at hkept hparts ⊢
    intro c
    have hk := hkept c
    have hp := hparts c
    simp only [Frame.all, List.count_append] at hk hp ⊢
    omega
  have hlen := hperm.length_eq
  rw [List.length_append] at hlen
  have hw' := hwf.meetAll impulse f.mCircles (parents ++ kept)
  refine ⟨_, update_inner_eq hp hsift hf, hw', ?_, ?_, ?_⟩
  · dsimp only
    split_ifs
    · exact wellFormed_leaf.mpr (by rw [merge_inner]; omega)
    · exact wellFormed_inner.mpr ⟨by omega, hwide, hchf⟩
  · dsimp only
    split_ifs <;> rfl
  · dsimp only
    split_ifs <;> exact hperm

theorem update_spec (hr : ∀ c, 3 ≤ radius c) (hlimit : 0 < sCircleLimit) (n : ℕ) :
    Updates radius n (update impulse sCircleLimit n) := by
  induction n with
  | zero => exact fun _ t _ _ _ h => absurd h (Nat.not_lt_zero _)
  | succ n ih =>
    intro w t parents hw hwf hwidth
    cases t with
    | leaf b num cs =>
      obtain rfl := wellFormed_leaf.mp hwf
      exact update_leaf hr hlimit hw hwidth cs parents
    | inner b num cs ch =>
      obtain ⟨rfl, hwide, hch⟩ := wellFormed_inner.mp hwf
      exact update_inner hr hw ih hwide hch hwidth cs parents

end Node

namespace Window

variable [DecidableEq ι] [IsStrictOrderedRing K] {g : Window ι K} {radius : ι → K}

/-- The circles are as large as the program makes them, and fit between the walls. -/
structure Suits (g : Window ι K) (radius : ι → K) : Prop where
  three_le : ∀ c, 3 ≤ radius c
  width : ∀ c, 2 * radius c + Circle.epsilon ≤ g.width
  height : ∀ c, 2 * radius c + Circle.epsilon ≤ g.height

omit [DecidableEq ι] in
theorem Suits.contain (h : g.Suits radius) {c : ι} {circle : Circle K}
    (hc : circle.mRadius = radius c) :
    g.bounds.contain (circle.collideWalls g.restitution 0 g.width 0 g.height) := by
  have hx : 2 * circle.mRadius + Circle.epsilon ≤ (g.width : K) - 0 := by
    rw [hc, sub_zero]
    exact h.width c
  have hy : 2 * circle.mRadius + Circle.epsilon ≤ (g.height : K) - 0 := by
    rw [hc, sub_zero]
    exact h.height c
  simpa [Bounds.contain, bounds] using circle.collideWalls_inside hx hy

/-- Every circle that left the window is put back into the tree. -/
theorem putBack_spec (hg : g.Suits radius) (sCircleLimit : ℤ) {n : ℕ} (hn : g.bounds.width < n)
    (outs : List ι) {w : World ι K} {root : Node ι} (hw : w.Radii radius)
    (hwf : root.WellFormed) (hb : root.bounds = g.bounds) :
    ∃ w' root', g.putBack sCircleLimit n w root outs = some (w', root') ∧ w'.Radii radius ∧
      root'.WellFormed ∧ root'.bounds = g.bounds ∧ root'.merge.Perm (outs ++ root.merge) := by
  induction outs generalizing w root with
  | nil => exact ⟨w, root, rfl, hw, hwf, hb, .refl _⟩
  | cons c outs ih =>
    have hw' := hw.collideWalls g.restitution 0 g.width 0 g.height c
    have hinside : root.bounds.contain
        ((w.collideWalls g.restitution 0 g.width 0 g.height c).circles c) := by
      rw [hb, World.circles_collideWalls_self]
      exact hg.contain (hw c)
    obtain ⟨root', hinsert, hgain⟩ :=
      (Node.inserts (fun c => (hg.three_le c).trans_eq (hw' c).symm) sCircleLimit n root c hwf
        (hb ▸ hn)).1 hinside
    obtain ⟨w'', root'', hback, hrest⟩ := ih hw' hgain.wellFormed (hgain.bounds.trans hb)
    refine ⟨w'', root'', ?_, hrest.1, hrest.2.1, hrest.2.2.1, hrest.2.2.2.trans ?_⟩
    · simp only [putBack, hinsert, Option.bind_eq_bind, Option.bind_some, hback]
    · exact (hgain.perm.append_left outs).trans List.perm_middle

/-- The tree is in order and holds the circles that were inserted. -/
structure Conserves (g : Window ι K) (radius : ι → K) (s : Quadtree ι K) : Prop where
  radii : s.world.Radii radius
  wellFormed : s.mRoot.WellFormed
  bounds : s.mRoot.bounds = g.bounds
  perm : s.mRoot.merge.Perm s.mCircles
  limit : 5 ≤ s.sCircleLimit

/-- The circle limit is set to what the slider gives. -/
def Permitted : Action ι K → Prop
  | .setCircleLimit circleLimit => 5 ≤ circleLimit
  | _ => True

theorem Conserves.step (hg : g.Suits radius) {n : ℕ} (hn : g.bounds.width < n)
    {s : Quadtree ι K} (h : g.Conserves radius s) {e : Action ι K} (he : Permitted e) :
    ∃ t, (g.machine n).step s e = some t ∧ g.Conserves radius t := by
  have hr : ∀ c, 3 ≤ (s.world.circles c).mRadius :=
    fun c => (hg.three_le c).trans_eq (h.radii c).symm
  have hlimit : 0 < s.sCircleLimit := by
    have hlimit := h.limit
    omega
  cases e with
  | insert c =>
    obtain ⟨hyes, hno⟩ :=
      Node.inserts hr s.sCircleLimit n s.mRoot c h.wellFormed (h.bounds ▸ hn)
    by_cases hc : s.mRoot.bounds.contain (s.world.circles c)
    · obtain ⟨root, hinsert, hgain⟩ := hyes hc
      refine ⟨{ s with mRoot := root, mCircles := s.mCircles ++ [c] }, ?_, h.radii,
        hgain.wellFormed, hgain.bounds.trans h.bounds, ?_, h.limit⟩
      · simp only [machine, hinsert, Option.bind_eq_bind, Option.bind_some, if_true]
      · exact (hgain.perm.trans (h.perm.cons c)).trans (List.perm_append_singleton c _).symm
    · refine ⟨s, ?_, h⟩
      simp only [machine, hno hc, Option.bind_eq_bind, Option.bind_some, Bool.false_eq_true,
        if_false]
  | move place => exact ⟨_, rfl, h.radii, h.wellFormed, h.bounds, h.perm, h.limit⟩
  | setCircleLimit circleLimit =>
    exact ⟨_, rfl, h.radii, h.wellFormed, h.bounds, h.perm, he⟩
  | update =>
    obtain ⟨⟨w, root, outs⟩, hupdate, hw, hwf, hb, hperm⟩ :=
      (Node.update_spec hg.three_le hlimit n : Node.Updates _ n (Node.update g.impulse _ n))
        s.world s.mRoot [] h.radii h.wellFormed (h.bounds ▸ hn)
    obtain ⟨w', root', hback, hw', hwf', hb', hperm'⟩ :=
      putBack_spec hg s.sCircleLimit hn outs hw hwf (hb.trans h.bounds)
    refine ⟨{ s with world := w', mRoot := root' }, ?_, hw', hwf', hb', ?_, h.limit⟩
    · simp only [machine, update, hupdate, hback, Option.bind_eq_bind, Option.bind_some]
    · exact ((hperm'.trans List.perm_append_comm).trans hperm).trans h.perm

theorem Conserves.run (hg : g.Suits radius) {n : ℕ} (hn : g.bounds.width < n)
    {s t : Quadtree ι K} {es : List (Action ι K)} (h : g.Conserves radius s)
    (hrun : (g.machine n).Run (fun _ => Permitted) s es t) : g.Conserves radius t := by
  induction hrun with
  | nil => exact h
  | cons he hstep _ ih =>
    obtain ⟨t, ht, hnext⟩ := h.step hg hn he
    obtain rfl := Option.some.inj (hstep.symm.trans ht)
    exact ih hnext

omit [Field K] [LinearOrder K] [DecidableEq ι] [IsStrictOrderedRing K] in
theorem conserves_start {circles : ι → Circle K} :
    g.Conserves (fun c => (circles c).mRadius) (g.start circles) :=
  ⟨fun _ => rfl, Node.wellFormed_leaf.mpr rfl, rfl, .refl _, (by norm_num : (5 : ℤ) ≤ 20)⟩

/-- In every run the tree holds the circles whose insertion succeeded, each as
often as it was inserted, every node counts the circles below it, and the next
operation returns. -/
theorem run_conserves {circles : ι → Circle K} {n : ℕ} {es : List (Action ι K)}
    {s : Quadtree ι K} (hg : g.Suits fun c => (circles c).mRadius) (hn : g.width < n)
    (h : (g.machine n).Run (fun _ => Permitted) (g.start circles) es s) :
    s.mRoot.Counted ∧ s.mRoot.merge.Perm s.mCircles ∧
      (s.mCircles.Nodup → ∀ c ∈ s.mCircles, s.mRoot.merge.count c = 1) ∧
      ∀ e, Permitted e → ∃ t, (g.machine n).step s e = some t := by
  have hwidth : g.bounds.width < n := by
    have h0 := g.width_nonneg
    simp only [bounds, Bounds.width]
    omega
  have hs := conserves_start.run hg hwidth h
  refine ⟨hs.wellFormed.counted, hs.perm, ?_, ?_⟩
  · intro hnodup c hc
    rw [hs.perm.count_eq]
    exact List.count_eq_one_of_mem hnodup hc
  · intro e he
    obtain ⟨t, ht, -⟩ := hs.step hg hwidth he
    exact ⟨t, ht⟩

/-- A row of circles, five of which fit into a window of 100 by 100. -/
def row (c : ℕ) : Circle ℚ := ⟨⟨10 + 18 * c, 20⟩, ⟨0, 0⟩, 3⟩

def rowWindow : Window ℕ ℚ :=
  ⟨100, 100, by decide, by decide, 1, fun _ _ _ => ⟨⟨0, 0⟩, ⟨0, 0⟩, ⟨0, 0⟩, ⟨0, 0⟩⟩⟩

/-- The third circle comes to lie across the middle, the fourth one beside it. -/
def shift (c : ℕ) : Vec2 ℚ × Vec2 ℚ :=
  (⟨if c = 2 then 52 else if c = 3 then 55 else 10 + 18 * c, 20⟩, ⟨0, 0⟩)

def rowScript : List (Action ℕ ℚ) :=
  [.setCircleLimit 5, .insert 0, .insert 1, .insert 2, .insert 3, .insert 4, .move shift]

theorem row_suits : rowWindow.Suits fun c => (row c).mRadius :=
  ⟨fun _ => le_refl _, fun _ => by norm_num [rowWindow, row, Circle.epsilon],
    fun _ => by norm_num [rowWindow, row, Circle.epsilon]⟩

instance : DecidablePred (Permitted (ι := ι) (K := K))
  | .setCircleLimit circleLimit => inferInstanceAs (Decidable (5 ≤ circleLimit))
  | .insert _ => isTrue trivial
  | .move _ => isTrue trivial
  | .update => isTrue trivial

theorem run_conserves_row : ∃ s,
    (rowWindow.machine 101).exec (rowWindow.start row) (rowScript ++ [.update]) = some s ∧
      s.mRoot.Counted ∧ s.mRoot.merge.Perm s.mCircles ∧
      (s.mCircles.Nodup → ∀ c ∈ s.mCircles, s.mRoot.merge.count c = 1) ∧
      ∀ e, Permitted e → ∃ t, (rowWindow.machine 101).step s e = some t := by
  obtain ⟨s, hs⟩ := Option.isSome_iff_exists.mp
    (by decide +kernel : ((rowWindow.machine 101).execWhile (fun _ => Permitted)
      (rowWindow.start row) (rowScript ++ [.update])).isSome = true)
  have hrun := Lib.Machine.run_iff_execWhile.mpr hs
  exact ⟨s, Lib.Machine.run_iff_exec.mp (hrun.mono fun _ _ _ => trivial),
    run_conserves row_suits (by decide) hrun⟩

end Window

end Course.VisualQuadtree
