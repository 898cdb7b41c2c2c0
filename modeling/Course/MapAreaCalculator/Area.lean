import Course.MapAreaCalculator.ConflictRuns
import Course.MapAreaCalculator.Segments

/-! When `calcArea` accepts a polygon. Though `push` can lose conflicts, it never loses the last
one; but edges that only touch along their direction are never found. -/

open Course.Lib

namespace Course.MapAreaCalculator

variable {p : ℕ → Point} {vs : List Point} {i j k last : ℕ}

theorem edgeConflicts_ne_nil_iff : edgeConflicts p (j + 1) ≠ [] ↔
    ∃ i, i + 2 ≤ j ∧ Intersect (p i) (p (i + 1)) (p j) (p (j + 1)) := by
  rw [edgeConflicts, conflicts, ne_eq, List.map_eq_nil_iff, List.filter_eq_nil_iff]
  simp only [List.mem_range, decide_eq_true_eq, Nat.add_sub_cancel]
  push Not
  refine exists_congr fun i => and_congr_left fun _ => ?_
  omega

theorem closingConflicts_ne_nil_iff : closingConflicts p last ≠ [] ↔
    ∃ i, 1 ≤ i ∧ i + 2 ≤ last ∧ Intersect (p i) (p (i + 1)) (p last) (p 0) := by
  rw [closingConflicts, conflicts, ne_eq, List.map_eq_nil_iff, List.filter_eq_nil_iff]
  simp only [List.mem_range'_1, decide_eq_true_eq]
  push Not
  refine exists_congr fun i => ?_
  rw [← and_assoc]
  refine and_congr_left fun _ => ?_
  omega

/-- The edge was popped with the closing edge of an earlier polygon. -/
def Lost (p : ℕ → Point) (last k : ℕ) : Prop :=
  p k = p 0 ∧ ∃ m, k ≤ m ∧ m < last ∧ p m = p (k - 1)

/-- The walk along the edges, seen from the line of the last edge with an entry. -/
theorem returns_of_last {j m : ℕ} (hdistinct : p j ≠ p (j + 1)) (hhome : p (j + 1) = p 0)
    (hagain : p m = p j) (hjm : j + 1 ≤ m) (hm : m ≤ last)
    (hlate : ∀ k ≤ last, j + 1 < k → edgeConflicts p k = [])
    (hearly : ∀ k ≤ j + 1, edgeConflicts p k ≠ [] → p k = p 0) :
    (lineWalk (p 0) (p j) p).Returns j m last := by
  have hob : p 0 ≠ p j := fun heq => hdistinct (heq.symm.trans hhome.symm)
  exact
    { start := side_left
      home := ⟨(congrArg (side (p 0) (p j)) hhome).trans side_left,
        congrArg (along (p 0) (p j)) hhome⟩
      away := side_right
      lt := along_left.trans_lt (along_right_pos hob)
      again := ⟨(congrArg (side (p 0) (p j)) hagain).trans side_right,
        congrArg (along (p 0) (p j)) hagain⟩
      first := by
        refine lt_of_le_of_ne hjm fun heq => hdistinct ?_
        rw [heq, hagain]
      bound := hm
      late := by
        intro i j' hj' hlt hij
        have hnil := hlate (j' + 1) hlt (by omega)
        have hno := fun hmeet => edgeConflicts_ne_nil_iff.mpr ⟨i, hij, hmeet⟩ hnil
        exact ⟨fun hhit => hno (intersect_comm.mp (intersect_of_hits hob hhit)),
          fun hhit => hno (intersect_of_hits hob hhit)⟩
      early := by
        intro j' htwo hlt hhit
        have hmeet := intersect_comm.mp (intersect_of_hits hob hhit)
        have hhome' := hearly (j' + 1) (by omega)
          (edgeConflicts_ne_nil_iff.mpr ⟨0, by omega, hmeet⟩)
        exact congrArg (along (p 0) (p j)) hhome' }

/-- The last edge with conflicts cannot be lost: what it runs over, the closing edge would run
over as well. -/
theorem edgeConflicts_eq_nil (hclosing : closingConflicts p last = [])
    (hlost : ∀ k ≤ last, edgeConflicts p k ≠ [] → Lost p last k) :
    ∀ k ≤ last, edgeConflicts p k = [] := by
  by_contra hexists
  push Not at hexists
  obtain ⟨k₀, hk₀, hne₀⟩ := hexists
  obtain ⟨k, hk⟩ : ∃ k, k = Nat.findGreatest (fun k => edgeConflicts p k ≠ []) last := ⟨_, rfl⟩
  have hne : edgeConflicts p k ≠ [] :=
    hk ▸ Nat.findGreatest_spec (P := fun k => edgeConflicts p k ≠ []) hk₀ hne₀
  have hlast : k ≤ last := hk ▸ Nat.findGreatest_le last
  have hlate : ∀ k' ≤ last, k < k' → edgeConflicts p k' = [] := fun k' hk' hlt =>
    not_not.mp (Nat.findGreatest_is_greatest (hk ▸ hlt) hk')
  obtain ⟨j, rfl⟩ : ∃ j, k = j + 1 :=
    ⟨k - 1, by by_contra h; exact hne (edgeConflicts_of_le (by omega))⟩
  obtain ⟨hhome, m, hkm, hm, hagain⟩ := hlost _ hlast hne
  obtain ⟨i, hi, hmeet⟩ := edgeConflicts_ne_nil_iff.mp hne
  rw [Nat.add_sub_cancel] at hagain
  have hdistinct : p j ≠ p (j + 1) := by
    intro heq
    refine hmeet.1 ?_
    rw [heq]
    ring
  have hob : p 0 ≠ p j := fun heq => hdistinct (heq.symm.trans hhome.symm)
  have hreturns := returns_of_last hdistinct hhome hagain hkm hm.le hlate
    fun k' hk' hne' => (hlost k' (hk'.trans hlast) hne').1
  have hhit := hits_of_intersect hob side_right
    ((congrArg (side (p 0) (p j)) hhome).trans side_left) hdistinct (intersect_comm.mp hmeet)
  obtain ⟨i, hpos, hi, hcross, hon, hlow, hhigh⟩ := hreturns.exists_closing hi hhit
  have hcloses : Intersect (p last) (p 0) (p i) (p (i + 1)) := by
    refine (intersect_iff_of_side hob hon side_left (hlow.trans_lt hhigh).ne').mpr ⟨hcross, ?_⟩
    exact Set.mem_uIcc.mpr (.inr ⟨hlow, hhigh.le⟩)
  exact closingConflicts_ne_nil_iff.mpr ⟨i, hpos, by omega, intersect_comm.mp hcloses⟩ hclosing

namespace Polygon

/-! ### Pushes into an empty polygon -/

/-- What pushes leave in the list: what they lost of the path were edges that came back to the
first vertex. -/
structure Kept (s : Polygon) (cs : List Conflict) : Prop where
  select : s.mSelectScale = false
  sub : cs.Sublist (pathConflicts (vertex s.mVertices) (s.mVertices.length - 1))
  eq : s.mConflicts = cs ++ closingConflicts (vertex s.mVertices) (s.mVertices.length - 1)
  lost : ∀ k ≤ s.mVertices.length - 1, ∀ c ∈ edgeConflicts (vertex s.mVertices) k,
    c ∈ cs ∨ Lost (vertex s.mVertices) (s.mVertices.length - 1) k

theorem Kept.push {s : Polygon} {cs : List Conflict} (h : s.Kept cs) (x y : ℤ) :
    ∃ cs', (s.push x y).Kept cs' := by
  have hlen := length_push (x := x) (y := y) h.select
  have hlast : (s.push x y).mVertices.length - 1 = s.mVertices.length := by
    rw [hlen, Nat.add_sub_cancel]
  have hvertex : ∀ i < s.mVertices.length,
      vertex s.mVertices i = vertex (s.push x y).mVertices i := by
    intro i hi
    rw [push_mVertices h.select, vertex_append hi]
  have hnil : s.mVertices.length ≤ 2 → cs = [] := by
    intro hfew
    have hsub := h.sub
    rw [pathConflicts_of_le (by omega)] at hsub
    exact List.sublist_nil.mp hsub
  refine ⟨popConflicts (vertex s.mVertices (s.mVertices.length - 1)) (vertex s.mVertices 0) cs ++
    edgeConflicts (vertex (s.push x y).mVertices) s.mVertices.length,
    push_mSelectScale h.select x y, ?_, ?_, ?_⟩
  · rw [hlast, pathConflicts_push h.select]
    exact ((popConflicts_initial _ _ cs).sublist.trans h.sub).append (.refl _)
  · rw [hlast]
    exact push_mConflicts h.select h.eq hnil
  · rw [hlast]
    intro k hk c hc
    rcases hk.lt_or_eq with hlt | rfl
    · have hcong : edgeConflicts (vertex s.mVertices) k =
          edgeConflicts (vertex (s.push x y).mVertices) k :=
        edgeConflicts_congr fun i hi => hvertex i (by omega)
      rw [← hcong] at hc
      rcases h.lost k (by omega) c hc with hmem | ⟨hhome, m, hkm, hm, hagain⟩
      · rcases mem_popConflicts (vertex s.mVertices (s.mVertices.length - 1))
          (vertex s.mVertices 0) hmem with hmem | ⟨h1, h2⟩
        · exact .inl (List.mem_append_left _ hmem)
        · obtain ⟨h1', h2'⟩ := endsIn_of_mem hc
          refine .inr ⟨?_, s.mVertices.length - 1, by omega, by omega, ?_⟩
          · rw [← hvertex k hlt, ← hvertex 0 (by omega), ← h2', h2]
          · rw [← hvertex _ (by omega), ← hvertex (k - 1) (by omega), ← h1', h1]
      · refine .inr ⟨?_, m, hkm, by omega, ?_⟩
        · rw [← hvertex k hlt, ← hvertex 0 (by omega), hhome]
        · rw [← hvertex m (by omega), ← hvertex (k - 1) (by omega), hagain]
    · exact .inl (List.mem_append_right _ hc)

theorem pushAll_concat (s : Polygon) (vs : List Point) (v : Point) :
    s.pushAll (vs ++ [v]) = (s.pushAll vs).push v.x v.y :=
  List.foldl_concat ..

theorem kept_pushAll (vs : List Point) :
    (init.pushAll vs).mVertices = vs ∧ ∃ cs, (init.pushAll vs).Kept cs := by
  induction vs using List.reverseRecOn with
  | nil =>
    refine ⟨rfl, [], rfl, .slnil, rfl, fun k hk c hc => ?_⟩
    obtain rfl : k = 0 := Nat.le_zero.mp hk
    exact absurd hc List.not_mem_nil
  | append_singleton vs v ih =>
    obtain ⟨hvs, cs, hkept⟩ := ih
    rw [pushAll_concat]
    refine ⟨?_, hkept.push v.x v.y⟩
    rw [push_mVertices hkept.select, hvs]

/-- The list is empty only if no two edges meet. -/
theorem mConflicts_pushAll_eq_nil_iff (hne : vs ≠ []) :
    (init.pushAll vs).mConflicts = [] ↔ allConflicts vs = [] := by
  obtain ⟨hvs, cs, hkept⟩ := kept_pushAll vs
  obtain ⟨-, hsub, heq, hlost⟩ := hkept
  rw [hvs] at hsub heq hlost
  rw [heq, allConflicts_eq hne, List.append_eq_nil_iff,
    List.append_eq_nil_iff]
  refine and_congr_left fun hclosing => ⟨fun hnil => ?_, fun hnil => ?_⟩
  · have hedges := edgeConflicts_eq_nil hclosing fun k hk hedge => by
      obtain ⟨c, hc⟩ := List.exists_mem_of_ne_nil _ hedge
      refine (hlost k hk c hc).resolve_left fun hmem => ?_
      rw [hnil] at hmem
      exact absurd hmem List.not_mem_nil
    rw [pathConflicts_eq, List.flatMap_eq_nil_iff]
    intro j hj
    exact hedges (j + 1) (List.mem_range.mp hj)
  · rw [hnil] at hsub
    exact List.sublist_nil.mp hsub

/-! ### The decision -/

/-- Two edges of the closed polygon have a point in common. -/
def EdgesShare (vs : List Point) (i j : ℕ) : Prop :=
  SharePoint (vertex vs i) (vertex vs (i + 1)) (vertex vs j) (vertex vs ((j + 1) % vs.length))

/-- Two edges of the closed polygon have the same direction, or one of them is a point. -/
def EdgesParallel (vs : List Point) (i j : ℕ) : Prop :=
  Parallel (vertex vs i) (vertex vs (i + 1)) (vertex vs j) (vertex vs ((j + 1) % vs.length))

theorem allConflicts_eq_nil_iff : allConflicts vs = [] ↔
    ∀ i j, Apart vs.length i j → EdgesShare vs i j → EdgesParallel vs i j := by
  rw [allConflicts, List.filter_eq_nil_iff]
  simp only [List.forall_mem_map, Prod.forall, mem_pairs, decide_eq_true_eq]
  refine forall₂_congr fun i j => forall_congr' fun _ => ?_
  rw [Conflict.Meets, intersect_iff, not_and']
  exact forall_congr' fun _ => not_not

theorem calcArea_nonneg_iff (vs : List Point) : 0 ≤ (init.pushAll vs).calcArea ↔
    3 ≤ vs.length ∧ ∀ i j, Apart vs.length i j → EdgesShare vs i j → EdgesParallel vs i j := by
  rw [← allConflicts_eq_nil_iff, calcArea, (kept_pushAll vs).1]
  by_cases hlen : vs.length < 3
  · rw [if_pos (.inl hlen)]
    exact iff_of_false (by norm_num) fun h => absurd h.1 (Nat.not_le.mpr hlen)
  · have hne : vs ≠ [] := by
      rintro rfl
      exact hlen (by decide)
    rw [← mConflicts_pushAll_eq_nil_iff hne]
    by_cases hcs : (init.pushAll vs).mConflicts = []
    · rw [if_neg (not_or.mpr ⟨hlen, not_not.mpr hcs⟩)]
      exact iff_of_true (by positivity) ⟨Nat.not_lt.mp hlen, hcs⟩
    · rw [if_pos (.inr hcs)]
      exact iff_of_false (by norm_num) fun h => hcs h.2

/-- The area is given exactly for the polygons whose edges keep apart, and is that of the
shoelace sum. -/
structure AreaRight (vs : List Point) : Prop where
  nonneg : 0 ≤ (init.pushAll vs).calcArea ↔
    3 ≤ vs.length ∧ ∀ i j, Apart vs.length i j → ¬EdgesShare vs i j
  value : 0 ≤ (init.pushAll vs).calcArea →
    (init.pushAll vs).calcArea = |(shoelace vs : ℚ)| / 2

theorem calcArea_eq (h : 0 ≤ (init.pushAll vs).calcArea) :
    (init.pushAll vs).calcArea = |(shoelace vs : ℚ)| / 2 := by
  rw [calcArea] at h ⊢
  split at h
  · norm_num at h
  · rename_i hvalid
    rw [if_neg hvalid, (kept_pushAll vs).1]

/-- The decision is right unless all edges that touch without being adjacent have the same
direction. -/
theorem areaRight_iff (vs : List Point) : AreaRight vs ↔
    ((∃ i j, Apart vs.length i j ∧ EdgesShare vs i j) →
      ∃ i j, Apart vs.length i j ∧ EdgesShare vs i j ∧ ¬EdgesParallel vs i j) := by
  constructor
  · rintro ⟨hnonneg, -⟩ ⟨i, j, hapart, hshare⟩
    by_contra hparallel
    push Not at hparallel
    have hlen : 3 ≤ vs.length := by
      obtain ⟨hij, hj, -⟩ := hapart
      omega
    have hvalid := (calcArea_nonneg_iff vs).mpr ⟨hlen, hparallel⟩
    exact (hnonneg.mp hvalid).2 i j hapart hshare
  · intro hcond
    refine ⟨(calcArea_nonneg_iff vs).trans (and_congr_right fun _ => ?_), calcArea_eq⟩
    constructor
    · intro hparallel i j hapart hshare
      obtain ⟨i', j', hapart', hshare', hnot⟩ := hcond ⟨i, j, hapart, hshare⟩
      exact hnot (hparallel i' j' hapart' hshare')
    · exact fun hno i j hapart hshare => absurd hshare (hno i j hapart)

/-- Four vertices on a line: the first edge and the third one overlap. -/
def flat : List Point := [⟨0, 0⟩, ⟨2, 0⟩, ⟨1, 0⟩, ⟨3, 0⟩]

theorem not_areaRight_flat : ¬∀ vs, AreaRight vs := by
  intro hall
  have harea : 0 ≤ (init.pushAll flat).calcArea := by decide +kernel
  refine ((hall flat).nonneg.mp harea).2 0 2 (by decide) ?_
  refine ⟨1, 1 / 2, by norm_num, by norm_num, by norm_num, by norm_num, ?_, ?_⟩
  · norm_num [flat, vertex]
  · norm_num [flat, vertex]

end Polygon

end Course.MapAreaCalculator
