import Course.MapAreaCalculator.Polygon
import Mathlib.Data.List.GetD
import Mathlib.Data.List.Sort
import Mathlib.Tactic.IntervalCases
import Mathlib.Tactic.Ring

/-! What `push` and `pop` make of the list of conflicts, and when it stays the list of the
edges that meet. -/

open Course.Lib

namespace Course.MapAreaCalculator

/-! ### The conflicts of a closed polygon -/

/-- Edges `i` and `j` of a polygon with `n` vertices have no vertex of the list in common. -/
def Apart (n i j : ℕ) : Prop := i + 2 ≤ j ∧ j < n ∧ ¬(i = 0 ∧ j + 1 = n)

instance (n i j : ℕ) : Decidable (Apart n i j) := inferInstanceAs (Decidable (_ ∧ _ ∧ _))

/-- Every pair of edges that are not adjacent. -/
def pairs (n : ℕ) : List (ℕ × ℕ) :=
  (List.range n).flatMap fun j => ((List.range n).filter fun i => Apart n i j).map (·, j)

theorem mem_pairs {n i j : ℕ} : (i, j) ∈ pairs n ↔ Apart n i j := by
  simp only [pairs, List.mem_flatMap, List.mem_map, List.mem_filter, List.mem_range,
    decide_eq_true_eq, Prod.mk.injEq]
  constructor
  · rintro ⟨j', -, i', ⟨-, hapart⟩, rfl, rfl⟩
    exact hapart
  · intro hapart
    obtain ⟨hij, hj, -⟩ := id hapart
    exact ⟨j, hj, i, ⟨by omega, hapart⟩, rfl, rfl⟩

/-- The conflict of two edges, the second of which may be the closing one. -/
def conflict (vs : List Point) (e : ℕ × ℕ) : Conflict :=
  ⟨vertex vs e.1, vertex vs (e.1 + 1), vertex vs e.2, vertex vs ((e.2 + 1) % vs.length)⟩

def Conflict.Meets (c : Conflict) : Prop := Intersect c.a1 c.a2 c.b1 c.b2

instance : DecidablePred Conflict.Meets := fun _ => inferInstanceAs (Decidable (Intersect ..))

/-- One entry for every two edges that are not adjacent and meet. -/
def allConflicts (vs : List Point) : List Conflict :=
  ((pairs vs.length).map (conflict vs)).filter fun c => c.Meets

/-- What the list of conflicts should be. -/
structure Polygon.Consistent (s : Polygon) : Prop where
  perm : 4 ≤ s.mVertices.length → s.mConflicts.Perm (allConflicts s.mVertices)
  nil : s.mVertices.length < 4 → s.mConflicts = []

/-! ### In the order of the pushes -/

/-- The entries of the edge that ends at a vertex, with the edges before it. -/
def edgeConflicts (p : ℕ → Point) (k : ℕ) : List Conflict :=
  conflicts p (List.range (k - 2)) (k - 1) k

/-- The entries of the closing edge. -/
def closingConflicts (p : ℕ → Point) (last : ℕ) : List Conflict :=
  conflicts p (List.range' 1 (last - 2)) last 0

/-- The entries of the edges up to a vertex. -/
def pathConflicts (p : ℕ → Point) : ℕ → List Conflict
  | 0 => []
  | k + 1 => pathConflicts p k ++ edgeConflicts p (k + 1)

variable {p p' : ℕ → Point} {vs : List Point} {v : Point} {i j k n last b1 b2 : ℕ} {c : Conflict}
  {cs : List Conflict} {is : List ℕ}

theorem mem_conflicts : c ∈ conflicts p is b1 b2 ↔
    ∃ i ∈ is, Intersect (p i) (p (i + 1)) (p b1) (p b2) ∧ c = ⟨p i, p (i + 1), p b1, p b2⟩ := by
  simp only [conflicts, List.mem_map, List.mem_filter, decide_eq_true_eq, and_assoc,
    eq_comm (a := c)]

theorem endsIn_of_mem (h : c ∈ conflicts p is b1 b2) : c.EndsIn (p b1) (p b2) := by
  obtain ⟨i, -, -, rfl⟩ := mem_conflicts.mp h
  exact ⟨rfl, rfl⟩

theorem conflicts_congr (hi : ∀ i ∈ is, p i = p' i ∧ p (i + 1) = p' (i + 1)) (h1 : p b1 = p' b1)
    (h2 : p b2 = p' b2) : conflicts p is b1 b2 = conflicts p' is b1 b2 := by
  have hfilter : (is.filter fun i => Intersect (p i) (p (i + 1)) (p b1) (p b2)) =
      is.filter fun i => Intersect (p' i) (p' (i + 1)) (p' b1) (p' b2) := by
    refine List.filter_congr fun i hmem => ?_
    rw [(hi i hmem).1, (hi i hmem).2, h1, h2]
  rw [conflicts, conflicts, hfilter]
  refine List.map_congr_left fun i hmem => ?_
  obtain ⟨h, h'⟩ := hi i (List.mem_of_mem_filter hmem)
  rw [h, h', h1, h2]

theorem edgeConflicts_congr (h : ∀ i ≤ k, p i = p' i) : edgeConflicts p k = edgeConflicts p' k := by
  refine conflicts_congr (fun i hi => ?_) (h _ (by omega)) (h k le_rfl)
  rw [List.mem_range] at hi
  exact ⟨h i (by omega), h (i + 1) (by omega)⟩

theorem closingConflicts_congr (h : ∀ i ≤ last, p i = p' i) :
    closingConflicts p last = closingConflicts p' last := by
  refine conflicts_congr (fun i hi => ?_) (h last le_rfl) (h 0 (Nat.zero_le _))
  rw [List.mem_range'_1] at hi
  exact ⟨h i (by omega), h (i + 1) (by omega)⟩

theorem pathConflicts_congr (h : ∀ i ≤ k, p i = p' i) : pathConflicts p k = pathConflicts p' k := by
  induction k with
  | zero => rfl
  | succ k ih =>
    rw [pathConflicts, pathConflicts, ih fun i hi => h i (by omega), edgeConflicts_congr h]

theorem pathConflicts_eq (p : ℕ → Point) (k : ℕ) :
    pathConflicts p k = (List.range k).flatMap fun j => edgeConflicts p (j + 1) := by
  induction k with
  | zero => rfl
  | succ k ih =>
    rw [pathConflicts, ih, List.range_succ, List.flatMap_append, List.flatMap_singleton]

theorem edgeConflicts_of_le (h : k ≤ 2) : edgeConflicts p k = [] := by
  interval_cases k <;> rfl

theorem pathConflicts_of_le (h : k ≤ 2) : pathConflicts p k = [] := by
  interval_cases k <;> rfl

theorem closingConflicts_of_le (h : last ≤ 2) : closingConflicts p last = [] := by
  interval_cases last <;> rfl

theorem vertex_append (h : i < vs.length) : vertex (vs ++ [v]) i = vertex vs i :=
  List.getD_append vs [v] _ i h

theorem vertex_dropLast (h : i < vs.length - 1) : vertex vs.dropLast i = vertex vs i := by
  rw [vertex, vertex, List.getD_eq_getElem?_getD, List.getD_eq_getElem?_getD,
    List.getElem?_dropLast, if_pos h]

/-- The edges before an edge that are apart from it. -/
theorem filter_range_apart (h : j < n) : ((List.range n).filter fun i => Apart n i j) =
    if j + 1 = n then List.range' 1 (j - 2) else List.range (j - 1) := by
  have hlt :
      (if j + 1 = n then List.range' 1 (j - 2) else List.range (j - 1)).Pairwise (· < ·) := by
    split
    · exact List.pairwise_lt_range'
    · exact List.pairwise_lt_range
  refine List.Perm.eq_of_pairwise' (List.pairwise_lt_range.filter _) hlt ?_
  refine (List.perm_ext_iff_of_nodup (List.nodup_range.filter _) (hlt.imp ne_of_lt)).mpr fun i => ?_
  rw [List.mem_filter, List.mem_range, decide_eq_true_eq, Apart]
  split
  · rw [List.mem_range'_1]
    omega
  · rw [List.mem_range]
    omega

theorem allConflicts_eq_flatMap (vs : List Point) :
    allConflicts vs = (List.range vs.length).flatMap fun j =>
      conflicts (vertex vs) ((List.range vs.length).filter fun i => Apart vs.length i j) j
        ((j + 1) % vs.length) := by
  rw [allConflicts, pairs, List.map_flatMap, List.filter_flatMap]
  refine List.flatMap_congr fun j _ => ?_
  rw [conflicts, List.map_map, List.filter_map]
  rfl

theorem allConflicts_eq (hne : vs ≠ []) : allConflicts vs =
    pathConflicts (vertex vs) (vs.length - 1) ++ closingConflicts (vertex vs) (vs.length - 1) := by
  obtain ⟨last, h⟩ := Nat.exists_eq_succ_of_ne_zero (mt List.length_eq_zero_iff.mp hne)
  rw [h, Nat.succ_eq_add_one, Nat.add_sub_cancel]
  rw [allConflicts_eq_flatMap, h, List.range_succ, List.flatMap_append, List.flatMap_singleton,
    pathConflicts_eq, ← List.range_succ]
  congr 1
  · refine List.flatMap_congr fun j hj => ?_
    rw [List.mem_range] at hj
    rw [filter_range_apart (by omega), if_neg (by omega), Nat.mod_eq_of_lt (by omega)]
    rfl
  · rw [filter_range_apart (by omega), if_pos rfl, Nat.mod_self]
    rfl

/-! ### The loops that pop -/

theorem popConflicts_concat_pos {b1 b2 : Point} (h : c.EndsIn b1 b2) (cs : List Conflict) :
    popConflicts b1 b2 (cs ++ [c]) = popConflicts b1 b2 cs := by
  rw [popConflicts, popConflicts, List.rdropWhile_concat, if_pos (decide_eq_true h)]

theorem popConflicts_concat_neg {b1 b2 : Point} (h : ¬c.EndsIn b1 b2) (cs : List Conflict) :
    popConflicts b1 b2 (cs ++ [c]) = cs ++ [c] := by
  rw [popConflicts, List.rdropWhile_concat, if_neg (by simpa using h)]

theorem popConflicts_append {l : List Conflict} {b1 b2 : Point} (h : ∀ c ∈ l, c.EndsIn b1 b2)
    (cs : List Conflict) : popConflicts b1 b2 (cs ++ l) = popConflicts b1 b2 cs := by
  induction l using List.reverseRecOn with
  | nil => rw [List.append_nil]
  | append_singleton l c ih =>
    rw [← List.append_assoc, popConflicts_concat_pos (h c (by simp))]
    exact ih fun c hc => h c (List.mem_append_left _ hc)

theorem popConflicts_closing (p : ℕ → Point) (last : ℕ) (cs : List Conflict) :
    popConflicts (p last) (p 0) (cs ++ closingConflicts p last) = popConflicts (p last) (p 0) cs :=
  popConflicts_append (fun _ => endsIn_of_mem) cs

theorem popConflicts_edge (p : ℕ → Point) (k : ℕ) (cs : List Conflict) :
    popConflicts (p (k - 1)) (p k) (cs ++ edgeConflicts p k) = popConflicts (p (k - 1)) (p k) cs :=
  popConflicts_append (fun _ => endsIn_of_mem) cs

theorem popConflicts_eq_self_iff {b1 b2 : Point} : popConflicts b1 b2 cs = cs ↔
    ∀ c ∈ cs.getLast?, ¬c.EndsIn b1 b2 := by
  rw [popConflicts, List.rdropWhile_eq_self_iff]
  simp only [decide_eq_true_eq]
  constructor
  · intro h c hc
    have hne : cs ≠ [] := by
      rintro rfl
      cases hc
    rw [List.getLast?_eq_some_getLast hne] at hc
    exact Option.some.inj hc ▸ h hne
  · exact fun h hne => h _ (List.getLast?_eq_some_getLast hne)

theorem popConflicts_initial (b1 b2 : Point) (cs : List Conflict) : popConflicts b1 b2 cs <+: cs :=
  List.rdropWhile_prefix _ cs

theorem mem_popConflicts (b1 b2 : Point) (hc : c ∈ cs) :
    c ∈ popConflicts b1 b2 cs ∨ c.EndsIn b1 b2 := by
  induction cs using List.reverseRecOn with
  | nil => exact absurd hc List.not_mem_nil
  | append_singleton cs d ih =>
    by_cases hd : d.EndsIn b1 b2
    · rw [popConflicts_concat_pos hd]
      rcases List.mem_append.mp hc with hc | hc
      · exact ih hc
      · exact .inr (List.mem_singleton.mp hc ▸ hd)
    · rw [popConflicts_concat_neg hd]
      exact .inl hc

namespace Polygon

variable {s : Polygon} {x y : ℤ}

/-- The list of conflicts is complete, in the order of the pushes. -/
def Exact (s : Polygon) : Prop :=
  s.mConflicts = pathConflicts (vertex s.mVertices) (s.mVertices.length - 1) ++
    closingConflicts (vertex s.mVertices) (s.mVertices.length - 1)

/-- Conflicts other than those of the closing edge are missing. -/
def Short (s : Polygon) : Prop :=
  ∃ cs : List Conflict,
    cs.length < (pathConflicts (vertex s.mVertices) (s.mVertices.length - 1)).length ∧
      s.mConflicts = cs ++ closingConflicts (vertex s.mVertices) (s.mVertices.length - 1)

theorem Exact.consistent (h : s.Exact) : s.Consistent := by
  refine ⟨fun hlen => ?_, fun hlen => ?_⟩
  · rw [h, allConflicts_eq (List.ne_nil_of_length_pos (by omega))]
  · rw [h, pathConflicts_of_le (by omega), closingConflicts_of_le (by omega), List.append_nil]

theorem Short.not_consistent (h : s.Short) : ¬s.Consistent := by
  intro hs
  obtain ⟨cs, hlt, hcs⟩ := h
  have hlen : 4 ≤ s.mVertices.length := by
    by_contra hlen
    rw [pathConflicts_of_le (by omega), List.length_nil] at hlt
    exact absurd hlt (Nat.not_lt_zero _)
  have hperm := (hs.perm hlen).length_eq
  rw [hcs, allConflicts_eq (List.ne_nil_of_length_pos (by omega)), List.length_append,
    List.length_append] at hperm
  omega

/-! ### One operation -/

/-- The last conflict of the path is not popped with those of the closing edge. -/
def PushSafe (s : Polygon) : Prop :=
  s.mSelectScale = false →
    ∀ c ∈ (pathConflicts (vertex s.mVertices) (s.mVertices.length - 1)).getLast?,
      ¬c.EndsIn (vertex s.mVertices (s.mVertices.length - 1)) (vertex s.mVertices 0)

theorem push_of_selecting (h : s.mSelectScale = true) : (s.push x y).mVertices = s.mVertices ∧
    (s.push x y).mConflicts = s.mConflicts := by
  rw [push, if_pos h]
  exact ⟨rfl, rfl⟩

theorem push_mVertices (h : s.mSelectScale = false) :
    (s.push x y).mVertices = s.mVertices ++ [⟨x, y⟩] := by
  rw [push, if_neg (by simp [h])]
  dsimp only
  split <;> rfl

theorem push_mSelectScale (h : s.mSelectScale = false) (x y : ℤ) :
    (s.push x y).mSelectScale = false := by
  rw [push, if_neg (by simp [h])]
  dsimp only
  split <;> exact h

theorem push_mConflicts (h : s.mSelectScale = false) {cs : List Conflict}
    (hcs : s.mConflicts = cs ++
      closingConflicts (vertex s.mVertices) (s.mVertices.length - 1))
    (hnil : s.mVertices.length ≤ 2 → cs = []) :
    (s.push x y).mConflicts =
      popConflicts (vertex s.mVertices (s.mVertices.length - 1)) (vertex s.mVertices 0) cs ++
      edgeConflicts (vertex (s.push x y).mVertices) s.mVertices.length ++
      closingConflicts (vertex (s.push x y).mVertices) s.mVertices.length := by
  have hvs := push_mVertices (x := x) (y := y) h
  have hlen : (s.mVertices ++ [(⟨x, y⟩ : Point)]).length = s.mVertices.length + 1 :=
    List.length_append
  rw [hvs, push, if_neg (by simp [h])]
  dsimp only
  by_cases hfew : s.mVertices.length ≤ 2
  · rw [if_pos (by omega), hcs, hnil hfew, closingConflicts_of_le (by omega),
      closingConflicts_of_le hfew, edgeConflicts_of_le hfew]
    rfl
  · rw [if_neg (by omega), hlen, Nat.add_sub_cancel, vertex_append (by omega),
      vertex_append (by omega), hcs, popConflicts_closing]
    rfl

theorem pathConflicts_push (h : s.mSelectScale = false) :
    pathConflicts (vertex (s.push x y).mVertices) s.mVertices.length =
      pathConflicts (vertex s.mVertices) (s.mVertices.length - 1) ++
        edgeConflicts (vertex (s.push x y).mVertices) s.mVertices.length := by
  rw [push_mVertices h]
  cases hn : s.mVertices.length with
  | zero => rfl
  | succ n =>
    rw [pathConflicts, Nat.add_sub_cancel]
    exact congrArg (· ++ _) (pathConflicts_congr fun i hi => vertex_append (by omega))

theorem length_push (h : s.mSelectScale = false) :
    (s.push x y).mVertices.length = s.mVertices.length + 1 := by
  rw [push_mVertices h, List.length_append, List.length_singleton]

theorem Exact.push (h : s.Exact) (hsafe : s.PushSafe) : (s.push x y).Exact := by
  cases hsel : s.mSelectScale with
  | true =>
    obtain ⟨hvs, hcs⟩ := push_of_selecting (x := x) (y := y) hsel
    rw [Exact, hvs, hcs]
    exact h
  | false =>
    rw [Exact, length_push hsel, Nat.add_sub_cancel, pathConflicts_push hsel,
      push_mConflicts hsel h fun hfew => pathConflicts_of_le (by omega),
      popConflicts_eq_self_iff.mpr (hsafe hsel)]

theorem short_push {cs : List Conflict} (hsel : s.mSelectScale = false)
    (hcs : s.mConflicts = cs ++ closingConflicts (vertex s.mVertices) (s.mVertices.length - 1))
    (hle : cs.length ≤ (pathConflicts (vertex s.mVertices) (s.mVertices.length - 1)).length)
    (hlt : (popConflicts (vertex s.mVertices (s.mVertices.length - 1)) (vertex s.mVertices 0)
      cs).length < (pathConflicts (vertex s.mVertices) (s.mVertices.length - 1)).length) :
    (s.push x y).Short := by
  have hnil : s.mVertices.length ≤ 2 → cs = [] := by
    intro hfew
    rw [pathConflicts_of_le (by omega)] at hle
    exact List.length_eq_zero_iff.mp (Nat.le_zero.mp hle)
  have hpush := push_mConflicts (x := x) (y := y) hsel hcs hnil
  rw [Short, length_push hsel, Nat.add_sub_cancel, hpush, pathConflicts_push hsel]
  refine ⟨_, ?_, rfl⟩
  rw [List.length_append, List.length_append]
  exact Nat.add_lt_add_right hlt _

theorem Short.push (h : s.Short) : (s.push x y).Short := by
  obtain ⟨cs, hlt, hcs⟩ := h
  cases hsel : s.mSelectScale with
  | true =>
    obtain ⟨hvs, hcs'⟩ := push_of_selecting (x := x) (y := y) hsel
    rw [Short, hvs, hcs']
    exact ⟨cs, hlt, hcs⟩
  | false =>
    exact short_push hsel hcs hlt.le ((popConflicts_initial _ _ cs).length_le.trans_lt hlt)

theorem Exact.short_push (h : s.Exact) (hsafe : ¬s.PushSafe) : (s.push x y).Short := by
  rw [PushSafe, Classical.not_imp, ← popConflicts_eq_self_iff] at hsafe
  obtain ⟨hsel, hne⟩ := hsafe
  have hstart := popConflicts_initial (vertex s.mVertices (s.mVertices.length - 1))
    (vertex s.mVertices 0) (pathConflicts (vertex s.mVertices) (s.mVertices.length - 1))
  refine Polygon.short_push hsel h le_rfl (lt_of_le_of_ne hstart.length_le fun heq => hne ?_)
  exact hstart.eq_of_length heq

/-- The last conflict of the path without its last edge is popped neither with those of that
edge nor, where that edge has none, with those of the closing edge. -/
def PopSafe (s : Polygon) : Prop :=
  s.mSelectScale = false → 3 < s.mVertices.length →
    ∀ c ∈ (pathConflicts (vertex s.mVertices) (s.mVertices.length - 2)).getLast?,
      ¬c.EndsIn (vertex s.mVertices (s.mVertices.length - 2))
          (vertex s.mVertices (s.mVertices.length - 1)) ∧
        (edgeConflicts (vertex s.mVertices) (s.mVertices.length - 1) = [] →
          ¬c.EndsIn (vertex s.mVertices (s.mVertices.length - 1)) (vertex s.mVertices 0))

/-- The two loops of `pop` on the conflicts of the path. -/
theorem popConflicts_path (p : ℕ → Point) (k : ℕ) (cs : List Conflict) (q : Point) :
    popConflicts (p (k - 1)) (p k) (popConflicts (p k) q (cs ++ edgeConflicts p k)) <+: cs ∧
      (popConflicts (p (k - 1)) (p k) (popConflicts (p k) q (cs ++ edgeConflicts p k)) = cs ↔
        ∀ c ∈ cs.getLast?, ¬c.EndsIn (p (k - 1)) (p k) ∧
          (edgeConflicts p k = [] → ¬c.EndsIn (p k) q)) := by
  by_cases hedge : edgeConflicts p k = []
  · have hstart := popConflicts_initial (p k) q cs
    have hstart' := popConflicts_initial (p (k - 1)) (p k) (popConflicts (p k) q cs)
    rw [hedge, List.append_nil]
    refine ⟨hstart'.trans hstart, ?_⟩
    simp only [forall_const, forall_and]
    rw [← popConflicts_eq_self_iff, ← popConflicts_eq_self_iff]
    constructor
    · intro heq
      rw [heq] at hstart'
      have hself := hstart.eq_of_length_le hstart'.length_le
      rw [hself] at heq
      exact ⟨heq, hself⟩
    · rintro ⟨heq, hself⟩
      rw [hself, heq]
  · -- the entries of a nondegenerate edge do not end as those of the closing one
    have hself : popConflicts (p k) q (cs ++ edgeConflicts p k) = cs ++ edgeConflicts p k := by
      rw [popConflicts_eq_self_iff, List.getLast?_append_of_ne_nil _ hedge]
      intro c hc hends
      have hmem := List.mem_of_getLast? hc
      obtain ⟨h1, h2⟩ := endsIn_of_mem hmem
      obtain ⟨i, -, ⟨hcross, -⟩, -⟩ := mem_conflicts.mp hmem
      refine hcross ?_
      rw [← h1, ← h2, hends.1, h2]
      ring
    rw [hself, popConflicts_edge]
    refine ⟨popConflicts_initial .., ?_⟩
    simp only [hedge, false_imp_iff, and_true]
    exact popConflicts_eq_self_iff

theorem pop_of_selecting (h : s.mSelectScale = true) : s.pop.mVertices = s.mVertices ∧
    s.pop.mConflicts = s.mConflicts := by
  rw [pop, if_pos h]
  exact ⟨rfl, rfl⟩

theorem pop_mVertices (h : s.mSelectScale = false) : s.pop.mVertices = s.mVertices.dropLast := by
  rw [pop, if_neg (by simp [h])]
  split
  · rename_i hnil
    rw [hnil]
    rfl
  · dsimp only
    split <;> rfl

theorem pop_mConflicts (h : s.mSelectScale = false) (hlen : 3 < s.mVertices.length) :
    s.pop.mConflicts =
      popConflicts (vertex s.mVertices (s.mVertices.length - 2))
        (vertex s.mVertices (s.mVertices.length - 1))
        (popConflicts (vertex s.mVertices (s.mVertices.length - 1)) (vertex s.mVertices 0)
          s.mConflicts) ++
      closingConflicts (vertex s.mVertices) (s.mVertices.length - 2) := by
  have hne : s.mVertices ≠ [] := by
    rintro hnil
    rw [hnil] at hlen
    exact absurd hlen (Nat.not_lt_zero _)
  rw [pop, if_neg (by simp [h]), if_neg hne]
  dsimp only
  rw [if_pos hlen]
  rfl

theorem pop_mConflicts_of_le (hlen : s.mVertices.length ≤ 3) : s.pop.mConflicts = s.mConflicts := by
  rw [pop]
  split
  · rfl
  · split
    · rfl
    · rw [if_neg (Nat.not_lt.mpr hlen)]

/-- What is left of a complete list after `pop`. -/
theorem Exact.pop_eq (h : s.Exact) (hsel : s.mSelectScale = false)
    (hlen : 3 < s.mVertices.length) : ∃ cs : List Conflict,
      cs <+: pathConflicts (vertex s.pop.mVertices) (s.pop.mVertices.length - 1) ∧
      (cs = pathConflicts (vertex s.pop.mVertices) (s.pop.mVertices.length - 1) ↔ s.PopSafe) ∧
      s.pop.mConflicts =
        cs ++ closingConflicts (vertex s.pop.mVertices) (s.pop.mVertices.length - 1) := by
  have hlast : s.pop.mVertices.length - 1 = s.mVertices.length - 2 := by
    rw [pop_mVertices hsel, List.length_dropLast]
    omega
  have hvertex : ∀ i ≤ s.mVertices.length - 2,
      vertex s.pop.mVertices i = vertex s.mVertices i := by
    intro i hi
    rw [pop_mVertices hsel]
    exact vertex_dropLast (by omega)
  have hpath : pathConflicts (vertex s.mVertices) (s.mVertices.length - 1) =
      pathConflicts (vertex s.mVertices) (s.mVertices.length - 2) ++
        edgeConflicts (vertex s.mVertices) (s.mVertices.length - 1) := by
    obtain ⟨n, hn⟩ : ∃ n, s.mVertices.length = n + 2 := ⟨s.mVertices.length - 2, by omega⟩
    rw [hn]
    rfl
  obtain ⟨hstart, hiff⟩ := popConflicts_path (vertex s.mVertices) (s.mVertices.length - 1)
    (pathConflicts (vertex s.mVertices) (s.mVertices.length - 2)) (vertex s.mVertices 0)
  rw [hlast, pathConflicts_congr hvertex, closingConflicts_congr hvertex]
  refine ⟨_, hstart, hiff.trans ?_, ?_⟩
  · simp only [PopSafe, hsel, hlen, forall_const]
    rfl
  · rw [pop_mConflicts hsel hlen, h, popConflicts_closing, hpath]
    rfl

theorem Exact.pop (h : s.Exact) :
    (s.PopSafe → s.pop.Exact) ∧ (¬s.PopSafe → s.pop.Short) := by
  cases hsel : s.mSelectScale with
  | true =>
    obtain ⟨hvs, hcs⟩ := pop_of_selecting hsel
    refine ⟨fun _ => ?_, fun hsafe => absurd (fun hsel' => ?_) hsafe⟩
    · rw [Exact, hvs, hcs]
      exact h
    · rw [hsel] at hsel'
      cases hsel'
  | false =>
    by_cases hlen : 3 < s.mVertices.length
    · obtain ⟨cs, hstart, hiff, hcs⟩ := h.pop_eq hsel hlen
      refine ⟨fun hsafe => ?_, fun hsafe => ⟨cs, ?_, hcs⟩⟩
      · rw [Exact, hcs, hiff.mpr hsafe]
      · exact lt_of_le_of_ne hstart.length_le fun heq =>
          hsafe (hiff.mp (hstart.eq_of_length heq))
    · refine ⟨fun _ => ?_, fun hsafe => absurd (fun _ hlen' => absurd hlen' hlen) hsafe⟩
      have hlen' : s.pop.mVertices.length ≤ 2 := by
        rw [pop_mVertices hsel, List.length_dropLast]
        omega
      rw [Exact, pop_mConflicts_of_le (by omega), h, pathConflicts_of_le (by omega),
        closingConflicts_of_le (by omega), pathConflicts_of_le (by omega),
        closingConflicts_of_le (by omega)]

end Polygon

end Course.MapAreaCalculator
