import Mathlib.Algebra.BigOperators.Group.List.Basic
import Mathlib.Algebra.Order.Group.Int
import Mathlib.Data.Finset.Card
import Mathlib.Data.Int.ConditionallyCompleteOrder
import Mathlib.Data.List.Perm.Subperm
import Mathlib.Logic.Relation
import Mathlib.Order.ConditionallyCompleteLattice.Basic

/-! Forests among the edges of a graph: which vertices the edges of a list join, how many classes
of joined vertices there are, and the forests of a given size that weigh least. Forests of pointers
towards representatives, as a union-find structure keeps them for the classes. -/

namespace Course.Lib

/-- The edges of a graph, by their two ends. -/
structure EdgeEnds (V E : Type) where
  source : E → V
  target : E → V

namespace EdgeEnds

variable {V E : Type} (G : EdgeEnds V E)

/-- The edges of the list join the two vertices. -/
def Joined (es : List E) : V → V → Prop :=
  Relation.EqvGen fun x y => ∃ e ∈ es, G.source e = x ∧ G.target e = y

/-- No edge joins what the others join. -/
def Forest : List E → Prop
  | [] => True
  | e :: es => ¬G.Joined es (G.source e) (G.target e) ∧ Forest es

variable [DecidableEq V]

/-- A vertex that stands for all those joined to `x`. -/
def label : List E → V → V
  | [], x => x
  | e :: es, x =>
    if label es x = label es (G.source e) then label es (G.target e) else label es x

/-- At most `r` edges of a list, taken in its order, that `acc` and the edges before do not join. -/
def greedy : ℕ → List E → List E → List E
  | 0, _, _ => []
  | _ + 1, [], _ => []
  | r + 1, e :: es, acc =>
    if G.label acc (G.source e) = G.label acc (G.target e) then greedy (r + 1) es acc
    else e :: greedy r es (e :: acc)

variable {G} {e : E} {es fs acc : List E} {x y : V} {vs : Finset V}

omit [DecidableEq V] in
theorem Joined.mono (h : G.Joined es x y) (hsub : es ⊆ fs) : G.Joined fs x y :=
  Relation.EqvGen.mono (fun _ _ ⟨e, he, hs⟩ => ⟨e, hsub he, hs⟩) _ _ h

omit [DecidableEq V] in
theorem joined_of_mem (he : e ∈ es) : G.Joined es (G.source e) (G.target e) :=
  .rel _ _ ⟨e, he, rfl, rfl⟩

theorem label_congr (h : G.label es x = G.label es y) :
    G.label (e :: es) x = G.label (e :: es) y := by
  rw [label, label, h]

theorem label_target (e : E) (es : List E) :
    G.label (e :: es) (G.target e) = G.label es (G.target e) := by
  rw [label, ite_self]

theorem label_source (e : E) (es : List E) :
    G.label (e :: es) (G.source e) = G.label es (G.target e) := if_pos rfl

theorem label_of_mem (he : e ∈ es) : G.label es (G.source e) = G.label es (G.target e) := by
  induction es with
  | nil => cases he
  | cons d es ih =>
    rcases List.mem_cons.mp he with rfl | he
    · rw [label_source, label_target]
    · exact label_congr (ih he)

theorem joined_of_label (h : G.label es x = G.label es y) : G.Joined es x y := by
  induction es generalizing x y with
  | nil =>
    obtain rfl : x = y := h
    exact .refl _
  | cons e es ih =>
    have lift : ∀ {x y}, G.label es x = G.label es y → G.Joined (e :: es) x y := fun hxy =>
      (ih hxy).mono (List.subset_cons_self e es)
    have hedge : G.Joined (e :: es) (G.source e) (G.target e) := joined_of_mem List.mem_cons_self
    rw [label, label] at h
    split_ifs at h with hx hy hy
    · exact lift (hx.trans hy.symm)
    · exact (lift hx).trans _ _ _ (hedge.trans _ _ _ (lift h))
    · exact (lift h).trans _ _ _ ((hedge.symm _ _).trans _ _ _ (lift hy.symm))
    · exact lift h

/-- Two vertices are joined when the same one stands for both. -/
theorem label_eq_iff : G.label es x = G.label es y ↔ G.Joined es x y := by
  refine ⟨joined_of_label, fun h => ?_⟩
  induction h with
  | rel x y h =>
    obtain ⟨e, he, rfl, rfl⟩ := h
    exact label_of_mem he
  | refl x => rfl
  | symm x y _ ih => exact ih.symm
  | trans x y z _ _ ih ih' => exact ih.trans ih'

theorem label_label (es : List E) (x : V) : G.label es (G.label es x) = G.label es x := by
  induction es generalizing x with
  | nil => rfl
  | cons e es ih =>
    by_cases hx : G.label es x = G.label es (G.source e)
    · have hl : G.label (e :: es) x = G.label es (G.target e) := if_pos hx
      rw [hl, label, ih, ite_self]
    · have hl : G.label (e :: es) x = G.label es x := if_neg hx
      rw [hl, label, ih, if_neg hx]

/-! ### The number of classes -/

variable (G) in
/-- The classes of joined vertices. -/
def classes (vs : Finset V) (es : List E) : ℕ := (vs.image (G.label es)).card

/-- One more edge joins two classes, or none. -/
theorem classes_cons (hs : G.source e ∈ vs) (ht : G.target e ∈ vs) :
    G.classes vs (e :: es) + (if G.label es (G.source e) = G.label es (G.target e) then 0 else 1) =
      G.classes vs es := by
  split
  next heq =>
    have hlabel : G.label (e :: es) = G.label es := by
      funext x
      rw [label, ← heq]
      split
      next hx => exact hx.symm
      next => rfl
    rw [classes, hlabel, Nat.add_zero]
    rfl
  next hne =>
    have hmem : G.label es (G.source e) ∈ vs.image (G.label es) := Finset.mem_image_of_mem _ hs
    have himage : vs.image (G.label (e :: es)) =
        (vs.image (G.label es)).erase (G.label es (G.source e)) := by
      ext y
      rw [Finset.mem_erase, Finset.mem_image, Finset.mem_image]
      constructor
      · rintro ⟨x, hx, rfl⟩
        rw [label]
        split
        next => exact ⟨fun h => hne h.symm, G.target e, ht, rfl⟩
        next hxe => exact ⟨hxe, x, hx, rfl⟩
      · rintro ⟨hy, x, hx, rfl⟩
        exact ⟨x, hx, if_neg hy⟩
    have hpos : 0 < (vs.image (G.label es)).card := Finset.card_pos.mpr ⟨_, hmem⟩
    rw [classes, himage, Finset.card_erase_of_mem hmem, classes]
    omega

theorem classes_nil : G.classes vs [] = vs.card := by
  rw [classes, show G.label ([] : List E) = id from rfl, Finset.image_id]

/-- A list of edges is a forest when each of them leaves a class less. -/
theorem forest_iff (hvs : ∀ e ∈ es, G.source e ∈ vs ∧ G.target e ∈ vs) :
    vs.card ≤ G.classes vs es + es.length ∧
      (G.Forest es ↔ G.classes vs es + es.length = vs.card) := by
  induction es with
  | nil => simp [classes_nil, Forest]
  | cons e es ih =>
    obtain ⟨hle, hiff⟩ := ih fun d hd => hvs d (List.mem_cons_of_mem e hd)
    obtain ⟨hs, ht⟩ := hvs e List.mem_cons_self
    have hcons : G.classes vs (e :: es) + _ = G.classes vs es := classes_cons hs ht
    rw [Forest, hiff, ← label_eq_iff, List.length_cons]
    split at hcons
    next heq =>
      refine ⟨by omega, fun h => absurd heq h.1, fun h => ?_⟩
      omega
    next hne =>
      refine ⟨by omega, fun h => ?_, fun h => ⟨hne, ?_⟩⟩
      · have := h.2
        omega
      · omega

/-- Edges that join more leave fewer classes. -/
theorem classes_anti (h : ∀ x y, G.Joined es x y → G.Joined fs x y) :
    G.classes vs fs ≤ G.classes vs es := by
  have himage : vs.image (G.label fs) = (vs.image (G.label es)).image (G.label fs) := by
    rw [Finset.image_image]
    refine Finset.image_congr fun x _ => ?_
    exact label_eq_iff.mpr (h _ _ (label_eq_iff.mp (label_label es x).symm))
  rw [classes, himage]
  exact Finset.card_image_le

omit [DecidableEq V] in
/-- The vertices of some edges. -/
theorem exists_vertices [DecidableEq V] (es : List E) :
    ∃ vs : Finset V, ∀ e ∈ es, G.source e ∈ vs ∧ G.target e ∈ vs := by
  refine ⟨(es.map G.source ++ es.map G.target).toFinset, fun e he => ?_⟩
  rw [List.mem_toFinset, List.mem_toFinset]
  exact ⟨List.mem_append_left _ (List.mem_map_of_mem he),
    List.mem_append_right _ (List.mem_map_of_mem he)⟩

/-! ### Forests -/

omit [DecidableEq V] in
theorem Forest.nodup (h : G.Forest es) : es.Nodup := by
  induction es with
  | nil => exact List.nodup_nil
  | cons e es ih => exact List.nodup_cons.mpr ⟨fun he => h.1 (joined_of_mem he), ih h.2⟩

theorem Forest.perm (h : G.Forest es) (hperm : es.Perm fs) : G.Forest fs := by
  obtain ⟨vs, hvs⟩ := exists_vertices (G := G) es
  have hle : G.classes vs fs ≤ G.classes vs es := classes_anti fun x y hxy =>
    Joined.mono hxy hperm.subset
  have hge : G.classes vs es ≤ G.classes vs fs := classes_anti fun x y hxy =>
    Joined.mono hxy hperm.symm.subset
  have hes := (forest_iff hvs).2.mp h
  rw [hperm.length_eq] at hes
  have hfs : G.Forest fs ↔ G.classes vs fs + fs.length = vs.card :=
    (forest_iff fun e he => hvs e (hperm.mem_iff.mpr he)).2
  exact hfs.mpr (by omega)

omit [DecidableEq V] in
theorem Forest.append_right (h : G.Forest (es ++ fs)) : G.Forest fs := by
  induction es with
  | nil => exact h
  | cons e es ih => exact ih h.2

/-- The smaller of two forests can take an edge of the larger one. -/
theorem Forest.augment (h : G.Forest es) (h' : G.Forest fs) (hlt : es.length < fs.length) :
    ∃ e ∈ fs, G.Forest (e :: es) := by
  by_contra hno
  have hjoined : ∀ e ∈ fs, G.Joined es (G.source e) (G.target e) := fun e he => by
    by_contra hnot
    exact hno ⟨e, he, hnot, h⟩
  obtain ⟨vs, hvs⟩ := exists_vertices (G := G) (es ++ fs)
  have hanti : G.classes vs es ≤ G.classes vs fs := classes_anti fun x y hxy => by
    rw [← label_eq_iff]
    induction hxy with
    | rel x y hxy =>
      obtain ⟨e, he, rfl, rfl⟩ := hxy
      exact label_eq_iff.mpr (hjoined e he)
    | refl x => rfl
    | symm x y _ ih => exact ih.symm
    | trans x y z _ _ ih ih' => exact ih.trans ih'
  have hes := (forest_iff fun e he => hvs e (List.mem_append_left _ he)).2.mp h
  have hfs := (forest_iff fun e he => hvs e (List.mem_append_right _ he)).2.mp h'
  omega

/-- It can take as many of them as it lacks. -/
theorem Forest.extend (h : G.Forest es) (h' : G.Forest fs) {d : ℕ}
    (hlen : es.length + d ≤ fs.length) :
    ∃ ds : List E, ds.length = d ∧ ds ⊆ fs ∧ G.Forest (ds ++ es) := by
  induction d with
  | zero => exact ⟨[], rfl, List.nil_subset _, h⟩
  | succ d ih =>
    obtain ⟨ds, rfl, hsub, hds⟩ := ih (by omega)
    obtain ⟨e, he, hforest⟩ := hds.augment h' (by rw [List.length_append]; omega)
    exact ⟨e :: ds, rfl, List.cons_subset.mpr ⟨he, hsub⟩, hforest⟩

/-! ### The greedy choice -/

omit [DecidableEq V] in
theorem exists_perm_cons (he : e ∈ es) : ∃ ds, es.Perm (e :: ds) := by
  obtain ⟨ds, ds', rfl⟩ := List.append_of_mem he
  exact ⟨ds ++ ds', List.perm_middle⟩

theorem greedy_subset (r : ℕ) (es acc : List E) : G.greedy r es acc ⊆ es := by
  fun_induction greedy G r es acc with
  | case1 => exact List.nil_subset _
  | case2 => exact List.nil_subset _
  | case3 r e es acc _ ih => exact List.subset_cons_of_subset e ih
  | case4 r e es acc _ ih =>
    exact List.cons_subset.mpr ⟨List.mem_cons_self, List.subset_cons_of_subset e ih⟩

theorem forest_greedy (r : ℕ) (es : List E) (h : G.Forest acc) :
    G.Forest (G.greedy r es acc ++ acc) := by
  fun_induction greedy G r es acc with
  | case1 => exact h
  | case2 => exact h
  | case3 r e es acc _ ih => exact ih h
  | case4 r e es acc hne ih =>
    exact (ih ⟨fun hj => hne (label_eq_iff.mpr hj), h⟩).perm List.perm_middle

/-- When the edges come in the order of their weights, the greedy choice weighs least among the
forests that have as many edges as are asked for. -/
theorem greedy_weight (w : E → ℤ) {r : ℕ} (hsorted : es.Pairwise fun d e => w d ≤ w e)
    (hsub : fs ⊆ es) (hforest : G.Forest (fs ++ acc)) (hlen : fs.length = r) :
    (G.greedy r es acc).length = r ∧ ((G.greedy r es acc).map w).sum ≤ (fs.map w).sum := by
  induction es generalizing r fs acc with
  | nil =>
    obtain rfl := List.subset_nil.mp hsub
    obtain rfl : 0 = r := hlen
    exact ⟨rfl, le_rfl⟩
  | cons e es ih =>
    obtain ⟨hmin, hsorted⟩ := List.pairwise_cons.mp hsorted
    have hrest : ∀ {ds : List E}, ds ⊆ e :: es → e ∉ ds → ds ⊆ es := fun hds he d hd =>
      (List.mem_cons.mp (hds hd)).resolve_left fun hde => he (hde ▸ hd)
    cases r with
    | zero =>
      obtain rfl := List.length_eq_zero_iff.mp hlen
      exact ⟨rfl, le_rfl⟩
    | succ r =>
      rw [greedy]
      split
      next hjoined =>
        refine ih hsorted (hrest hsub fun he => ?_) hforest hlen
        obtain ⟨ds, hperm⟩ := exists_perm_cons he
        have hds : G.Forest (e :: (ds ++ acc)) := hforest.perm (hperm.append_right acc)
        exact hds.1 ((label_eq_iff.mp hjoined).mono (List.subset_append_right _ _))
      next hne =>
        have hacc : G.Forest (e :: acc) :=
          ⟨fun hj => hne (label_eq_iff.mpr hj), hforest.append_right⟩
        -- a forest with `e`, and all but one of the edges of `fs`
        obtain ⟨d, ds, hperm, hde, hds, hsubds⟩ : ∃ d ds, fs.Perm (d :: ds) ∧ w e ≤ w d ∧
            G.Forest (ds ++ e :: acc) ∧ ds ⊆ es := by
          by_cases he : e ∈ fs
          · obtain ⟨ds, hperm⟩ := exists_perm_cons he
            have hnodup := hperm.nodup_iff.mp (List.nodup_append.mp hforest.nodup).1
            refine ⟨e, ds, hperm, le_rfl, ?_, hrest ?_ (List.nodup_cons.mp hnodup).1⟩
            · exact hforest.perm ((hperm.append_right acc).trans List.perm_middle.symm)
            · exact fun d hd => hsub (hperm.mem_iff.mpr (List.mem_cons_of_mem e hd))
          · obtain ⟨ds, hdslen, hdssub, hds⟩ := hacc.extend hforest (d := r)
              (by rw [List.length_append, List.length_cons]; omega)
            have hdsfs : ds ⊆ fs := by
              intro d hd
              refine (List.mem_append.mp (hdssub hd)).resolve_right fun hdacc => ?_
              exact (List.nodup_append.mp hds.nodup).2.2 d hd d (List.mem_cons_of_mem e hdacc) rfl
            have hsubperm := List.subperm_of_subset (List.nodup_append.mp hds.nodup).1 hdsfs
            obtain ⟨d, hd⟩ := hsubperm.exists_of_length_lt
              (show ds.length < fs.length by omega)
            have hperm := hd.perm_of_length_le
              (show fs.length ≤ (d :: ds).length by rw [List.length_cons]; omega)
            have hdfs : d ∈ fs := hperm.subset List.mem_cons_self
            exact ⟨d, ds, hperm.symm, hmin d (hrest hsub he hdfs), hds,
              List.Subset.trans hdsfs (hrest hsub he)⟩
        have hdslen := hperm.length_eq
        rw [List.length_cons] at hdslen
        obtain ⟨hlen', hweight⟩ := ih hsorted hsubds hds (show ds.length = r by omega)
        refine ⟨by rw [List.length_cons, hlen'], ?_⟩
        have hsum := (hperm.map w).sum_eq
        rw [List.map_cons, List.sum_cons] at hsum ⊢
        omega

end EdgeEnds

/-! ### Pointers towards representatives -/

section

variable {V : Type} {root : V → V} {k k' : ℕ} {x y r r' u v : V}

/-- From `x` it is `k` steps up to `r`, which is its own root. -/
inductive Climbs (root : V → V) : ℕ → V → V → Prop
  | here {r : V} (h : root r = r) : Climbs root 0 r r
  | up {k : ℕ} {x r : V} (hne : root x ≠ x) (h : Climbs root k (root x) r) :
      Climbs root (k + 1) x r

namespace Climbs

theorem root_eq (h : Climbs root k x r) : root r = r := by
  induction h with
  | here h => exact h
  | up _ _ ih => exact ih

theorem unique (h : Climbs root k x r) (h' : Climbs root k' x r') : k = k' ∧ r = r' := by
  induction h generalizing k' with
  | here h =>
    cases h' with
    | here => exact ⟨rfl, rfl⟩
    | up hne => exact absurd h hne
  | up hne _ ih =>
    cases h' with
    | here h => exact absurd h hne
    | up _ h' =>
      obtain ⟨rfl, rfl⟩ := ih h'
      exact ⟨rfl, rfl⟩

theorem mem {vs : Finset V} (h : Climbs root k x r) (hvs : ∀ x ∈ vs, root x ∈ vs) (hx : x ∈ vs) :
    r ∈ vs := by
  induction h with
  | here => exact hx
  | up _ _ ih => exact ih (hvs _ hx)

variable [DecidableEq V]

/-- The way up meets no place twice. -/
theorem lt_card {vs : Finset V} (h : Climbs root k x r) (hvs : ∀ x ∈ vs, root x ∈ vs)
    (hx : x ∈ vs) : k < vs.card := by
  obtain ⟨s, hsub, hcard, -⟩ : ∃ s ⊆ vs, s.card = k + 1 ∧ ∀ y ∈ s, ∃ j ≤ k, Climbs root j y r := by
    induction h with
    | here h =>
      refine ⟨{_}, Finset.singleton_subset_iff.mpr hx, Finset.card_singleton _, fun y hy => ?_⟩
      obtain rfl := Finset.mem_singleton.mp hy
      exact ⟨0, le_rfl, here h⟩
    | @up k x r hne h ih =>
      obtain ⟨s, hsub, hcard, hs⟩ := ih (hvs x hx)
      have hnot : x ∉ s := by
        intro hmem
        obtain ⟨j, hj, hclimb⟩ := hs x hmem
        have := (hclimb.unique (up hne h)).1
        omega
      refine ⟨insert x s, Finset.insert_subset hx hsub, ?_, fun y hy => ?_⟩
      · rw [Finset.card_insert_of_notMem hnot, hcard]
      · rcases Finset.mem_insert.mp hy with rfl | hy
        · exact ⟨k + 1, le_rfl, up hne h⟩
        · obtain ⟨j, hj, hclimb⟩ := hs y hy
          exact ⟨j, by omega, hclimb⟩
  have := Finset.card_le_card hsub
  omega

/-- A place that is set under its representative. -/
theorem compress (hx : Climbs root k x r) (hne : x ≠ r) (hy : Climbs root k' y r') :
    ∃ j, Climbs (Function.update root x r) j y r' := by
  have hr : Function.update root x r r = r := by
    rw [Function.update_of_ne hne.symm, hx.root_eq]
  induction hy with
  | @here r' h =>
    have hne' : r' ≠ x := by
      rintro rfl
      exact hne (hx.unique (here h)).2.symm
    exact ⟨0, here (by rw [Function.update_of_ne hne', h])⟩
  | @up k' y r' hy h ih =>
    by_cases heq : y = x
    · subst heq
      obtain rfl := (hx.unique (up hy h)).2
      refine ⟨1, up ?_ ?_⟩
      · rw [Function.update_self]
        exact hne.symm
      · rw [Function.update_self]
        exact here hr
    · obtain ⟨j, hj⟩ := ih
      refine ⟨j + 1, up ?_ ?_⟩
      · rw [Function.update_of_ne heq]
        exact hy
      · rw [Function.update_of_ne heq]
        exact hj

/-- A representative that is set under another one. -/
theorem unite (hu : root u = u) (hv : root v = v) (hne : u ≠ v) (hy : Climbs root k y r) :
    ∃ j, Climbs (Function.update root u v) j y (if r = u then v else r) := by
  induction hy with
  | @here r h =>
    split
    next heq =>
      subst heq
      refine ⟨1, up ?_ ?_⟩
      · rw [Function.update_self]
        exact hne.symm
      · rw [Function.update_self]
        exact here (by rw [Function.update_of_ne hne.symm, hv])
    next hru => exact ⟨0, here (by rw [Function.update_of_ne hru, h])⟩
  | @up k y r hy _ ih =>
    have hyu : y ≠ u := by
      rintro rfl
      exact hy hu
    obtain ⟨j, hj⟩ := ih
    refine ⟨j + 1, up ?_ ?_⟩
    · rw [Function.update_of_ne hyu]
      exact hy
    · rw [Function.update_of_ne hyu]
      exact hj

end Climbs

end

end Course.Lib
