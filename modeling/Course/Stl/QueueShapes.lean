import Course.Stl.Degrees
import Course.Stl.PriorityQueues
import Mathlib.Algebra.Order.BigOperators.Group.List
import Mathlib.Algebra.Order.Group.Nat

/-! The shapes of the trees of a priority queue: binomial trees, of different
degrees as long as the passes of the private `merge` drop no carry. -/

open Course.Lib Heap

namespace Course.Stl.PriorityQueue

namespace Forest

variable {T : Type} {cmp : T → T → Bool}

def degrees : Forest T → List ℕ
  | nil => []
  | node _ _ degree _ next => degree :: next.degrees

/-- The children of a root have all lower degrees once, from the highest down. -/
def Binomial : Forest T → Prop
  | nil => True
  | node _ _ degree child next =>
    child.degrees = (List.range degree).reverse ∧ child.Binomial ∧ next.Binomial

/-! ### Degrees -/

theorem degrees_join (a : ℕ) (k : T) (d : ℕ) (c : Forest T) (a' : ℕ) (k' : T) (c' n : Forest T) :
    (join cmp a k d c a' k' d c' n).degrees = (d + 1) :: n.degrees := by
  unfold join
  split <;> rfl

theorem degrees_mergeFront (f : Forest T) :
    (mergeFront cmp f).degrees = Degrees.front f.degrees := by
  fun_induction mergeFront cmp f with
  | case1 a k c a' k' d' c' n ih =>
    rw [ih, degrees_join]
    exact Degrees.front_twice.symm
  | case2 a k d c a' k' d' c' n hne =>
    simp only [degrees]
    rw [Degrees.front, if_neg hne]
  | case3 f hf =>
    cases f with
    | nil => simp [degrees, Degrees.front]
    | node a k d c n =>
      cases n with
      | nil => simp [degrees, Degrees.front]
      | node a' k' d' c' n => exact absurd rfl (hf a k d c a' k' d' c' n)

theorem starts_iff {d : ℕ} {f : Forest T} : f.Starts d ↔ f.degrees.head? = some d := by
  cases f with
  | nil => simp [Starts, degrees]
  | node a k d' c n => simp [Starts, degrees, eq_comm]

theorem degrees_mergeRest (f : Forest T) :
    (mergeRest cmp f).degrees = Degrees.rest f.degrees := by
  fun_induction mergeRest cmp f with
  | case1 a k d c a' k' d' c' n h ih =>
    obtain ⟨rfl, hstarts⟩ := h
    rw [degrees_join, ih]
    simp only [degrees]
    rw [Degrees.rest, if_pos ⟨rfl, fun hhead => hstarts (starts_iff.mpr hhead)⟩]
  | case2 a k d c a' k' d' c' n h ih =>
    simp only [degrees] at ih ⊢
    rw [ih, Degrees.rest, if_neg]
    exact fun hand => h ⟨hand.1, fun hstarts => hand.2 (starts_iff.mp hstarts)⟩
  | case3 f hf =>
    cases f with
    | nil => simp [degrees, Degrees.rest]
    | node a k d c n =>
      cases n with
      | nil => simp [degrees, Degrees.rest]
      | node a' k' d' c' n => exact absurd rfl (hf a k d c a' k' d' c' n)

theorem degrees_mergeTrees (f : Forest T) :
    (mergeTrees cmp f).degrees = Degrees.pass f.degrees := by
  rw [mergeTrees, Degrees.pass, ← @degrees_mergeFront T cmp]
  cases mergeFront cmp f with
  | nil => rfl
  | node a k d c n => simp only [mergeTail, degrees, degrees_mergeRest, Degrees.tail]

theorem degrees_link (x y : Forest T) :
    (link x y).degrees = x.degrees.merge y.degrees (· ≤ ·) := by
  fun_induction link x y with
  | case1 y => simp [degrees]
  | case2 x => simp [degrees]
  | case3 a k d c n a' k' d' c' n' h ih =>
    simp only [degrees] at ih ⊢
    rw [ih, List.cons_merge_cons_pos _ _ _ (by simpa using h)]
  | case4 a k d c n a' k' d' c' n' h ih =>
    simp only [degrees] at ih ⊢
    rw [ih, List.cons_merge_cons_neg _ _ _ (by simpa using h)]

theorem degrees_roots (f : Forest T) : f.degrees = f.roots.map Root.degree := by
  induction f with
  | nil => rfl
  | node a k d c n _ hn => rw [degrees, hn, roots, List.map_cons]

theorem degrees_ofRoots (rs : List (Root T)) : (ofRoots rs).degrees = rs.map Root.degree := by
  rw [degrees_roots, roots_ofRoots]

/-! ### Binomial trees -/

namespace Binomial

theorem join {a : ℕ} {k : T} {d : ℕ} {c : Forest T} {a' : ℕ} {k' : T} {c' n m : Forest T}
    (h : (node a k d c (node a' k' d c' n)).Binomial) (hm : m.Binomial) :
    (Forest.join cmp a k d c a' k' d c' m).Binomial := by
  obtain ⟨hdegrees, hc, hdegrees', hc', -⟩ := h
  have hsucc : (List.range (d + 1)).reverse = d :: (List.range d).reverse := by
    rw [List.range_succ, List.reverse_concat]
  unfold Forest.join
  split
  · exact ⟨by rw [degrees, hdegrees', hsucc], ⟨hdegrees, hc, hc'⟩, hm⟩
  · exact ⟨by rw [degrees, hdegrees, hsucc], ⟨hdegrees', hc', hc⟩, hm⟩

theorem mergeFront {f : Forest T} (hf : f.Binomial) : (mergeFront cmp f).Binomial := by
  fun_induction Forest.mergeFront cmp f with
  | case1 a k c a' k' d' c' n ih => exact ih (hf.join hf.2.2.2.2)
  | case2 => exact hf
  | case3 => exact hf

theorem mergeRest {f : Forest T} (hf : f.Binomial) : (mergeRest cmp f).Binomial := by
  fun_induction Forest.mergeRest cmp f with
  | case1 a k d c a' k' d' c' n h ih =>
    obtain ⟨rfl, -⟩ := h
    exact hf.join (ih hf.2.2.2.2)
  | case2 a k d c a' k' d' c' n h ih => exact ⟨hf.1, hf.2.1, ih hf.2.2⟩
  | case3 => exact hf

theorem mergeTrees {f : Forest T} (hf : f.Binomial) : (mergeTrees cmp f).Binomial := by
  have hfront : (Forest.mergeFront cmp f).Binomial := hf.mergeFront
  rw [Forest.mergeTrees]
  cases h : Forest.mergeFront cmp f with
  | nil => trivial
  | node a k d c n =>
    rw [h] at hfront
    exact ⟨hfront.1, hfront.2.1, hfront.2.2.mergeRest⟩

theorem link {x y : Forest T} (hx : x.Binomial) (hy : y.Binomial) : (link x y).Binomial := by
  fun_induction Forest.link x y with
  | case1 y => exact hy
  | case2 x => exact hx
  | case3 a k d c n a' k' d' c' n' h ih => exact ⟨hx.1, hx.2.1, ih hx.2.2 hy⟩
  | case4 a k d c n a' k' d' c' n' h ih => exact ⟨hy.1, hy.2.1, ih hx hy.2.2⟩

theorem adopt {x f : Forest T} (hx : x.Binomial) (hf : f.Binomial) : (adopt cmp x f).Binomial := by
  fun_induction Forest.adopt cmp x f with
  | case1 x => exact hx
  | case2 x a k d c n ih =>
    have hsingle : (node a k d c nil).Binomial := ⟨hf.1, hf.2.1, trivial⟩
    exact ih (hx.link hsingle).mergeTrees hf.2.2

theorem append {l s : List (Root T)} :
    (ofRoots (l ++ s)).Binomial ↔ (ofRoots l).Binomial ∧ (ofRoots s).Binomial := by
  induction l with
  | nil => simp [ofRoots_nil, Binomial]
  | cons r l ih => simp [ofRoots_cons, Binomial, ih, and_assoc]

theorem sum_range (d : ℕ) : (((List.range d).reverse.map (2 ^ ·)).sum) + 1 = 2 ^ d := by
  induction d with
  | zero => rfl
  | succ d ih =>
    rw [List.range_succ, List.reverse_concat, List.map_cons, List.sum_cons, add_assoc, ih]
    omega

theorem card_keys {f : Forest T} (hf : f.Binomial) :
    f.keys.card = (f.degrees.map (2 ^ ·)).sum := by
  induction f with
  | nil => rfl
  | node a k d c n hc hn =>
    obtain ⟨hdegrees, hchild, hnext⟩ := hf
    have hsum := sum_range d
    rw [keys, Multiset.card_cons, Multiset.card_add, hc hchild, hn hnext, hdegrees, degrees,
      List.map_cons, List.sum_cons]
    omega

/-- A root of degree `k` heads `2 ^ k` nodes. -/
theorem card_child {f : Forest T} (hf : f.Binomial) :
    ∀ r ∈ f.roots, r.child.keys.card + 1 = 2 ^ r.degree := by
  induction f with
  | nil => exact fun r hr => absurd hr List.not_mem_nil
  | node a k d c n _ hn =>
    obtain ⟨hdegrees, hchild, hnext⟩ := hf
    refine List.forall_mem_cons.mpr ⟨?_, hn hnext⟩
    rw [hchild.card_keys, hdegrees, sum_range]

end Binomial

/-- Binomial trees of increasing degrees. -/
structure Shaped (f : Forest T) : Prop where
  increasing : f.degrees.Pairwise (· < ·)
  binomial : f.Binomial

namespace Shaped

variable {f g x : Forest T}

theorem nil : Shaped (T := T) nil := ⟨.nil, trivial⟩

theorem length_roots_le (hf : f.Shaped) : f.roots.length ≤ Nat.log2 f.keys.card + 1 := by
  have hlength : f.roots.length = f.degrees.length := by rw [degrees_roots, List.length_map]
  rcases eq_or_ne f.degrees [] with hnil | hne
  · rw [hlength, hnil]
    exact Nat.zero_le _
  obtain ⟨d, hd, hle⟩ := Degrees.exists_length_le hf.increasing hne
  have hpow : 2 ^ d ≤ f.keys.card := by
    rw [hf.binomial.card_keys]
    exact List.single_le_sum (fun _ _ => Nat.zero_le _) _ (List.mem_map_of_mem hd)
  have hpos : f.keys.card ≠ 0 := Nat.ne_of_gt (Nat.lt_of_lt_of_le (Nat.two_pow_pos d) hpow)
  have hlog := (Nat.le_log2 hpos).mpr hpow
  omega

theorem sorted_link (hf : f.Shaped) (hg : g.Shaped) : Degrees.Sorted (f.link g).degrees := by
  rw [degrees_link]
  exact .merge hf.increasing hg.increasing

theorem perm_link : (f.link g).degrees.Perm (f.degrees ++ g.degrees) := by
  rw [degrees_link]
  exact List.merge_perm_append _

theorem merge (hf : f.Shaped) (hg : g.Shaped)
    (hcarries : Degrees.Carries (f.degrees ++ g.degrees)) :
    (mergeTrees cmp (f.link g)).Shaped where
  increasing := by
    rw [degrees_mergeTrees]
    exact Degrees.pairwise_pass (hf.sorted_link hg) (hcarries.perm perm_link.symm)
  binomial := (hf.binomial.link hg.binomial).mergeTrees

theorem single (a : ℕ) (k : T) : (node a k 0 .nil .nil).Shaped :=
  ⟨List.pairwise_singleton .., rfl, trivial, trivial⟩

theorem push (hf : f.Shaped) (a : ℕ) (k : T) :
    (mergeTrees cmp (f.link (node a k 0 .nil .nil))).Shaped where
  increasing := by
    rw [degrees_mergeTrees]
    have hperm : (f.link (node a k 0 .nil .nil)).degrees.Perm (0 :: f.degrees) :=
      perm_link.trans (List.perm_append_singleton 0 f.degrees)
    exact (Degrees.pass_insert hf.increasing (hf.sorted_link (single a k)) hperm
      fun _ _ x _ => Nat.zero_le x).1
  binomial := (hf.binomial.link (single a k).binomial).mergeTrees

theorem increasing_adopt {D d : ℕ} {l : List ℕ} {c : Forest T} (hadopts : Degrees.Adopts D l)
    (hx : Degrees.Adopting D d l x.degrees) (hd : d ≤ D) (hc : c.degrees = (List.range d).reverse) :
    (adopt cmp x c).degrees.Pairwise (· < ·) := by
  induction d generalizing x c with
  | zero =>
    cases c with
    | nil => exact hx.increasing
    | node a k d c n => exact absurd hc (List.cons_ne_nil _ _)
  | succ d ih =>
    rw [List.range_succ, List.reverse_concat] at hc
    cases c with
    | nil => exact absurd hc.symm (List.cons_ne_nil _ _)
    | node a k d' c n =>
      obtain ⟨rfl, hn⟩ := List.cons_eq_cons.mp hc
      have hsorted : Degrees.Sorted (x.link (node a k d' c .nil)).degrees := by
        rw [degrees_link]
        exact .merge hx.increasing (List.pairwise_singleton ..)
      have hperm : (x.link (node a k d' c .nil)).degrees.Perm (d' :: x.degrees) :=
        perm_link.trans (List.perm_append_singleton d' x.degrees)
      rw [adopt]
      refine ih ?_ (by omega) hn
      rw [degrees_mergeTrees]
      exact hx.insert hadopts (by omega) hsorted hperm

theorem pop {l s : List (Root T)} {m : Root T} (hf : (ofRoots (l ++ m :: s)).Shaped)
    (hadopts : Degrees.Adopts m.degree (ofRoots (l ++ s)).degrees) :
    (adopt cmp (ofRoots (l ++ s)) m.child).Shaped := by
  obtain ⟨hincreasing, hbinomial⟩ := hf
  obtain ⟨hl, hdegrees, hchild, hs⟩ := Binomial.append.mp hbinomial
  rw [degrees_ofRoots] at hincreasing hadopts
  have hsub : (l ++ s).Sublist (l ++ m :: s) := (List.sublist_cons_self m s).append_left l
  refine ⟨increasing_adopt hadopts ⟨?_, ?_, ?_⟩ (Nat.le_refl _) hdegrees,
    (Binomial.append.mpr ⟨hl, hs⟩).adopt hchild⟩
  · rw [degrees_ofRoots]
    exact hincreasing.sublist (hsub.map _)
  · intro x _
    rw [degrees_ofRoots]
  · -- the degree of the removed root is not left
    intro hmem
    rw [degrees_ofRoots] at hmem
    have hnodup : ((l ++ m :: s).map Root.degree).Nodup :=
      hincreasing.imp fun hlt => Nat.ne_of_lt hlt
    rw [(List.perm_middle.map Root.degree).nodup_iff, List.map_cons, List.nodup_cons] at hnodup
    exact absurd hmem hnodup.1

end Shaped

/-- The records in memory determine the trees. -/
theorem eq_of_cells {h : Heap (Node T)} {f g : Forest T} (hp : f.ptr = g.ptr)
    (hf : ∀ c ∈ f.cells, h.cells c.1 = some c.2) (hg : ∀ c ∈ g.cells, h.cells c.1 = some c.2) :
    f = g := by
  induction f generalizing g with
  | nil =>
    cases g with
    | nil => rfl
    | node => cases hp
  | node a k d c n hc hn =>
    cases g with
    | nil => cases hp
    | node a' k' d' c' n' =>
      obtain rfl : a = a' := Option.some.inj hp
      simp only [cells, Multiset.mem_add, Multiset.mem_singleton] at hf hg
      have hcell := (hf (a, ⟨k, d, c.ptr, n.ptr⟩) (.inl rfl)).symm.trans
        (hg (a, ⟨k', d', c'.ptr, n'.ptr⟩) (.inl rfl))
      obtain ⟨rfl, rfl, hchild, hnext⟩ := Node.mk.inj (Option.some.inj hcell)
      obtain rfl := hc hchild (fun c hc => hf c (.inr (.inl hc))) fun c hc => hg c (.inr (.inl hc))
      obtain rfl := hn hnext (fun c hc => hf c (.inr (.inr hc))) fun c hc => hg c (.inr (.inr hc))
      rfl

end Forest

variable {T : Type} {cmp : T → T → Bool} {w : World T} {fs fs' : Groves T}

theorem ShowsTrees.unique (hw : ShowsTrees cmp w fs) (hw' : ShowsTrees cmp w fs') : fs = fs' := by
  apply Kind.Shows.unique _ hw hw'
  intro q f g hf hg hcells hcells'
  exact Forest.eq_of_cells (Option.some.inj (hf.root.symm.trans hg.root)) hcells hcells'

/-! ### Runs -/

/-- The passes of the operation drop no carry. -/
def Op.Carries (cmp : T → T → Bool) (fs : Groves T) : Op T → Prop
  | .merge i j => ∀ f g, fs[i]? = some (some f) → fs[j]? = some (some g) →
    Degrees.Carries (f.degrees ++ g.degrees)
  | .pop i => ∀ l m s, fs[i]? = some (some (.ofRoots (l ++ m :: s))) →
    Tops cmp m.key (Forest.ofRoots (l ++ m :: s)).keys → (∀ r ∈ l, cmp r.key m.key = true) →
    Degrees.Adopts m.degree (Forest.ofRoots (l ++ s)).degrees
  | _ => True

/-- All trees of all queues have their shape. -/
def Shapely (fs : Groves T) : Prop := ∀ f, some f ∈ fs → f.Shaped

theorem Shapely.set (h : Shapely fs) (i : ℕ) {f : Option (Forest T)}
    (hf : ∀ g, f = some g → g.Shaped) : Shapely (fs.set i f) := by
  intro g hg
  rcases List.mem_or_eq_of_mem_set hg with hg | rfl
  · exact h g hg
  · exact hf g rfl

theorem Shapely.of_getElem? {i : ℕ} {f : Forest T} (h : Shapely fs) (hi : fs[i]? = some (some f)) :
    f.Shaped := h f (List.mem_of_getElem? hi)

theorem Makes.shapely {op : Op T} {a : Answer T} (h : Makes cmp fs op a fs') (hop : ¬op.Copies)
    (hcarries : op.Carries cmp fs) (hfs : Shapely fs) : Shapely fs' := by
  cases h with
  | create =>
    intro f hf
    rcases List.mem_append.mp hf with hf | hf
    · exact hfs f hf
    · obtain rfl : f = .nil := by simpa using hf
      exact .nil
  | push a hf =>
    apply hfs.set
    rintro _ ⟨⟩
    exact (hfs.of_getElem? hf).push a _
  | pop hf htops hfirst =>
    apply hfs.set
    rintro _ ⟨⟩
    exact (hfs.of_getElem? hf).pop (hcarries _ _ _ hf htops hfirst)
  | merge hij hf hg =>
    refine (hfs.set _ ?_).set _ ?_
    all_goals rintro _ ⟨⟩
    · exact (hfs.of_getElem? hf).merge (hfs.of_getElem? hg) (hcarries _ _ hf hg)
    · exact .nil
  | copy hf hkeys => exact absurd trivial hop
  | assign hf hg hkeys => exact absurd trivial hop
  | destroy hf =>
    apply hfs.set
    rintro _ ⟨⟩
  | _ => exact hfs

theorem exec_shapely (hcmp : StrictWeak cmp) {ops : List (Op T)} (hops : ∀ op ∈ ops, ¬op.Copies)
    (h : (machine cmp).Along (fun w op => op.Fits w ∧ ∀ fs, ShowsTrees cmp w fs →
      op.Carries cmp fs) World.start ops) :
    ∃ w fs, (machine cmp).exec World.start ops = some w ∧ ShowsTrees cmp w fs ∧ Shapely fs := by
  induction ops using List.reverseRecOn with
  | nil => exact ⟨World.start, [], rfl, Kind.Shows.empty, fun f hf => absurd hf List.not_mem_nil⟩
  | append_singleton ops op ih =>
    obtain ⟨hall, hlast⟩ := Machine.along_concat.mp h
    obtain ⟨hops, hop⟩ := List.forall_mem_append.mp hops
    have hop := hop op List.mem_cons_self
    obtain ⟨w, fs, hexec, hw, hshapely⟩ := ih hops hall
    obtain ⟨hfits, hcarries⟩ := hlast w hexec
    obtain ⟨w', a, fs', hstep, -, hmakes, hw'⟩ :=
      step_grows hcmp hw hfits (safe_of_not_copies hop w)
    refine ⟨w', fs', ?_, hw', hmakes.shapely hop (hcarries fs hw) hshapely⟩
    rw [Machine.exec_concat, hexec]
    exact hstep

/-- The operations leave trees of increasing degrees, binomial, each of `2 ^ k` nodes,
so that there are few of them. -/
def Shapes (cmp : T → T → Bool) (ops : List (Op T)) : Prop :=
  ∃ w fs, (machine cmp).exec World.start ops = some w ∧ ShowsTrees cmp w fs ∧
    ∀ f, some f ∈ fs → f.Shaped ∧ (∀ r ∈ f.roots, r.child.keys.card + 1 = 2 ^ r.degree) ∧
      f.roots.length ≤ Nat.log2 f.keys.card + 1

/-- Where no carry is dropped the trees keep their shapes. -/
theorem shapes_of_carries (hcmp : StrictWeak cmp) {ops : List (Op T)}
    (hops : ∀ op ∈ ops, ¬op.Copies)
    (h : (machine cmp).Along (fun w op => op.Fits w ∧ ∀ fs, ShowsTrees cmp w fs →
      op.Carries cmp fs) World.start ops) : Shapes cmp ops := by
  obtain ⟨w, fs, hexec, hw, hshapely⟩ := exec_shapely hcmp hops h
  refine ⟨w, fs, hexec, hw, fun f hf => ?_⟩
  have hshaped := hshapely f hf
  exact ⟨hshaped, hshaped.binomial.card_child, hshaped.length_roots_le⟩

/-! ### Runs without `pop` -/

/-- The degrees of the trees of the queues. -/
def degrees (fs : Groves T) : List (Option (List ℕ)) := fs.map (Option.map Forest.degrees)

/-- What `create`, `push` and `merge` make of the degrees. -/
def growths : Machine (List (Option (List ℕ))) (Op T) where
  step ds op :=
    match op with
    | .create => some (ds ++ [some []])
    | .push i _ => do
      let d ← ds[i]?.join
      some (ds.set i (some (Degrees.pass (d.merge [0]))))
    | .merge i j => do
      let d ← ds[i]?.join
      let e ← ds[j]?.join
      if i = j then none
      else some ((ds.set i (some (Degrees.pass (d.merge e)))).set j (some []))
    | _ => none

theorem degrees_set (fs : Groves T) (i : ℕ) (f : Option (Forest T)) :
    degrees (fs.set i f) = (degrees fs).set i (f.map Forest.degrees) := List.map_set

theorem exists_of_degrees {i : ℕ} {d : List ℕ} (h : (degrees fs)[i]?.join = some d) :
    ∃ f, fs[i]? = some (some f) ∧ f.degrees = d := by
  rw [degrees, List.getElem?_map, Option.join_eq_some_iff, Option.map_eq_some_iff] at h
  obtain ⟨f, hf, heq⟩ := h
  obtain ⟨f, rfl, rfl⟩ := Option.map_eq_some_iff.mp heq
  exact ⟨f, hf, rfl⟩

theorem degrees_of_getElem? {i : ℕ} {f : Forest T} (h : fs[i]? = some (some f)) :
    (degrees fs)[i]? = some (some f.degrees) := by
  rw [degrees, List.getElem?_map, h]
  rfl

/-- The operation makes of the degrees what `growths` does. -/
theorem Makes.degrees {op : Op T} {a : Answer T} {ds : List (Option (List ℕ))}
    (h : Makes cmp fs op a fs') (hds : growths.step (degrees fs) op = some ds) :
    PriorityQueue.degrees fs' = ds := by
  cases h with
  | create =>
    obtain rfl := Option.some.inj hds
    simp [PriorityQueue.degrees, Forest.degrees]
  | push a hf =>
    simp only [growths, degrees_of_getElem? hf, Option.join_some, Option.bind_eq_bind,
      Option.bind_some, Option.some.injEq] at hds
    rw [← hds, degrees_set, Option.map_some, Forest.degrees_mergeTrees, Forest.degrees_link]
    rfl
  | merge hij hf hg =>
    simp only [growths, degrees_of_getElem? hf, degrees_of_getElem? hg, Option.join_some,
      Option.bind_eq_bind, Option.bind_some, if_neg hij, Option.some.injEq] at hds
    rw [← hds, degrees_set, degrees_set, Option.map_some, Forest.degrees_mergeTrees,
      Forest.degrees_link]
    rfl
  | _ => cases hds

theorem fits_of_growths {op : Op T} {ds : List (Option (List ℕ))} (hw : ShowsTrees cmp w fs)
    (hds : growths.step (degrees fs) op = some ds) : op.Fits w ∧ ¬op.Copies := by
  cases op with
  | create => exact ⟨trivial, id⟩
  | push i e =>
    obtain ⟨d, hd, -⟩ := Option.bind_eq_some_iff.mp hds
    obtain ⟨f, hf, -⟩ := exists_of_degrees hd
    exact ⟨hw.isSome hf, id⟩
  | merge i j =>
    obtain ⟨d, hd, hrest⟩ := Option.bind_eq_some_iff.mp hds
    obtain ⟨e, he, hrest⟩ := Option.bind_eq_some_iff.mp hrest
    obtain ⟨f, hf, -⟩ := exists_of_degrees hd
    obtain ⟨g, hg, -⟩ := exists_of_degrees he
    have hij : i ≠ j := by
      intro heq
      rw [if_pos heq] at hrest
      cases hrest
    exact ⟨⟨hw.isSome hf, hw.isSome hg, hij⟩, id⟩
  | _ => cases hds

theorem exec_growths (hcmp : StrictWeak cmp) {ops : List (Op T)} {ds : List (Option (List ℕ))}
    (hds : growths.exec [] ops = some ds) : (∀ op ∈ ops, ¬op.Copies) ∧
      (machine cmp).Along (fun w op => op.Fits w) World.start ops ∧
      ∃ w fs, (machine cmp).exec World.start ops = some w ∧ ShowsTrees cmp w fs ∧
        degrees fs = ds := by
  induction ops using List.reverseRecOn generalizing ds with
  | nil =>
    obtain rfl := Option.some.inj hds
    refine ⟨fun op hop => absurd hop List.not_mem_nil, Machine.along_nil, ?_⟩
    exact ⟨World.start, [], rfl, Kind.Shows.empty, rfl⟩
  | append_singleton ops op ih =>
    rw [Machine.exec_concat] at hds
    obtain ⟨ds', hds', hstep⟩ := Option.bind_eq_some_iff.mp hds
    obtain ⟨hops, halong, w, fs, hexec, hw, rfl⟩ := ih hds'
    obtain ⟨hfits, hop⟩ := fits_of_growths hw hstep
    obtain ⟨w', a, fs', hrun, -, hmakes, hw'⟩ :=
      step_grows hcmp hw hfits (safe_of_not_copies hop w)
    refine ⟨List.forall_mem_append.mpr ⟨hops, ?_⟩, Machine.along_concat.mpr ⟨halong, ?_⟩, ?_⟩
    · simpa using hop
    · intro t ht
      obtain rfl : w = t := Option.some.inj (hexec.symm.trans ht)
      exact hfits
    · refine ⟨w', fs', ?_, hw', hmakes.degrees hstep⟩
      rw [Machine.exec_concat, hexec]
      exact hrun

/-- Queues of two elements and of one element. -/
def twoOne : List (Op ℕ) := [.create, .push 0 5, .push 0 8, .create, .push 1 7]

theorem exec_twoOne : growths.exec [] twoOne = some [some [1], some [0]] := by
  simp [twoOne, Machine.exec, growths, Degrees.pass, Degrees.front, Degrees.tail, Degrees.rest]

theorem exec_twoOne_merge :
    growths.exec [] (twoOne ++ [.merge 0 1]) = some [some [0, 1], some []] := by
  rw [Machine.exec_concat, exec_twoOne]
  simp [growths, Degrees.pass, Degrees.front, Degrees.tail, Degrees.rest]

theorem shapes_twoOne_pop : Shapes less ((twoOne ++ [.merge 0 1]) ++ [.pop 0]) := by
  apply shapes_of_carries less_strictWeak
  · simp [twoOne, Op.Copies]
  obtain ⟨-, hfits, -⟩ := exec_growths less_strictWeak exec_twoOne_merge
  refine Machine.along_concat.mpr ⟨Machine.along_concat.mpr ⟨?_, fun w hw => ?_⟩, fun w hw => ?_⟩
  · -- `create` and `push` drop no carry
    intro pre op post w heq hw
    refine ⟨hfits pre op (post ++ [.merge 0 1]) w (by simp [heq]) hw, fun fs _ => ?_⟩
    have hmem : op ∈ twoOne := heq ▸ List.mem_append_right pre List.mem_cons_self
    simp only [twoOne, List.mem_cons, List.not_mem_nil, or_false] at hmem
    rcases hmem with rfl | rfl | rfl | rfl | rfl
    all_goals trivial
  · obtain ⟨-, -, w', fs, hexec, hshows, hds⟩ := exec_growths less_strictWeak exec_twoOne
    obtain rfl : w = w' := Option.some.inj (hw.symm.trans hexec)
    refine ⟨hfits twoOne (.merge 0 1) [] w rfl hw, fun fs' hfs' f g hf hg => ?_⟩
    obtain rfl := hshows.unique hfs'
    have hdf := degrees_of_getElem? hf
    have hdg := degrees_of_getElem? hg
    rw [hds] at hdf hdg
    simp only [List.getElem?_cons_zero, List.getElem?_cons_succ, Option.some.injEq] at hdf hdg
    rw [← hdf, ← hdg]
    refine ⟨0, fun k hk hk2 => ?_, fun m hm hle => ?_⟩
    · have htwo : ([1] ++ [0] : List ℕ).count k ≤ 1 := by
        simp only [List.cons_append, List.nil_append, List.count_cons, List.count_nil]
        grind
      omega
    · obtain rfl : m = 0 := Nat.le_zero.mp (hle 0 (by simp))
      exact .inl ⟨rfl, rfl⟩
  · obtain ⟨-, -, w', fs, hexec, hshows, hds⟩ := exec_growths less_strictWeak exec_twoOne_merge
    obtain rfl : w = w' := Option.some.inj (hw.symm.trans hexec)
    have hfirst : (degrees fs)[0]?.join = some [0, 1] := by rw [hds]; rfl
    obtain ⟨f, hf, hdf⟩ := exists_of_degrees hfirst
    refine ⟨hshows.isSome hf, fun fs' hfs' l m s hm _ _ e _ he => ?_⟩
    obtain rfl := hshows.unique hfs'
    obtain rfl : f = .ofRoots (l ++ m :: s) := by simpa [hf] using hm
    -- no root has a degree above 1
    have hmem : m.degree ∈ [0, 1] := by
      rw [← hdf, Forest.degrees_ofRoots]
      exact List.mem_map_of_mem (List.mem_append_right l List.mem_cons_self)
    simp only [List.mem_cons, List.not_mem_nil, or_false] at hmem
    omega

/-- Two queues of three elements each become one, of trees of degrees 2 and 1. -/
def threes : List (Op ℕ) :=
  [.create, .push 0 1, .push 0 2, .push 0 3, .create, .push 1 4, .push 1 5, .push 1 6, .merge 0 1]

theorem exec_threes : growths.exec [] threes = some [some [2, 1], some []] := by
  simp [threes, Machine.exec, growths, Degrees.pass, Degrees.front, Degrees.tail, Degrees.rest]

theorem not_shapes_threes : ¬∀ ops : List (Op ℕ), (∀ op ∈ ops, ¬op.Copies) →
    (machine less).Along (fun w op => op.Fits w) World.start ops → Shapes less ops := by
  intro h
  obtain ⟨hops, halong, w, fs, hexec, hw, hds⟩ := exec_growths less_strictWeak exec_threes
  obtain ⟨w', fs', hexec', hw', hshaped⟩ := h threes hops halong
  obtain rfl : w = w' := Option.some.inj (hexec.symm.trans hexec')
  obtain rfl := hw.unique hw'
  have hfirst : (degrees fs)[0]?.join = some [2, 1] := by rw [hds]; rfl
  obtain ⟨f, hf, heq⟩ := exists_of_degrees hfirst
  have hincreasing := (hshaped f (List.mem_of_getElem? hf)).1.increasing
  rw [heq] at hincreasing
  exact absurd hincreasing (by decide)

end Course.Stl.PriorityQueue
