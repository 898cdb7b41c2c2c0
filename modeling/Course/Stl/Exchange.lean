import Course.Stl.Rotation

/-! The exchange of two nodes of an STLite map, which moves the nodes and not their
values. -/

open Course.Lib Heap RedBlack

namespace Course.Stl.Map

variable {K V : Type} {Q : Unit → Heap (Node K V) → Prop} {h : Heap (Node K V)}
  {l : List (ℕ × Node K V)} {F : Multiset (ℕ × Node K V)} {base : Base}
  {ctx : Context (Item K V)} {s : Side} {c d : Color} {a b u : CTree (Item K V)} {x y : Item K V}
  {p : ℕ} {n : Node K V} {up up' : Ptr} {M N : Ptr → Multiset (ℕ × Node K V)}

/-! ### Nodes below a pointer -/

/-- The nodes `M up` hang below `up` at the pointer. -/
inductive Hangs (M : Ptr → Multiset (ℕ × Node K V)) : Ptr → Prop
  | null (up : Ptr) : (∀ up', M up' = M up) → Hangs M none
  | node {p : ℕ} {n : Node K V} {R : Multiset (ℕ × Node K V)} :
    (∀ up, M up = {(p, n.setParent up)} + R) → Hangs M (some p)

theorem hangs_cells (t : CTree (Item K V)) : Hangs (fun up => cells up t) (ptr t) := by
  cases t with
  | nil => exact .null none fun _ => rfl
  | node c l x r => exact .node (n := ⟨some x.2, c, none, ptr l, ptr r⟩) fun _ => rfl

theorem Hangs.wp_reparent {p : Ptr} (hM : Hangs M p) (hs : Holds h l (M up + F))
    (hQ : ∀ h', Holds h' l (M up' + F) → Q () h') : wp (reparent p up') Q h := by
  cases hM with
  | null up₀ heq =>
    rw [reparent, wp_when_neg fun hne => hne rfl]
    rw [heq up, ← heq up'] at hs
    exact hQ h hs
  | @node p n R heq =>
    have hs' : Holds h ((p, n.setParent up) :: l) (R + F) := by
      apply hs.congr
      rw [heq, ← Multiset.cons_coe, ← Multiset.singleton_add]
      abel
    have hset : (n.setParent up).setParent up' = n.setParent up' := rfl
    apply wp_assign hs' 0 rfl hset
    intro h' hs''
    apply hQ
    apply hs''.congr
    rw [heq, List.set_cons_zero, ← Multiset.cons_coe, ← Multiset.singleton_add]
    abel

/-- `reparentChildren` for one side. -/
theorem wp_reparentOne (i : ℕ) (hs : Holds h l (M up + F)) (hi : l[i]? = some (p, n))
    (hM : Hangs M (n.child s)) (hQ : ∀ h', Holds h' l (M up' + F) → Q () h') :
    wp (reparentChildren (s = .left) (s = .right) (some p) up') Q h := by
  simp only [reparentChildren, wp_bind]
  apply wp_deref hs i hi
  cases s with
  | left =>
    rw [wp_when_pos (by decide)]
    apply hM.wp_reparent hs
    intro h hs
    apply wp_deref hs i hi
    rw [wp_when_neg (by decide)]
    exact hQ h hs
  | right =>
    rw [wp_when_neg (by decide)]
    apply wp_deref hs i hi
    rw [wp_when_pos (by decide)]
    exact hM.wp_reparent hs hQ

theorem wp_reparentBoth (i : ℕ) (hs : Holds h l (M up + N up + F)) (hi : l[i]? = some (p, n))
    (hM : Hangs M (n.child s)) (hN : Hangs N (n.child s.other))
    (hQ : ∀ h', Holds h' l (M up' + N up' + F) → Q () h') :
    wp (reparentChildren true true (some p) up') Q h := by
  simp only [reparentChildren, wp_bind]
  apply wp_deref hs i hi
  rw [wp_when_pos rfl]
  cases s with
  | left =>
    rw [add_assoc] at hs
    apply hM.wp_reparent hs
    intro h hs
    apply wp_deref hs i hi
    rw [wp_when_pos rfl]
    rw [add_left_comm] at hs
    apply hN.wp_reparent hs
    intro h hs
    apply hQ
    rwa [add_left_comm, ← add_assoc] at hs
  | right =>
    rw [add_assoc, add_left_comm] at hs
    apply hN.wp_reparent hs
    intro h hs
    apply wp_deref hs i hi
    rw [wp_when_pos rfl]
    rw [add_left_comm] at hs
    apply hM.wp_reparent hs
    intro h hs
    apply hQ
    rwa [← add_assoc] at hs

theorem wp_exchange {i j : ℕ} {n' m m' : Node K V} {p' : ℕ} (hs : Holds h l F) (hij : i ≠ j)
    (hi : l[i]? = some (p, n)) (hj : l[j]? = some (p', m)) (hn : n.setChild (m.child s) s = n')
    (hm : m.setChild (n.child s) s = m')
    (hQ : ∀ h', Holds h' ((l.set i (p, n')).set j (p', m')) F → Q () h') :
    wp (exchange s (some p) (some p')) Q h := by
  simp only [exchange, wp_bind]
  apply wp_deref hs i hi
  apply wp_deref hs j hj
  apply wp_assign hs i hi hn
  intro h hs
  apply wp_assign hs j _ hm hQ
  rw [List.getElem?_set_ne hij, hj]

/-- On which side of its parent a node is, as it is tested. -/
theorem child_iff (val : Option (K × V)) (c : Color) (up : Ptr) (s : Side) {p far : Ptr}
    (hne : far ≠ p) (s' : Side) : p = (Node.sided val c up p far s).child s' ↔ s = s' := by
  cases s <;> cases s' <;> simp [Node.sided, Node.child, hne.symm]

theorem side_of_tests : (if decide (s = .left) = true then Side.left else .right) = s := by
  cases s <;> rfl

/-- Two nodes exchange their colors, and the second takes the place of the first below
its parent. -/
theorem wp_replace {near far py : Ptr}
    (hs : Holds h [(x.1, .sided (some x.2) c (some (base.parent ctx)) near far s),
      (y.1, .sided (some y.2) d py (ptr a) (ptr b) s)]
      (base.hole ctx (some x.1) + (cells (some y.1) a + cells (some y.1) b + F)))
    (hQ : ∀ h', Holds h' [(x.1, .sided (some x.2) d (some (base.parent ctx)) near far s),
      (y.1, .sided (some y.2) c py (ptr a) (ptr b) s)]
      (base.hole ctx (some y.1) + (cells (some x.1) a + cells (some x.1) b + F)) → Q () h') :
    wp (deref (some x.1)) (fun n => wp (deref (some y.1)) fun m =>
      wp (paint (some x.1) m.color) fun _ => wp (paint (some y.1) n.color) fun _ =>
      wp (relink (some x.1) (some y.1)) fun _ =>
      wp (reparentChildren true true (some y.1) (some x.1)) Q) h := by
  apply wp_deref hs 0 rfl
  apply wp_deref hs 1 rfl
  rw [color_sided, color_sided]
  apply wp_assign hs 0 rfl (setColor_sided ..)
  intro h hs
  apply wp_assign hs 1 rfl (setColor_sided ..)
  intro h hs
  apply wp_relink hs 0 rfl (parent_sided ..)
  intro h hs
  rw [add_left_comm] at hs
  apply wp_reparentBoth (s := s) (M := fun up => cells up a) (N := fun up => cells up b) 1 hs rfl
  · rw [child_sided]
    exact hangs_cells a
  · rw [child_other_sided]
    exact hangs_cells b
  intro h hs
  apply hQ
  rwa [add_left_comm] at hs

/-! ### Neighbours -/

theorem wp_swap_adjacent (hs : Holds h [] (base.shape ctx (.join s c (.join s d a y b) x u) + F))
    (hQ : ∀ h', Holds h' [] (base.shape ctx (.join s c (.join s d a x b) y u) + F) → Q () h') :
    wp (swap (some x.1) (some y.1)) Q h := by
  have hne : ptr u ≠ some y.1 := by
    have hs' := hs
    rw [← Base.shape_near] at hs'
    have hne := Base.ptr_sibling_ne hs' (CTree.join_ne_nil s d a y b)
    rwa [ptr_join] at hne
  have hs : Holds h [(x.1, .sided (some x.2) c (some (base.parent ctx)) (some y.1) (ptr u) s),
      (y.1, .sided (some y.2) d (some x.1) (ptr a) (ptr b) s)]
      (base.hole ctx (some x.1) + (cells (some y.1) a + cells (some y.1) b +
        (cells (some x.1) u + F))) := by
    apply hs.congr
    simp only [Base.shape, ptr_join, cells_join, ← Multiset.cons_coe, ← Multiset.singleton_add,
      Multiset.coe_nil]
    abel
  simp only [swap, wp_bind]
  apply wp_deref hs 1 rfl
  rw [parent_sided]
  apply wp_deref hs 0 rfl
  have hleft := child_iff (some x.2) c (some (base.parent ctx)) s hne .left
  have hright := child_iff (some x.2) c (some (base.parent ctx)) s hne .right
  simp only [Node.child] at hleft hright
  simp only [hleft, hright, side_of_tests]
  apply wp_replace hs
  intro h hs
  have hs : Holds h [(x.1, .sided (some x.2) d (some (base.parent ctx)) (some y.1) (ptr u) s),
      (y.1, .sided (some y.2) c (some x.1) (ptr a) (ptr b) s)]
      (cells (some x.1) u + (base.hole ctx (some y.1) + cells (some x.1) a +
        cells (some x.1) b + F)) := by
    apply hs.congr
    abel
  have hother : (s = .right ↔ s.other = .left) ∧ (s = .left ↔ s.other = .right) := by
    cases s <;> decide
  simp only [hother]
  apply wp_reparentOne (s := s.other) (M := fun up => cells up u) 0 hs rfl
  · rw [child_other_sided]
    exact hangs_cells u
  intro h hs
  apply wp_exchange (i := 0) (j := 1) hs (by decide) rfl rfl
  · rw [child_other_sided, setChild_other_sided]
  · rw [child_other_sided, setChild_other_sided]
  intro h hs
  apply wp_deref hs 1 rfl
  rw [parent_sided, if_pos rfl]
  simp only [swapAdjacent, wp_bind]
  apply wp_deref hs 1 rfl
  rw [child_sided]
  apply wp_assign hs 0 rfl (setChild_sided ..)
  intro h hs
  apply wp_assign hs 1 rfl (setChild_sided ..)
  intro h hs
  apply wp_deref hs 0 rfl
  rw [parent_sided]
  apply wp_assign hs 1 rfl (setParent_sided ..)
  intro h hs
  apply wp_assign hs 0 rfl (setParent_sided ..)
  intro h hs
  apply hQ
  apply hs.congr
  simp only [Base.shape, ptr_join, cells_join, List.set_cons_zero, List.set_cons_succ,
    ← Multiset.cons_coe, ← Multiset.singleton_add, Multiset.coe_nil]
  abel

/-! ### A path between them -/

/-- The node above the end of a path that hangs below `up`. -/
def above (up : Ptr) : Context (Item K V) → Ptr
  | [] => up
  | f :: _ => some f.item.1

/-- The topmost node of a path that ends at `p`. -/
def topmost : Context (Item K V) → Ptr → Ptr
  | [], p => p
  | f :: mid, _ => topmost mid (some f.item.1)

/-- The nodes of a path below `up` that ends at `p`, and those of the subtrees beside it. -/
def path (up : Ptr) : Context (Item K V) → Ptr → Multiset (ℕ × Node K V)
  | [], _ => 0
  | f :: mid, p =>
    {(f.item.1, .sided (some f.item.2) f.color (above up mid) p (ptr f.sibling) f.side)} +
      (cells (some f.item.1) f.sibling + path up mid (some f.item.1))

variable {f : Frame (Item K V)} {mid : Context (Item K V)} {t : CTree (Item K V)}

theorem ptr_plug (mid : Context (Item K V)) (t : CTree (Item K V)) :
    ptr (Context.plug mid t) = topmost mid (ptr t) := by
  induction mid generalizing t with
  | nil => rfl
  | cons f mid ih => rw [Context.plug, ih, Frame.attach, ptr_join, topmost]

theorem cells_plug (up : Ptr) (mid : Context (Item K V)) (t : CTree (Item K V)) :
    cells up (Context.plug mid t) = path up mid (ptr t) + cells (above up mid) t := by
  induction mid generalizing t with
  | nil => exact (zero_add _).symm
  | cons f mid ih =>
    rw [Context.plug, ih, Frame.attach, ptr_join, cells_join, path, above]
    abel

theorem exists_topmost (f : Frame (Item K V)) (mid : Context (Item K V)) (p : Ptr) :
    ∃ q n R, topmost (f :: mid) p = some q ∧
      ∀ up, path up (f :: mid) p = {(q, Node.setParent n up)} + R := by
  induction mid generalizing f p with
  | nil =>
    refine ⟨f.item.1, .sided (some f.item.2) f.color none p (ptr f.sibling) f.side,
      cells (some f.item.1) f.sibling + 0, rfl, fun up => ?_⟩
    rw [setParent_sided]
    rfl
  | cons g mid ih =>
    obtain ⟨q, n, R, htop, hpath⟩ := ih g (some f.item.1)
    refine ⟨q, n, {(f.item.1, .sided (some f.item.2) f.color (some g.item.1) p (ptr f.sibling)
      f.side)} + (cells (some f.item.1) f.sibling + R), htop, fun up => ?_⟩
    rw [path, hpath, above]
    abel

theorem hangs_path (f : Frame (Item K V)) (mid : Context (Item K V)) (p : Ptr) :
    Hangs (fun up => path up (f :: mid) p) (topmost (f :: mid) p) := by
  obtain ⟨q, n, R, htop, hpath⟩ := exists_topmost f mid p
  rw [htop]
  exact .node hpath

/-- The end of a path, apart from the other nodes. -/
theorem holds_path : Holds h l (path up (f :: mid) (some p) + F) ↔
    Holds h ((f.item.1, .sided (some f.item.2) f.color (above up mid) (some p) (ptr f.sibling)
      f.side) :: l) (cells (some f.item.1) f.sibling + path up mid (some f.item.1) + F) := by
  constructor <;> intro hs <;> apply hs.congr <;>
    rw [path, ← Multiset.cons_coe, ← Multiset.singleton_add] <;> abel

theorem wp_swap_apart (hside : f.side = s)
    (hs : Holds h [] (base.shape ctx
      (.join s c u x (Context.plug (f :: mid) (.join s d a y b))) + F))
    (hQ : ∀ h', Holds h' [] (base.shape ctx
      (.join s c u y (Context.plug (f :: mid) (.join s d a x b))) + F) → Q () h') :
    wp (swap (some x.1) (some y.1)) Q h := by
  have hother : (s = .right ↔ s.other = .left) ∧ (s = .left ↔ s.other = .right) := by
    cases s <;> decide
  have hs : Holds h [(x.1, .sided (some x.2) c (some (base.parent ctx)) (ptr u)
        (topmost (f :: mid) none) s),
      (y.1, .sided (some y.2) d (some f.item.1) (ptr a) (ptr b) s)]
      (path (some x.1) (f :: mid) (some y.1) + (base.hole ctx (some x.1) + (cells (some y.1) a +
        cells (some y.1) b + cells (some x.1) u + F))) := by
    apply hs.congr
    simp only [Base.shape, ptr_join, cells_join, cells_plug, ptr_plug, topmost, above,
      ← Multiset.cons_coe, ← Multiset.singleton_add, Multiset.coe_nil]
    abel
  have hne : ptr f.sibling ≠ some y.1 := by
    have hsub : cells (some f.item.1) f.sibling ⊆ path (some x.1) (f :: mid) (some y.1) +
        (base.hole ctx (some x.1) + (cells (some y.1) a + cells (some y.1) b +
          cells (some x.1) u + F)) := fun c hc => by simp [path, hc]
    exact ptr_ne (i := 1) hs rfl hsub
  have hx : f.item.1 ≠ x.1 := (holds_path.mp hs).ne (i := 1) (j := 0) rfl rfl (by decide)
  simp only [swap, wp_bind]
  apply wp_deref hs 1 rfl
  rw [parent_sided]
  apply wp_deref (holds_path.mp hs) 0 rfl
  have hleft := child_iff (some f.item.2) f.color (above (some x.1) mid) f.side hne .left
  have hright := child_iff (some f.item.2) f.color (above (some x.1) mid) f.side hne .right
  simp only [Node.child, hside] at hleft hright
  simp only [hside, hleft, hright, side_of_tests]
  have hs : Holds h [(x.1, .sided (some x.2) c (some (base.parent ctx)) (ptr u)
        (topmost (f :: mid) none) s),
      (y.1, .sided (some y.2) d (some f.item.1) (ptr a) (ptr b) s)]
      (base.hole ctx (some x.1) + (cells (some y.1) a + cells (some y.1) b +
        (path (some x.1) (f :: mid) (some y.1) + cells (some x.1) u + F))) := by
    apply hs.congr
    abel
  apply wp_replace hs
  intro h hs
  have hs : Holds h [(x.1, .sided (some x.2) d (some (base.parent ctx)) (ptr u)
        (topmost (f :: mid) none) s),
      (y.1, .sided (some y.2) c (some f.item.1) (ptr a) (ptr b) s)]
      (path (some x.1) (f :: mid) (some y.1) + (base.hole ctx (some y.1) + cells (some x.1) a +
        cells (some x.1) b + cells (some x.1) u + F)) := by
    apply hs.congr
    abel
  simp only [hother]
  apply wp_reparentOne (s := s.other) (M := fun up => path up (f :: mid) (some y.1)) 0 hs rfl
  · rw [child_other_sided]
    exact hangs_path f mid (some y.1)
  intro h hs
  apply wp_exchange (i := 0) (j := 1) hs (by decide) rfl rfl
  · rw [child_other_sided, setChild_other_sided]
  · rw [child_other_sided, setChild_other_sided]
  intro h hs
  apply wp_deref hs 1 rfl
  rw [parent_sided, if_neg fun heq => hx (Option.some.inj heq)]
  simp only [swapApart, wp_bind, ← hother.1, ← hother.2]
  have hs : Holds h [(x.1, .sided (some x.2) d (some (base.parent ctx)) (ptr u) (ptr b) s),
      (y.1, .sided (some y.2) c (some f.item.1) (ptr a) (topmost (f :: mid) none) s)]
      (cells (some x.1) u + (base.hole ctx (some y.1) + cells (some x.1) a +
        cells (some x.1) b + path (some y.1) (f :: mid) (some y.1) + F)) := by
    apply hs.congr
    simp only [List.set_cons_zero, List.set_cons_succ]
    abel
  apply wp_reparentOne (s := s) (M := fun up => cells up u) 0 hs rfl
  · rw [child_sided]
    exact hangs_cells u
  intro h hs
  apply wp_deref hs 1 rfl
  rw [parent_sided]
  have hs : Holds h [(x.1, .sided (some x.2) d (some (base.parent ctx)) (ptr u) (ptr b) s),
      (y.1, .sided (some y.2) c (some f.item.1) (ptr a) (topmost (f :: mid) none) s)]
      (path (some y.1) (f :: mid) (some y.1) + (base.hole ctx (some y.1) + cells (some x.1) a +
        cells (some x.1) b + cells (some y.1) u + F)) := by
    apply hs.congr
    abel
  subst hside
  apply wp_assign (holds_path.mp hs) 0 rfl (setChild_sided ..)
  intro h hs
  have hs := holds_path.mpr hs
  apply wp_deref hs 0 rfl
  apply wp_deref hs 1 rfl
  rw [parent_sided, parent_sided]
  apply wp_assign hs 0 rfl (setParent_sided ..)
  intro h hs
  apply wp_assign hs 1 rfl (setParent_sided ..)
  intro h hs
  apply wp_exchange (i := 0) (j := 1) hs (by decide) rfl rfl
  · rw [child_sided, setChild_sided]
  · rw [child_sided, setChild_sided]
  intro h hs
  apply hQ
  apply hs.congr
  simp only [Base.shape, ptr_join, cells_join, cells_plug, ptr_plug, topmost, above,
    List.set_cons_zero, List.set_cons_succ, ← Multiset.cons_coe, ← Multiset.singleton_add,
    Multiset.coe_nil]
  abel

end Course.Stl.Map
