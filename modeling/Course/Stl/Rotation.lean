import Course.Stl.MapShape

/-! What the rotations of the STLite map do to the tree in memory. -/

open Course.Lib Heap RedBlack

namespace Course.Stl.Map

variable {K V : Type} {Q : Unit → Heap (Node K V) → Prop} {h : Heap (Node K V)}
  {l : List (ℕ × Node K V)} {F : Multiset (ℕ × Node K V)} {base : Base}
  {ctx : Context (Item K V)} {a : ℕ} {n : Node K V} {up up' p : Ptr}

theorem wp_reparent {t : CTree (Item K V)} (hs : Holds h l (cells up t + F))
    (hQ : ∀ h', Holds h' l (cells up' t + F) → Q () h') : wp (reparent (ptr t) up') Q h := by
  cases t with
  | nil =>
    have hnull : ¬ptr (.nil : CTree (Item K V)) ≠ none := fun hne => hne rfl
    rw [reparent, wp_when_neg hnull]
    exact hQ h hs
  | node c left x right =>
    have hs' : Holds h ((x.1, ⟨some x.2, c, up, ptr left, ptr right⟩) :: l)
        (cells (some x.1) left + cells (some x.1) right + F) := by
      apply hs.congr
      simp only [cells, ← Multiset.cons_coe, ← Multiset.singleton_add]
      abel
    apply wp_assign hs' 0 rfl
      (show _ = (⟨some x.2, c, up', ptr left, ptr right⟩ : Node K V) from rfl)
    intro h' hs''
    apply hQ
    apply hs''.congr
    simp only [cells, List.set_cons_zero, ← Multiset.cons_coe, ← Multiset.singleton_add]
    abel

theorem wp_relink (hs : Holds h l (base.hole ctx (some a) + F)) (i : ℕ)
    (hi : l[i]? = some (a, n)) (hn : n.parent = some (base.parent ctx))
    (hQ : ∀ h', Holds h' l (base.hole ctx p + F) → Q () h') : wp (relink (some a) p) Q h := by
  have hs' := Base.holds_hole.mp hs
  simp only [relink, wp_bind]
  apply wp_deref hs' (i + 1) hi
  rw [hn]
  cases ctx with
  | nil =>
    apply wp_deref hs' 0 rfl
    simp only [if_pos]
    exact Base.wp_fill_head hs hQ
  | cons f ctx =>
    apply wp_deref hs' 0 rfl
    have hside : (if some a = (Node.sided (some f.item.2) f.color (some (base.parent ctx)) (some a)
        (ptr f.sibling) f.side).left then Side.left else .right) = f.side := by
      have hsub : cells (some f.item.1) f.sibling ⊆ base.rest (f :: ctx) + F := fun c hc => by
        simp [Base.rest, hc]
      have hne := ptr_ne (i := i + 1) hs' hi hsub
      cases hf : f.side with
      | left => exact if_pos rfl
      | right => exact if_neg hne.symm
    rw [hside]
    exact Base.wp_fill hs hQ

theorem wp_rotate {s : Side} {c₁ c₂ : Color} {x y : Item K V} {a b d : CTree (Item K V)}
    (hs : Holds h [] (base.shape ctx (.join s c₁ (.join s c₂ a y b) x d) + F))
    (hQ : ∀ h', Holds h' [] (base.shape ctx (.join s c₂ a y (.join s c₁ b x d)) + F) → Q () h') :
    wp (rotate s (some x.1) (some y.1)) Q h := by
  have hs : Holds h [(x.1, .sided (some x.2) c₁ (some (base.parent ctx)) (some y.1) (ptr d) s),
      (y.1, .sided (some y.2) c₂ (some x.1) (ptr a) (ptr b) s)]
      (base.hole ctx (some x.1) + (cells (some y.1) a + cells (some y.1) b +
        cells (some x.1) d + F)) := by
    apply hs.congr
    simp only [Base.shape, ptr_join, cells_join, ← Multiset.cons_coe, ← Multiset.singleton_add,
      Multiset.coe_nil]
    abel
  simp only [rotate, wp_bind]
  apply wp_relink hs 0 rfl (parent_sided ..)
  intro h hs
  apply wp_deref hs 0 rfl
  rw [parent_sided]
  apply wp_assign hs 1 rfl (setParent_sided ..)
  intro h hs
  apply wp_assign hs 0 rfl (setParent_sided ..)
  intro h hs
  apply wp_deref hs 1 rfl
  rw [child_other_sided]
  apply wp_assign hs 0 rfl (setChild_sided ..)
  intro h hs
  apply wp_assign hs 1 rfl (setChild_other_sided ..)
  intro h hs
  apply wp_deref hs 0 rfl
  rw [child_sided]
  have hs : Holds h [(x.1, .sided (some x.2) c₁ (some y.1) (ptr b) (ptr d) s),
      (y.1, .sided (some y.2) c₂ (some (base.parent ctx)) (ptr a) (some x.1) s)]
      (cells (some y.1) b +
        (base.hole ctx (some y.1) + cells (some y.1) a + cells (some x.1) d + F)) := by
    apply hs.congr
    simp only [List.set_cons_zero, List.set_cons_succ]
    abel
  apply wp_reparent hs
  intro h hs
  apply hQ
  apply hs.congr
  simp only [Base.shape, ptr_join, cells_join, ← Multiset.cons_coe, ← Multiset.singleton_add,
      Multiset.coe_nil]
  abel

theorem wp_doubleRotate {s : Side} {c₁ c₂ c₃ : Color} {x y z : Item K V}
    {a b d e : CTree (Item K V)}
    (hs : Holds h [] (base.shape ctx
      (.join s c₁ (.join s c₂ a y (.join s c₃ b z e)) x d) + F))
    (hQ : ∀ h', Holds h' [] (base.shape ctx
      (.join s c₃ (.join s c₂ a y b) z (.join s c₁ e x d)) + F) → Q () h') :
    wp (doubleRotate s (some x.1) (some y.1) (some z.1)) Q h := by
  have hs : Holds h [(x.1, .sided (some x.2) c₁ (some (base.parent ctx)) (some y.1) (ptr d) s),
      (y.1, .sided (some y.2) c₂ (some x.1) (ptr a) (some z.1) s),
      (z.1, .sided (some z.2) c₃ (some y.1) (ptr b) (ptr e) s)]
      (base.hole ctx (some x.1) + (cells (some y.1) a + cells (some z.1) b +
        cells (some z.1) e + cells (some x.1) d + F)) := by
    apply hs.congr
    simp only [Base.shape, ptr_join, cells_join, ← Multiset.cons_coe, ← Multiset.singleton_add,
      Multiset.coe_nil]
    abel
  simp only [doubleRotate, wp_bind]
  apply wp_assign hs 1 rfl (setParent_sided ..)
  intro h hs
  apply wp_assign hs 2 rfl (setParent_sided ..)
  intro h hs
  apply wp_assign hs 0 rfl (setChild_sided ..)
  intro h hs
  apply wp_deref hs 2 rfl
  rw [child_sided]
  apply wp_assign hs 1 rfl (setChild_other_sided ..)
  intro h hs
  apply wp_assign hs 2 rfl (setChild_sided ..)
  intro h hs
  apply wp_deref hs 1 rfl
  rw [child_other_sided]
  have hs : Holds h [(x.1, .sided (some x.2) c₁ (some (base.parent ctx)) (some z.1) (ptr d) s),
      (y.1, .sided (some y.2) c₂ (some z.1) (ptr a) (ptr b) s),
      (z.1, .sided (some z.2) c₃ (some x.1) (some y.1) (ptr e) s)]
      (cells (some z.1) b + (base.hole ctx (some x.1) + (cells (some y.1) a +
        cells (some z.1) e + cells (some x.1) d + F))) := by
    apply hs.congr
    simp only [List.set_cons_zero, List.set_cons_succ]
    abel
  apply wp_reparent hs
  intro h hs
  have hs : Holds h [] (base.shape ctx
      (.join s c₁ (.join s c₃ (.join s c₂ a y b) z e) x d) + F) := by
    apply hs.congr
    simp only [Base.shape, ptr_join, cells_join, ← Multiset.cons_coe, ← Multiset.singleton_add,
      Multiset.coe_nil]
    abel
  exact wp_rotate hs hQ

/-! The same from the other side. -/

theorem wp_rotate_far {s : Side} {c₁ c₂ : Color} {x y : Item K V} {a b d : CTree (Item K V)}
    (hs : Holds h [] (base.shape ctx (.join s c₁ d x (.join s c₂ b y a)) + F))
    (hQ : ∀ h', Holds h' [] (base.shape ctx (.join s c₂ (.join s c₁ d x b) y a) + F) → Q () h') :
    wp (rotate s.other (some x.1) (some y.1)) Q h := by
  rw [← CTree.join_other s c₁, ← CTree.join_other s c₂] at hs
  apply wp_rotate hs
  intro h' hs'
  apply hQ
  rwa [CTree.join_other, CTree.join_other] at hs'

theorem wp_doubleRotate_far {s : Side} {c₁ c₂ c₃ : Color} {x y z : Item K V}
    {a b d e : CTree (Item K V)}
    (hs : Holds h [] (base.shape ctx (.join s c₁ d x (.join s c₂ (.join s c₃ e z b) y a)) + F))
    (hQ : ∀ h', Holds h' [] (base.shape ctx
      (.join s c₃ (.join s c₁ d x e) z (.join s c₂ b y a)) + F) → Q () h') :
    wp (doubleRotate s.other (some x.1) (some y.1) (some z.1)) Q h := by
  rw [← CTree.join_other s c₁, ← CTree.join_other s c₂, ← CTree.join_other s c₃] at hs
  apply wp_doubleRotate hs
  intro h' hs'
  apply hQ
  rwa [CTree.join_other, CTree.join_other, CTree.join_other] at hs'

end Course.Stl.Map
