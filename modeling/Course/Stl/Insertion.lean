import Course.Stl.Rotation

/-! The repair of an STLite map after an insertion. -/

open Course.Lib Heap RedBlack

namespace Course.Stl.Map

variable {K V : Type} {Q : Unit → Heap (Node K V) → Prop} {h : Heap (Node K V)}
  {F : Multiset (ℕ × Node K V)} {base : Base} {up : Context (Item K V)} {s s₁ s₂ : Side}
  {c c₁ c₂ c₃ : Color} {t u d b e : CTree (Item K V)} {x y z : Item K V}

/-- `x` was rotated below `y`, so no case applies any more. -/
def Settled (h : Heap (Node K V)) (x y : ℕ) : Prop :=
  ∃ nx ny, h.cells x = some nx ∧ h.cells y = some ny ∧ ∀ s, nx.child s ≠ some y

theorem Settled.adjustLine (hs : Settled h x.1 y.1) {p : Ptr} (hQ : Q () h) :
    wp (adjustLine s (some x.1) (some y.1) p) Q h := by
  obtain ⟨nx, ny, hx, hy, hne⟩ := hs
  simp only [Map.adjustLine, wp_bind]
  apply wp_deref_of_cells hx
  apply wp_deref_of_cells hy
  rw [wp_when_neg fun hcase => hne s hcase.1.symm]
  exact hQ

theorem Settled.adjustBend (hs : Settled h x.1 y.1) {p : Ptr} (hQ : Q () h) :
    wp (adjustBend s (some x.1) (some y.1) p) Q h := by
  obtain ⟨nx, ny, hx, hy, hne⟩ := hs
  simp only [Map.adjustBend, wp_bind]
  apply wp_deref_of_cells hx
  apply wp_deref_of_cells hy
  rw [wp_when_neg fun hcase => hne s hcase.1.symm]
  exact hQ

theorem settled {ctx : Context (Item K V)} {near far : CTree (Item K V)} {p : Ptr}
    (hs : Holds h [] (base.shape ctx (.join s c near y far) + F))
    (hsub : cells p (.join s₁ c₁ u x d) ⊆
      base.hole ctx (some y.1) + (cells (some y.1) near + cells (some y.1) far) + F) :
    Settled h x.1 y.1 := by
  have hroot := Base.holds_join.mp hs
  rw [cells_join] at hsub
  refine ⟨_, _, hroot.cells_of_mem (hsub (Multiset.mem_add.mpr (.inl
    (Multiset.mem_singleton_self _)))), hroot.cells_of_getElem? (i := 0) rfl, fun s' => ?_⟩
  have hu : ptr u ≠ some y.1 := ptr_ne (i := 0) hroot rfl fun c hc =>
    hsub (Multiset.mem_add.mpr (.inr (Multiset.mem_add.mpr (.inl hc))))
  have hd : ptr d ≠ some y.1 := ptr_ne (i := 0) hroot rfl fun c hc =>
    hsub (Multiset.mem_add.mpr (.inr (Multiset.mem_add.mpr (.inr hc))))
  cases s₁ <;> cases s' <;> assumption

section Cases

variable (hs : Holds h [] (base.shape (⟨s₁, c₁, y, u⟩ :: ⟨s₂, c₂, x, d⟩ :: up) t + F))

include hs

/-- Where the target and its parent are. -/
theorem case_iff (ht : t ≠ .nil) {s' : Side} :
    some y.1 = (Node.sided (some x.2) c₂ (some (base.parent up)) (some y.1) (ptr d) s₂).child s ∧
      ptr t = (Node.sided (some y.2) c₁ (some x.1) (ptr t) (ptr u) s₁).child s' ↔
    s = s₂ ∧ s' = s₁ := by
  have hu : ptr u ≠ ptr t := Base.ptr_sibling_ne hs ht
  rw [Base.shape_attach] at hs
  have hd : ptr d ≠ some y.1 := by
    have hne := Base.ptr_sibling_ne hs (by cases s₁ <;> simp [Frame.attach, CTree.join])
    rwa [Frame.attach, ptr_join] at hne
  cases s <;> cases s' <;> cases s₁ <;> cases s₂ <;>
    simp [Node.sided, Node.child, hu.symm, hd.symm]

theorem wp_adjustLine_of_ne (ht : t ≠ .nil) (hne : ¬(s = s₂ ∧ s = s₁)) (hQ : Q () h) :
    wp (adjustLine s (some x.1) (some y.1) (ptr t)) Q h := by
  have hs' := hs
  rw [Base.shape_attach] at hs'
  simp only [adjustLine, wp_bind]
  apply Base.wp_deref_parent hs'
  apply Base.wp_deref_parent hs
  rw [Frame.attach, ptr_join, wp_when_neg]
  · exact hQ
  · exact fun hcase => hne ((case_iff hs ht).mp hcase)

theorem wp_adjustBend_of_ne (ht : t ≠ .nil) (hne : ¬(s = s₂ ∧ s.other = s₁)) (hQ : Q () h) :
    wp (adjustBend s (some x.1) (some y.1) (ptr t)) Q h := by
  have hs' := hs
  rw [Base.shape_attach] at hs'
  simp only [adjustBend, wp_bind]
  apply Base.wp_deref_parent hs'
  apply Base.wp_deref_parent hs
  rw [Frame.attach, ptr_join, wp_when_neg]
  · exact hQ
  · exact fun hcase => hne ((case_iff hs ht).mp hcase)

end Cases

theorem wp_adjustLine (hs : Holds h [] (base.shape (⟨s, c₁, y, u⟩ :: ⟨s, c₂, x, d⟩ :: up) t + F))
    (hQ : ∀ h', Settled h' x.1 y.1 →
      Holds h' [] (base.shape up (.join s .black t y (.join s .red u x d)) + F) → Q () h') :
    wp (adjustLine s (some x.1) (some y.1) (ptr t)) Q h := by
  have hs' := hs
  rw [Base.shape_near] at hs'
  simp only [adjustLine, wp_bind]
  apply Base.wp_deref_parent hs'
  apply Base.wp_deref_parent hs
  rw [ptr_join, wp_when_pos ⟨(child_sided ..).symm, (child_sided ..).symm⟩]
  simp only [wp_bind]
  rw [Base.shape_near] at hs'
  apply wp_rotate hs'
  intro h hs
  apply Base.wp_paint_root hs
  intro h hs
  apply Base.wp_paint_far hs
  intro h hs
  have hsub : cells (some y.1) (.join s .red u x d) ⊆ base.hole up (some y.1) +
      (cells (some y.1) t + cells (some y.1) (.join s .red u x d)) + F := fun c hc => by simp [hc]
  exact hQ h (settled hs hsub) hs

theorem wp_adjustBend
    (hs : Holds h [] (base.shape (⟨s.other, c₁, y, u⟩ :: ⟨s, c₂, x, d⟩ :: up)
      (.join s c₃ b z e) + F))
    (hQ : ∀ h', Settled h' x.1 y.1 →
      Holds h' [] (base.shape up
        (.join s .black (.join s c₁ u y b) z (.join s .red e x d)) + F) → Q () h') :
    wp (adjustBend s (some x.1) (some y.1) (some z.1)) Q h := by
  have hs' := hs
  rw [Base.shape_far] at hs'
  simp only [adjustBend, wp_bind]
  apply Base.wp_deref_parent hs'
  apply Base.wp_deref_parent hs
  rw [ptr_join, ptr_join, wp_when_pos ⟨(child_sided ..).symm, (child_sided ..).symm⟩]
  simp only [wp_bind]
  rw [Base.shape_near] at hs'
  apply wp_doubleRotate hs'
  intro h hs
  apply Base.wp_paint_root hs
  intro h hs
  apply Base.wp_paint_far hs
  intro h hs
  have hs' := hs
  rw [← Base.shape_near] at hs'
  have hsub : cells (some z.1) (.join s .red e x d) ⊆
      base.hole (⟨s, .black, z, .join s .red e x d⟩ :: up) (some y.1) +
        (cells (some y.1) u + cells (some y.1) b) + F := fun c hc => by
    simp [Base.hole, Base.rest, hc]
  exact hQ h (settled hs' hsub) hs

/-- The four cases, of which one applies. -/
theorem wp_rebuild {n : ℕ}
    (hs : Holds h [] (base.shape (⟨s₁, .red, y, u⟩ :: ⟨s₂, .black, x, d⟩ :: up) t + F))
    (ht : t.color = .red) (htn : t.Balanced n) (hu : u.color = .black) (hun : u.Balanced n)
    (hd : d.color = .black) (hdn : d.Balanced n)
    (hQ : ∀ h' t', Holds h' [] (base.shape up t' + F) → t'.color = .black → t'.Balanced (n + 1) →
      t'.inorder = (Context.plug [⟨s₁, .red, y, u⟩, ⟨s₂, .black, x, d⟩] t).inorder → Q () h') :
    wp (adjustLine .left (some x.1) (some y.1) (ptr t)) (fun _ =>
      wp (adjustLine .right (some x.1) (some y.1) (ptr t)) fun _ =>
      wp (adjustBend .left (some x.1) (some y.1) (ptr t)) fun _ =>
      wp (adjustBend .right (some x.1) (some y.1) (ptr t)) Q) h := by
  have hnil := CTree.ne_nil_of_red ht
  have hline : ∀ h', s₁ = s₂ →
      Holds h' [] (base.shape up (.join s₂ .black t y (.join s₂ .red u x d)) + F) → Q () h' := by
    rintro h' rfl hs'
    apply hQ h' _ hs'
    · exact CTree.color_join ..
    · exact CTree.balanced_join_black.mpr ⟨htn, CTree.balanced_join_red.mpr ⟨hun, hdn, hu, hd⟩⟩
    · exact CTree.inorder_rotate ..
  have hbend : ∀ c b z e h', t = .join s₂ c b z e → s₁ = s₂.other → Holds h' []
      (base.shape up (.join s₂ .black (.join s₂ .red u y b) z (.join s₂ .red e x d)) + F) →
      Q () h' := by
    rintro c b z e h' rfl rfl hs'
    rw [CTree.color_join] at ht
    rw [ht] at htn
    obtain ⟨hbn, hen, hb, he⟩ := CTree.balanced_join_red.mp htn
    apply hQ h' _ hs'
    · exact CTree.color_join ..
    · exact CTree.balanced_join_black.mpr ⟨CTree.balanced_join_red.mpr ⟨hun, hbn, hu, hb⟩,
        CTree.balanced_join_red.mpr ⟨hen, hdn, he, hd⟩⟩
    · rw [Context.plug, Context.plug, Context.plug, Frame.attach, Frame.attach, CTree.join_other,
        CTree.inorder_doubleRotate]
  cases s₁ <;> cases s₂
  · apply wp_adjustLine hs
    intro h hx hs
    apply hx.adjustLine
    apply hx.adjustBend
    apply hx.adjustBend
    exact hline h rfl hs
  · apply wp_adjustLine_of_ne hs hnil (by decide)
    apply wp_adjustLine_of_ne hs hnil (by decide)
    apply wp_adjustBend_of_ne hs hnil (by decide)
    obtain ⟨c, b, z, e, rfl⟩ := CTree.eq_join .right hnil
    rw [ptr_join]
    apply wp_adjustBend hs
    intro h hx hs
    exact hbend c b z e h rfl rfl hs
  · apply wp_adjustLine_of_ne hs hnil (by decide)
    apply wp_adjustLine_of_ne hs hnil (by decide)
    obtain ⟨c, b, z, e, rfl⟩ := CTree.eq_join .left hnil
    rw [ptr_join]
    apply wp_adjustBend hs
    intro h hx hs
    apply hx.adjustBend
    exact hbend c b z e h rfl rfl hs
  · apply wp_adjustLine_of_ne hs hnil (by decide)
    apply wp_adjustLine hs
    intro h hx hs
    apply hx.adjustBend
    apply hx.adjustBend
    exact hline h rfl hs

/-- A red uncle: two nodes become black, and the node above them red. -/
theorem wp_recolor {d : CTree (Item K V)}
    (hs : Holds h [] (base.shape (⟨s₁, .red, y, u⟩ :: ⟨s₂, .black, x, d⟩ :: up) t + F))
    (hd : d.color = .red) (hQ : ∀ h' d', Holds h' []
      (base.shape up (.join s₂ .red (.join s₁ .black t y u) x d') + F) →
      d'.color = .black → d'.inorder = d.inorder →
      (∀ n, d.Balanced n → d'.Balanced (n + 1)) → Q () h') :
    wp (paint (some x.1) .red) (fun _ =>
      wp (paint (some y.1) .black) fun _ => wp (paint (ptr d) .black) Q) h := by
  obtain ⟨c, p, w, q, rfl⟩ := CTree.eq_join s₂ (CTree.ne_nil_of_red hd)
  rw [CTree.color_join] at hd
  subst hd
  rw [Base.shape_near, Base.shape_near] at hs
  apply Base.wp_paint_root hs
  intro h hs
  apply Base.wp_paint_near hs
  intro h hs
  rw [ptr_join]
  apply Base.wp_paint_far hs
  intro h hs
  apply hQ h _ hs (CTree.color_join ..) (CTree.inorder_join_congr rfl rfl)
  intro n hn
  obtain ⟨hp, hq, -⟩ := CTree.balanced_join_red.mp hn
  exact CTree.balanced_join_black.mpr ⟨hp, hq⟩

theorem wp_adjustInsert_black {f : Frame (Item K V)} {n : ℕ}
    (hs : Holds h [] (base.shape (f :: up) t + F)) (hf : f.color = .black) (ht : t.color = .red)
    (htn : t.Balanced n) (hfits : Context.Fits (f :: up) .black n)
    (hQ : ∀ h' t', Holds h' [] (base.shape [] t' + F) → t'.IsRedBlack →
      t'.inorder = (Context.plug (f :: up) t).inorder → Q () h') :
    wp (adjustInsert base.head (ptr t)) Q h := by
  have hdone : (Context.plug (f :: up) t).IsRedBlack := by
    apply Context.isRedBlack_plug htn
    refine ⟨hfits.1, fun hred => ?_, hfits.2.2⟩
    rw [hf] at hred
    cases hred
  obtain ⟨c, a, z, b, rfl⟩ := CTree.eq_join .left (CTree.ne_nil_of_red ht)
  rw [adjustInsert, ptr_join]
  simp only [wp_bind]
  apply Base.wp_deref_root hs
  rw [parent_sided]
  apply Base.wp_deref_parent hs
  rw [color_sided, if_pos hf, wp_pure]
  rw [Base.shape_plug] at hs
  exact hQ h _ hs hdone rfl

/-- A red parent; `hrec` is for a grandparent that is red below a red node. -/
theorem wp_adjustInsert_red {n : ℕ}
    (hs : Holds h [] (base.shape (⟨s₁, .red, y, u⟩ :: ⟨s₂, .black, x, d⟩ :: up) t + F))
    (ht : t.color = .red) (htn : t.Balanced n) (hu : u.color = .black) (hun : u.Balanced n)
    (hdn : d.Balanced n) (hup : Context.Fits up .black (n + 1))
    (hrec : ∀ h' t', Holds h' [] (base.shape up t' + F) → t'.color = .red →
      t'.Balanced (n + 1) → up ≠ [] →
      t'.inorder = (Context.plug [⟨s₁, .red, y, u⟩, ⟨s₂, .black, x, d⟩] t).inorder →
      wp (adjustInsert base.head (ptr t')) Q h')
    (hQ : ∀ h' t', Holds h' [] (base.shape [] t' + F) → t'.IsRedBlack →
      t'.inorder = (Context.plug (⟨s₁, .red, y, u⟩ :: ⟨s₂, .black, x, d⟩ :: up) t).inorder →
      Q () h') :
    wp (adjustInsert base.head (ptr t)) Q h := by
  obtain ⟨c, a, z, b, hjoin⟩ := CTree.eq_join s₁ (CTree.ne_nil_of_red ht)
  have hz : ptr t = some z.1 := by rw [hjoin, ptr_join]
  have hs₁ := hs
  rw [Base.shape_near] at hs₁
  have hd := hs₁
  rw [Base.shape_near, ← Base.shape_far] at hd
  have hs' := hs
  rw [hjoin] at hs'
  rw [adjustInsert, hz]
  simp only [wp_bind]
  apply Base.wp_deref_root hs'
  rw [parent_sided]
  apply Base.wp_deref_parent hs
  simp only [color_sided, reduceCtorEq, ↓reduceIte, wp_bind]
  apply Base.wp_deref_parent hs
  rw [parent_sided]
  have hsibling := fun Q => Base.wp_sibling (Q := Q) hs₁ (CTree.join_ne_nil s₁ .red t y u)
  rw [ptr_join] at hsibling
  apply hsibling
  apply Base.wp_isRed hd
  cases hcolor : d.color with
  | black =>
    simp only [reduceCtorEq, decide_false, Bool.not_false, ↓reduceIte, wp_bind]
    rw [← hz]
    apply wp_rebuild hs ht htn hu hun hcolor hdn
    intro h t' hs' hcolor' hbalanced hinorder
    rw [Base.shape_plug] at hs'
    apply hQ h _ hs'
    · exact Context.isRedBlack_plug hbalanced (hcolor' ▸ hup)
    · exact Context.inorder_plug_congr up hinorder
  | red =>
    simp only [decide_true, Bool.not_true, Bool.false_eq_true, ↓reduceIte, wp_bind]
    apply wp_recolor hs hcolor
    intro h d' hs hblack hinorder hd'
    have hbalanced : (CTree.join s₂ .red (.join s₁ .black t y u) x d').Balanced (n + 1) :=
      CTree.balanced_join_red.mpr ⟨CTree.balanced_join_black.mpr ⟨htn, hun⟩, hd' n hdn,
        CTree.color_join .., hblack⟩
    have hinorder' : (CTree.join s₂ .red (.join s₁ .black t y u) x d').inorder =
        (Context.plug [⟨s₁, .red, y, u⟩, ⟨s₂, .black, x, d⟩] t).inorder :=
      CTree.inorder_join_congr (CTree.inorder_join_congr rfl rfl) hinorder
    apply Base.wp_deref_root hs
    rw [parent_sided]
    cases up with
    | nil =>
      rw [show base.parent [] = base.head from rfl, if_pos rfl]
      apply Base.wp_paint_root hs
      intro h hs
      obtain ⟨hnear, hfar, -⟩ := CTree.balanced_join_red.mp hbalanced
      apply hQ h _ hs
      · exact ⟨CTree.color_join .., _, CTree.balanced_join_black.mpr ⟨hnear, hfar⟩⟩
      · exact (CTree.inorder_join_congr rfl rfl).trans hinorder'
    | cons k up =>
      have hhead := Base.parent_ne_head hs
      rw [if_neg fun heq => hhead (Option.some.inj heq), wp_bind]
      apply Base.wp_deref_parent hs
      rw [color_sided]
      cases hk : k.color with
      | red =>
        rw [if_pos rfl]
        have hagain := hrec h _ hs (CTree.color_join ..) hbalanced (List.cons_ne_nil _ _) hinorder'
        rwa [ptr_join] at hagain
      | black =>
        rw [if_neg Color.noConfusion, wp_pure]
        have hfits : Context.Fits (k :: up) .red (n + 1) :=
          ⟨hup.1, fun hred => Color.noConfusion (hk.symm.trans hred), hup.2.2⟩
        rw [Base.shape_plug] at hs
        apply hQ h _ hs
        · exact Context.isRedBlack_plug hbalanced ((CTree.color_join ..).symm ▸ hfits)
        · exact Context.inorder_plug_congr (k :: up) hinorder'

theorem wp_adjustInsert : ∀ {h : Heap (Node K V)} {ctx : Context (Item K V)}
    {t : CTree (Item K V)} {n : ℕ}, Holds h [] (base.shape ctx t + F) → t.color = .red →
    t.Balanced n → Context.Fits ctx .black n → ctx ≠ [] →
    (∀ h' t', Holds h' [] (base.shape [] t' + F) → t'.IsRedBlack →
      t'.inorder = (Context.plug ctx t).inorder → Q () h') →
    wp (adjustInsert base.head (ptr t)) Q h
  | _, [], _, _ => fun _ _ _ _ hne => absurd rfl hne
  | h, f :: up, t, n => by
    intro hs ht htn hfits _ hQ
    cases hf : f.color with
    | black => exact wp_adjustInsert_black hs hf ht htn hfits hQ
    | red =>
      obtain ⟨s₁, c₁, y, u⟩ := f
      obtain rfl : c₁ = .red := hf
      obtain ⟨hun, hred, hfits⟩ := hfits
      cases up with
      | nil => cases hfits
      | cons g up =>
        obtain ⟨s₂, c₂, x, d⟩ := g
        obtain ⟨hdn, hfits⟩ := hfits
        obtain rfl : c₂ = .black := by
          cases c₂ with
          | red => cases (hfits.1 rfl).1
          | black => rfl
        apply wp_adjustInsert_red hs ht htn (hred rfl).2 hun hdn hfits.2 _ hQ
        intro h' t' hs' ht' htn' hne hinorder
        apply wp_adjustInsert hs' ht' htn' hfits.2 hne
        intro h'' t'' hs'' hrb hinorder'
        exact hQ h'' t'' hs'' hrb (hinorder'.trans (Context.inorder_plug_congr up hinorder))

end Course.Stl.Map
