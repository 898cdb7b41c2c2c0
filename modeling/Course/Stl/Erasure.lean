import Course.Stl.Rotation

/-! The repair of an STLite map before a black leaf is taken out. -/

open Course.Lib Heap RedBlack

namespace Course.Stl.Map

variable {K V : Type} {Q : Unit → Heap (Node K V) → Prop} {h : Heap (Node K V)}
  {F : Multiset (ℕ × Node K V)} {base : Base} {up : Context (Item K V)} {s : Side}
  {c : Color} {t : CTree (Item K V)} {x : Item K V} {n : ℕ}

/-- The contexts that differ in how a walk passes their nodes. -/
def SameOrder (ctx ctx' : Context (Item K V)) : Prop :=
  Context.before ctx' = Context.before ctx ∧ Context.after ctx' = Context.after ctx

/-- The side of a child, as it is tested. -/
theorem side_eq {val : Option (K × V)} {up p q : Ptr} (hne : q ≠ p) :
    (if (Node.sided val c up p q s).left = p then Side.left else .right) = s := by
  cases s with
  | left => exact if_pos rfl
  | right => exact if_neg hne

theorem other_eq {val : Option (K × V)} {up p q : Ptr} (hne : q ≠ p) :
    (if q = (Node.sided val c up p q s).left then Side.left else .right) = s.other := by
  cases s with
  | left => exact if_neg hne
  | right => exact if_pos rfl

theorem wp_lower {Q : Ptr → Heap (Node K V) → Prop} {f : Frame (Item K V)}
    (hs : Holds h [] (base.shape (f :: up) t + F)) (ht : t ≠ .nil)
    (hfits : Context.Fits (f :: up) .black (n + 1))
    (hQ : ∀ h' g up', Holds h' [] (base.shape (g :: up') t + F) → g.item = f.item →
      (g.color = .black → up' = up) → g.sibling.color = .black →
      Context.Fits (g :: up') .black (n + 1) → SameOrder (f :: up) (g :: up') →
      Q (ptr g.sibling) h') :
    wp (lower (ptr t) (some f.item.1) (ptr f.sibling)) Q h := by
  obtain ⟨s, c, x, sib⟩ := f
  obtain ⟨hsib, hred, hup⟩ := hfits
  obtain ⟨d, sn, y, sf, rfl⟩ := CTree.eq_join s (CTree.ne_nil_of_balanced hsib)
  have hne := Base.ptr_sibling_ne hs ht
  have hs₁ := hs
  rw [Base.shape_near] at hs₁
  have hother := hs₁
  rw [← Base.shape_far] at hother
  simp only [lower, ptr_join, wp_bind]
  apply Base.wp_deref_root hother
  rw [color_sided]
  cases d with
  | black =>
    rw [if_neg Color.noConfusion, wp_pure]
    have hsame := hQ h _ up hs rfl (fun _ => rfl) (CTree.color_join ..) ⟨hsib, hred, hup⟩ ⟨rfl, rfl⟩
    rwa [ptr_join] at hsame
  | red =>
    obtain rfl : c = .black := by
      cases c with
      | red => cases (CTree.color_join ..).symm.trans (hred rfl).2
      | black => rfl
    rw [if_pos rfl]
    simp only [wp_bind]
    apply Base.wp_paint_far hs₁
    intro h hs
    apply Base.wp_paint_root hs
    intro h hs
    apply Base.wp_deref_root hs
    rw [ptr_join, other_eq (ptr_join s .red sn y sf ▸ hne)]
    apply wp_rotate_far hs
    intro h hs
    rw [← Base.shape_near, ← Base.shape_near] at hs
    apply Base.wp_sibling hs ht
    obtain ⟨hsn, hsf, hblack, -⟩ := CTree.balanced_join_red.mp hsib
    apply hQ h _ _ hs rfl nofun hblack ⟨hsn, fun _ => ⟨rfl, hblack⟩, hsf, nofun, hup⟩
    cases s <;> simp [SameOrder, Context.before, Context.after, Frame.before, Frame.after,
      CTree.join, CTree.inorder]

/-- The red child of the sibling is the nearer one. -/
theorem wp_turn_near {e b a : CTree (Item K V)} {y w : Item K V} {d : Color}
    (hs : Holds h [] (base.shape up
      (.join s .black t x (.join s .black (.join s d e w b) y a)) + F))
    (hQ : ∀ h', Holds h' [] (base.shape up
      (.join s d (.join s .black t x e) w (.join s .black b y a)) + F) → Q () h') :
    wp (turn s s (some x.1) (some y.1) (some w.1)) Q h := by
  rw [turn, if_pos rfl]
  exact wp_doubleRotate_far hs hQ

theorem wp_turn_far {e b a : CTree (Item K V)} {y w : Item K V} {s' : Side} {d : Color}
    (hs : Holds h [] (base.shape up
      (.join s .black t x (.join s .black a y (.join s' d e w b))) + F))
    (hQ : ∀ h', Holds h' [] (base.shape up
      (.join s .black (.join s .black t x a) y (.join s' .black e w b)) + F) → Q () h') :
    wp (turn s.other s (some x.1) (some y.1) (some w.1)) Q h := by
  rw [turn, if_neg (by cases s <;> decide), wp_bind]
  rw [← Base.shape_far] at hs
  apply Base.wp_paint_far hs
  intro h hs
  rw [Base.shape_far] at hs
  exact wp_rotate_far hs hQ

/-- The parent passes its colour on to the node that was turned above it. -/
theorem wp_settle {J : CTree (Item K V)} {w : Item K V} {e : CTree (Item K V)} {d : Color}
    (hs : Holds h [] (base.shape up (.join s d (.join s .black t x e) w J) + F))
    (htree : e.Balanced n ∧ J.Balanced (n + 1) ∧ J.color = .black)
    (hup : Context.Fits up c (Context.grow c (n + 1)))
    (hQ : ∀ h', Holds h' [] (base.shape (⟨s, .black, x, e⟩ :: ⟨s, c, w, J⟩ :: up) t + F) →
      Context.Fits (⟨s, .black, x, e⟩ :: ⟨s, c, w, J⟩ :: up) .black n → Q () h') :
    wp (deref (some x.1)) (fun m => wp (paint m.parent c) Q) h := by
  obtain ⟨he, hJ, hblack⟩ := htree
  rw [← Base.shape_near] at hs
  apply Base.wp_deref_root hs
  rw [parent_sided]
  rw [Base.shape_near] at hs
  apply Base.wp_paint_root hs
  intro h hs
  rw [← Base.shape_near, ← Base.shape_near] at hs
  exact hQ h hs ⟨he, nofun, hJ, fun _ => ⟨rfl, hblack⟩, hup⟩

theorem wp_borrow {q : Side} {p o : CTree (Item K V)} {y : Item K V}
    (hs : Holds h [] (base.shape (⟨s, c, x, .join q .black p y o⟩ :: up) t + F)) (ht : t ≠ .nil)
    (hp : p.color = .red)
    (hfits : Context.Fits (⟨s, c, x, .join q .black p y o⟩ :: up) .black (n + 1))
    (hQ : ∀ h' ctx', Holds h' [] (base.shape ctx' t + F) → Context.Fits ctx' .black n →
      SameOrder (⟨s, c, x, .join q .black p y o⟩ :: up) ctx' → Q () h') :
    wp (borrow q (ptr t) (some x.1) (some y.1)) Q h := by
  obtain ⟨hsib, -, hup⟩ := hfits
  have hne := Base.ptr_sibling_ne hs ht
  rw [ptr_join] at hne
  obtain ⟨hpn, hon⟩ := CTree.balanced_join_black.mp hsib
  simp only [borrow, wp_bind]
  apply Base.wp_deref_parent hs
  rw [color_sided]
  rw [Base.shape_near] at hs
  apply Base.wp_paint_root hs
  intro h hs
  apply Base.wp_deref_root hs
  rw [ptr_join, side_eq hne]
  have hother := hs
  rw [← Base.shape_far] at hother
  apply Base.wp_deref_root hother
  rw [child_sided]
  by_cases hside : s = q
  · subst hside
    obtain ⟨d, e, w, b, rfl⟩ := CTree.eq_join s (CTree.ne_nil_of_red hp)
    rw [CTree.color_join] at hp
    rw [hp] at hpn
    obtain ⟨he, hb, -⟩ := CTree.balanced_join_red.mp hpn
    rw [ptr_join]
    apply wp_turn_near hs
    intro h hs
    apply wp_settle hs ⟨he, CTree.balanced_join_black.mpr ⟨hb, hon⟩, CTree.color_join ..⟩ hup
    intro h hs hfits
    apply hQ h _ hs hfits
    cases s <;> simp [SameOrder, Context.before, Context.after, Frame.before, Frame.after,
      CTree.join, CTree.inorder]
  · obtain rfl : q = s.other := by cases s <;> cases q <;> first | rfl | exact absurd rfl hside
    obtain ⟨d, e, w, b, rfl⟩ := CTree.eq_join s (CTree.ne_nil_of_red hp)
    rw [CTree.color_join] at hp
    rw [hp] at hpn
    obtain ⟨he, hb, -⟩ := CTree.balanced_join_red.mp hpn
    rw [CTree.join_other] at hs
    rw [ptr_join]
    apply wp_turn_far hs
    intro h hs
    apply wp_settle hs ⟨hon, CTree.balanced_join_black.mpr ⟨he, hb⟩, CTree.color_join ..⟩ hup
    intro h hs hfits
    apply hQ h _ hs hfits
    cases s <;> simp [SameOrder, Context.before, Context.after, Frame.before, Frame.after,
      CTree.join, CTree.inorder]

/-- No red child to borrow: the sibling becomes red. -/
theorem balanced_redden {l r : CTree (Item K V)} {y : Item K V}
    (hsib : (CTree.node .black l y r).Balanced (n + 1)) (hl : l.color = .black)
    (hr : r.color = .black) : (CTree.node .red l y r).Balanced n := by
  obtain ⟨m, hm, hln, hrn⟩ := hsib
  obtain rfl : n = m := Nat.succ.inj hm
  exact ⟨hln, hrn, hl, hr⟩

theorem SameOrder.trans {ctx ctx' ctx'' : Context (Item K V)} (h : SameOrder ctx ctx')
    (h' : SameOrder ctx' ctx'') : SameOrder ctx ctx'' :=
  ⟨h'.1.trans h.1, h'.2.trans h.2⟩

theorem SameOrder.cons {ctx ctx' : Context (Item K V)} (h : SameOrder ctx ctx')
    {f f' : Frame (Item K V)} (hbefore : f'.before = f.before) (hafter : f'.after = f.after) :
    SameOrder (f :: ctx) (f' :: ctx') := by
  simp only [SameOrder, Context.before, Context.after, h.1, h.2, hbefore, hafter, and_self]

theorem wp_adjustErase {ctx : Context (Item K V)} (hs : Holds h [] (base.shape ctx t + F))
    (ht : t ≠ .nil) (hfits : Context.Fits ctx .black (n + 1))
    (hQ : ∀ h' ctx', Holds h' [] (base.shape ctx' t + F) → Context.Fits ctx' .black n →
      SameOrder ctx ctx' → Q () h') : wp (adjustErase base.head (ptr t)) Q h := by
  induction ctx generalizing h t n Q with
  | nil =>
    rw [adjustErase, wp_bind]
    apply Base.wp_deref_head hs
    rw [Context.plug, if_pos rfl, wp_pure]
    exact hQ h [] hs rfl ⟨rfl, rfl⟩
  | cons f up ih =>
    have hroot := Base.ptr_plug_ne hs ht
    rw [adjustErase, wp_bind]
    apply Base.wp_deref_head hs
    rw [if_neg hroot.symm]
    simp only [wp_bind]
    have hs' := hs
    obtain ⟨d, a, z, b, hjoin⟩ := CTree.eq_join .left ht
    have hz : ptr t = some z.1 := by rw [hjoin, ptr_join]
    rw [hjoin] at hs'
    rw [hz]
    apply Base.wp_deref_root hs'
    rw [parent_sided, Base.parent_cons, ← hz]
    apply Base.wp_sibling hs ht
    apply wp_lower hs ht hfits
    clear hs hs' hfits
    rintro h ⟨s, c, x, sib⟩ up' hs hitem hup' hblack hfits hsame
    cases sib with
    | nil => cases hfits.1
    | node d l y r =>
      obtain rfl : d = .black := hblack
      have hother := hs
      rw [Base.shape_near, ← Base.shape_far] at hother
      have hl := hother
      have hr := hother
      rw [show CTree.node .black l y r = CTree.join .left .black l y r from rfl,
        ← Base.shape_near] at hl
      rw [show CTree.node .black l y r = CTree.join .left .black l y r from rfl,
        ← Base.shape_far] at hr
      apply Base.wp_deref_root (s := .left) hother
      apply Base.wp_isRed hl
      rw [← hitem]
      cases hlc : l.color with
      | red =>
        rw [decide_eq_true rfl, if_pos rfl]
        apply wp_borrow (q := .left) hs ht hlc hfits
        exact fun h ctx' hs hfits' hsame' => hQ h ctx' hs hfits' (hsame.trans hsame')
      | black =>
        simp only [reduceCtorEq, decide_false, Bool.false_eq_true, ↓reduceIte, wp_bind]
        apply Base.wp_deref_root (s := .left) hother
        apply Base.wp_isRed hr
        cases hrc : r.color with
        | red =>
          rw [decide_eq_true rfl, if_pos rfl]
          apply wp_borrow (q := .right) hs ht hrc hfits
          exact fun h ctx' hs hfits' hsame' => hQ h ctx' hs hfits' (hsame.trans hsame')
        | black =>
          simp only [reduceCtorEq, decide_false, Bool.false_eq_true, ↓reduceIte, wp_bind]
          apply Base.wp_deref_parent hs
          rw [color_sided]
          obtain ⟨hsib, hred, hup⟩ := hfits
          have hredden := balanced_redden hsib hlc hrc
          rw [Base.shape_near] at hs
          cases c with
          | red =>
            rw [if_pos rfl]
            simp only [wp_bind]
            apply Base.wp_paint_root hs
            intro h hs
            apply Base.wp_paint_far (q := .left) hs
            intro h hs
            rw [← Base.shape_near] at hs
            apply hQ h _ hs ⟨hredden, by simp, Context.Fits.black hup⟩
            apply hsame.trans
            cases s <;> exact ⟨rfl, rfl⟩
          | black =>
            obtain rfl := hup' rfl
            rw [if_neg Color.noConfusion, wp_bind]
            apply Base.wp_paint_far (q := .left) hs
            intro h hs
            rw [← ptr_join s .black t x (.join .left .red l y r)]
            apply ih hs (CTree.join_ne_nil _ _ _ _ _) hup
            intro h ctx' hs hfits' hsame'
            rw [← Base.shape_near] at hs
            apply hQ h _ hs ⟨hredden, by simp, hfits'⟩
            apply hsame.trans
            apply hsame'.cons <;> cases s <;> rfl

end Course.Stl.Map
