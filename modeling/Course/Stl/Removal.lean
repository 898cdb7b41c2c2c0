import Course.Lib.TreeWalk
import Course.Stl.Erasure
import Course.Stl.Exchange

/-! How a node is taken out of an STLite map. -/

open Course.Lib Heap RedBlack

namespace Course.Stl.Map

variable {K V : Type} {Q : Unit → Heap (Node K V) → Prop} {h : Heap (Node K V)}
  {F : Multiset (ℕ × Node K V)} {base : Base} {ctx mid : Context (Item K V)} {s : Side}
  {c d : Color} {a b l r u : CTree (Item K V)} {x y : Item K V}

theorem wp_furthest {Q : Ptr → Heap (Node K V) → Prop} (hmid : ∀ f ∈ mid, f.side = s)
    (hs : Holds h [] (base.shape ctx (Context.plug mid (.join s d .nil y b)) + F))
    (hQ : Q (some y.1) h) :
    wp (furthest s (ptr (Context.plug mid (.join s d .nil y b)))) Q h := by
  induction mid using List.reverseRecOn generalizing ctx with
  | nil =>
    rw [Context.plug] at hs ⊢
    rw [ptr_join, furthest, wp_bind]
    apply Base.wp_deref_root hs
    rw [child_sided, ptr, if_pos rfl, wp_pure]
    exact hQ
  | append_singleton mid f ih =>
    obtain ⟨hinit, hf⟩ := List.forall_mem_append.mp hmid
    obtain ⟨q, e, x, far⟩ := f
    obtain rfl : q = s := hf _ (List.mem_singleton_self _)
    rw [Context.plug_append, Context.plug, Context.plug, Frame.attach] at hs ⊢
    have hne : ptr (Context.plug mid (.join q d .nil y b)) ≠ none := by
      cases mid with
      | nil => simp [Context.plug]
      | cons f mid =>
        obtain ⟨p, n, R, htop, -⟩ := exists_topmost f mid none
        rw [ptr_plug]
        exact fun h => Option.some_ne_none p (htop.symm.trans h)
    rw [ptr_join, furthest, wp_bind]
    apply Base.wp_deref_root hs
    rw [child_sided, if_neg hne]
    rw [← Base.shape_near] at hs
    exact ih hinit hs

/-! ### Downwards -/

theorem wp_sink_one {p q : ℕ} {n : Node K V} (hp : h.cells p = some n)
    (hone : n.left = none ∧ n.right = some q ∨ n.right = none ∧ n.left = some q)
    (hstep : wp (swap (some p) (some q)) (fun _ => wp (sink (some p)) Q) h) :
    wp (sink (some p)) Q h := by
  rw [sink, wp_bind]
  apply wp_deref_of_cells hp
  rcases hone with ⟨hl, hr⟩ | ⟨hr, hl⟩
  all_goals simpa [hl, hr, wp_bind, wp_pure] using hstep

theorem wp_sink_two {p : ℕ} {n : Node K V} (hp : h.cells p = some n) (hl : n.left ≠ none)
    (hr : n.right ≠ none) (hstep : wp (furthest .right n.left) (fun replace =>
      wp (swap (some p) replace) fun _ => wp (sink (some p)) Q) h) :
    wp (sink (some p)) Q h := by
  rw [sink, wp_bind]
  apply wp_deref_of_cells hp
  simpa [hl, hr, wp_bind] using hstep

theorem wp_sink_leaf (hs : Holds h [] (base.shape ctx (.join s d .nil x .nil) + F)) (hQ : Q () h) :
    wp (sink (some x.1)) Q h := by
  rw [sink, wp_bind]
  apply Base.wp_deref_root hs
  rw [if_pos (by cases s <;> exact ⟨rfl, rfl⟩), wp_pure]
  exact hQ

/-- The child on the only side where there is one is a red leaf. -/
theorem wp_sink_single (hs : Holds h [] (base.shape ctx (.join s c l x .nil) + F))
    (hrb : (Context.plug ctx (.join s c l x .nil)).IsRedBlack)
    (hQ : ∀ h' ctx' d, Holds h' [] (base.shape ctx' (.join s d .nil x .nil) + F) →
      (Context.plug ctx' (.join s d .nil x .nil)).IsRedBlack →
      Context.before ctx' ++ Context.after ctx' =
        Context.before ctx ++ l.inorder ++ Context.after ctx → Q () h') :
    wp (sink (some x.1)) Q h := by
  obtain ⟨n, hbalanced, -⟩ := Context.fits_of_plug hrb
  have hzero : l.Balanced 0 := by
    cases c with
    | red =>
      obtain ⟨hl, rfl, -⟩ := CTree.balanced_join_red.mp hbalanced
      exact hl
    | black =>
      cases n with
      | zero => cases s <;> obtain ⟨m, hm, -⟩ := hbalanced <;> cases hm
      | succ n =>
        obtain ⟨hl, rfl⟩ := CTree.balanced_join_black.mp hbalanced
        exact hl
  rcases CTree.balanced_zero hzero with rfl | ⟨y, rfl⟩
  · apply wp_sink_leaf hs
    exact hQ h ctx c hs hrb (by simp [CTree.inorder])
  · have hred : CTree.node .red .nil y .nil = .join s .red .nil y .nil := by cases s <;> rfl
    rw [hred] at hs hrb hQ
    apply wp_sink_one (q := y.1) ((Base.holds_join.mp hs).cells_of_getElem? (i := 0) rfl)
    · rw [ptr_join]
      cases s
      · exact .inr ⟨rfl, rfl⟩
      · exact .inl ⟨rfl, rfl⟩
    apply wp_swap_adjacent hs
    intro h hs
    rw [← Base.shape_near] at hs
    apply wp_sink_leaf hs
    apply hQ h _ .red hs
    · change (Context.plug ctx (.join s c (.join s .red .nil x .nil) y .nil)).IsRedBlack
      exact Context.isRedBlack_plug_congr (by cases s <;> rfl) hrb
    · cases s <;> simp [Context.before, Context.after, Frame.before, Frame.after, CTree.join,
        CTree.inorder]

theorem shape_append (mid ctx : Context (Item K V)) (t : CTree (Item K V)) :
    base.shape (mid ++ ctx) t = base.shape ctx (Context.plug mid t) := by
  rw [Base.shape_plug, Context.plug_append, ← Base.shape_plug]

/-- The target changes places with the last node before it. -/
theorem wp_sink_both (hmid : ∀ f ∈ mid, f.side = .right) (hr : r ≠ .nil)
    (hs : Holds h [] (base.shape ctx
      (.node c (Context.plug mid (.join .right d .nil y b)) x r) + F))
    (hQ : ∀ h', Holds h' []
        (base.shape (mid ++ ⟨.left, c, y, r⟩ :: ctx) (.join .left d b x .nil) + F) →
      wp (sink (some x.1)) Q h') :
    wp (sink (some x.1)) Q h := by
  have hleft : ptr (Context.plug mid (.join .right d .nil y b)) ≠ none := by
    rw [ptr_plug, ptr_join]
    cases mid with
    | nil => exact Option.some_ne_none _
    | cons f mid =>
      obtain ⟨p, n, R, htop, -⟩ := exists_topmost f mid (some y.1)
      rw [htop]
      exact Option.some_ne_none _
  have hright : ptr r ≠ none := by
    cases r with
    | nil => exact absurd rfl hr
    | node c l x r => exact Option.some_ne_none _
  have hroot := hs
  rw [show CTree.node c (Context.plug mid (.join .right d .nil y b)) x r =
    .join .left c (Context.plug mid (.join .right d .nil y b)) x r from rfl] at hroot
  apply wp_sink_two ((Base.holds_join.mp hroot).cells_of_getElem? (i := 0) rfl) hleft hright
  rw [← Base.shape_near] at hroot
  apply wp_furthest hmid hroot
  simp only [shape_append, Base.shape_near] at hQ
  cases mid with
  | nil =>
    apply wp_swap_adjacent (s := .left) (a := b) (b := .nil) hs
    exact hQ
  | cons f mid =>
    have hside := hmid f List.mem_cons_self
    apply wp_swap_apart (a := .nil) (b := b) hside hs
    exact hQ

theorem wp_sink (hs : Holds h [] (base.shape ctx (.node c l x r) + F))
    (hrb : (Context.plug ctx (.node c l x r)).IsRedBlack)
    (hQ : ∀ h' ctx' d, Holds h' [] (base.shape ctx' (.node d .nil x .nil) + F) →
      (Context.plug ctx' (.node d .nil x .nil)).IsRedBlack →
      Context.before ctx' ++ Context.after ctx' =
        Context.before ctx ++ (l.inorder ++ r.inorder) ++ Context.after ctx → Q () h') :
    wp (sink (some x.1)) Q h := by
  by_cases hr : r = .nil
  · subst hr
    apply wp_sink_single (s := .left) hs hrb
    intro h' ctx' d hs' hrb' horder
    apply hQ h' ctx' d hs' hrb'
    rwa [CTree.inorder, List.append_nil]
  by_cases hl : l = .nil
  · subst hl
    exact wp_sink_single (s := .right) hs hrb hQ
  obtain ⟨mid, d, y, b, hmid, rfl⟩ := CTree.exists_extreme .right hl
  apply wp_sink_both hmid hr hs
  intro h hs
  apply wp_sink_single (s := .left) hs
  · rw [Context.plug_append]
    change (Context.plug ctx (.node c (Context.plug mid (.join .left d b x .nil)) y r)).IsRedBlack
    refine Context.isRedBlack_plug_congr ?_ hrb
    have hmap := Context.map_plug (fun _ : Item K V => ())
      (show (CTree.join .right d .nil y b).map _ = (CTree.join .left d b x .nil).map _ from rfl) mid
    simp only [CTree.map, hmap]
  · intro h' ctx' d' hs' hrb' horder
    apply hQ h' ctx' d' hs' hrb'
    rw [horder, Context.before_append, Context.after_append, Context.inorder_plug,
      show Context.after mid = [] from Context.ahead_of_side (s := .right) hmid]
    simp [Context.before, Context.after, Frame.before, Frame.after, CTree.join, CTree.inorder]

/-! ### Out of the map -/

theorem wp_unhang (hs : Holds h [] (base.shape ctx (.node d .nil x .nil) + F))
    (hQ : ∀ h', Holds h' [(x.1, ⟨some x.2, d, some (base.parent ctx), none, none⟩)]
      (base.shape ctx .nil + F) → Q () h') :
    wp (unhang base.head (some x.1)) Q h := by
  have hroot := hs
  rw [show CTree.node d .nil x .nil = .join .left d .nil x .nil from rfl] at hroot
  have hempty : cells (some (base.parent ctx)) (.nil : CTree (Item K V)) = 0 := rfl
  rw [unhang, wp_bind]
  apply Base.wp_deref_head hs
  cases ctx with
  | nil =>
    rw [Context.plug, ptr, if_pos rfl]
    apply Base.wp_fill_head (Base.holds_leaf.mp hs)
    intro h hs
    apply hQ
    rwa [Base.shape_nil]
  | cons f up =>
    have hne : some x.1 ≠ ptr (Context.plug (f :: up) (.node d .nil x .nil)) :=
      (Base.ptr_plug_ne hs (by simp)).symm
    have hsib : ptr f.sibling ≠ some x.1 := Base.ptr_sibling_ne hs (by simp)
    rw [if_neg hne, wp_bind]
    apply Base.wp_deref_root hroot
    rw [parent_sided, Base.parent_cons, wp_bind]
    apply Base.wp_deref_parent hs
    rw [show ptr (.node d .nil x .nil) = some x.1 from rfl, side_eq hsib]
    apply Base.wp_fill (Base.holds_leaf.mp hs)
    intro h hs
    apply hQ
    rwa [Base.shape_nil]

/-- The repair before a black leaf goes. -/
theorem wp_repair (hs : Holds h [] (base.shape ctx (.node d .nil x .nil) + F))
    (hrb : (Context.plug ctx (.node d .nil x .nil)).IsRedBlack)
    (hQ : ∀ h' ctx', Holds h' [] (base.shape ctx' (.node d .nil x .nil) + F) →
      Context.Fits ctx' .black 0 → SameOrder ctx ctx' → Q () h') :
    wp (deref (some x.1)) (fun n => wp (when (n.color = .black)
      (adjustErase base.head (some x.1))) Q) h := by
  obtain ⟨n, hbalanced, hfits⟩ := Context.fits_of_plug hrb
  apply Base.wp_deref_root (s := .left) hs
  rw [color_sided]
  cases d with
  | red =>
    obtain ⟨rfl, -⟩ := hbalanced
    rw [wp_when_neg Color.noConfusion]
    exact hQ h ctx hs hfits.black ⟨rfl, rfl⟩
  | black =>
    obtain ⟨m, rfl, rfl, -⟩ := hbalanced
    rw [wp_when_pos rfl]
    exact wp_adjustErase hs (by exact nofun) hfits hQ

theorem wp_erase {Q : Except Exception Map → Heap (Node K V) → Prop} {n : ℕ}
    (hhead : x.1 ≠ base.head)
    (hs : Holds h [] (base.shape ctx (.node c l x r) + F))
    (hrb : (Context.plug ctx (.node c l x r)).IsRedBlack)
    (hQ : ∀ h' t, Holds h' [] (base.shape [] t + F) → t.IsRedBlack →
      t.inorder = Context.before ctx ++ (l.inorder ++ r.inorder) ++ Context.after ctx →
      Q (.ok ⟨base.head, n - 1⟩) h') :
    wp (erase ⟨base.head, n⟩ ⟨some x.1, base.head⟩) Q h := by
  rw [erase, if_neg (by simpa [cend] using hhead)]
  simp only [wp_bind]
  apply wp_sink hs hrb
  intro h ctx₁ d hs hrb horder
  apply wp_repair hs hrb
  intro h ctx₂ hs hfits hsame
  apply wp_unhang hs
  intro h hs
  apply wp_delete hs 0 rfl
  intro h hs
  rw [wp_pure]
  rw [Base.shape_plug] at hs
  apply hQ h _ hs (Context.isRedBlack_plug (n := 0) rfl hfits)
  rw [Context.inorder_plug, hsame.1, hsame.2, ← horder]
  simp [CTree.inorder]

end Course.Stl.Map
