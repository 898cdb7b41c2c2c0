import Course.Stl.Removal
import Course.Stl.Search

/-! The steps of the iterators of an STLite map. -/

open Course.Lib Heap RedBlack

namespace Course.Stl.Map

variable {K V : Type} {h : Heap (Node K V)} {F : Multiset (ℕ × Node K V)} {base : Base}
  {ctx mid up : Context (Item K V)} {s : Side} {c : Color} {t near far : CTree (Item K V)}
  {x : Item K V} {g : Frame (Item K V)}

/-- The first of the nodes that are left, or the head. -/
def front (head : ℕ) : List (Item K V) → ℕ
  | [] => head
  | x :: _ => x.1

/-- The last node on a side is the first on the way back. -/
theorem wp_furthest_root {Q : Ptr → Heap (Node K V) → Prop}
    (hs : Holds h [] (base.shape ctx t + F)) (ht : t ≠ .nil)
    (hQ : Q (some (front base.head (t.walk s.other))) h) : wp (furthest s (ptr t)) Q h := by
  obtain ⟨mid, d, y, b, hmid, rfl⟩ := CTree.exists_extreme s ht
  apply wp_furthest hmid hs
  have hahead : Context.ahead s.other.other mid = [] := by
    rw [Side.other_other]
    exact Context.ahead_of_side hmid
  rw [Context.walk_plug, hahead, ← CTree.join_other, CTree.walk_join, CTree.walk_nil] at hQ
  exact hQ

/-- A node that stands on side `s` goes up. -/
theorem wp_climb_attach {Q : Ptr → Heap (Node K V) → Prop} (hf : f.side = s)
    (hs : Holds h [] (base.shape (f :: ctx) t + F)) (ht : t ≠ .nil)
    (hQ : wp (climb s (ptr (f.attach t))) Q h) : wp (climb s (ptr t)) Q h := by
  obtain ⟨d, a, z, b, rfl⟩ := CTree.eq_join .left ht
  rw [ptr_join, climb, wp_bind]
  apply Base.wp_deref_root hs
  rw [parent_sided, Base.parent_cons, wp_bind]
  apply Base.wp_deref_parent hs
  rw [hf, ptr_join, child_sided, if_pos rfl]
  rwa [Frame.attach, ptr_join] at hQ

/-- From the node that stands on side `s` of all nodes in between. -/
theorem wp_climb {Q : Ptr → Heap (Node K V) → Prop} (hmid : ∀ f ∈ mid, f.side = s)
    (hg : g.side = s.other) (hs : Holds h [] (base.shape (mid ++ g :: up) t + F)) (ht : t ≠ .nil)
    (hQ : Q (ptr (Context.plug mid t)) h) : wp (climb s (ptr t)) Q h := by
  induction mid generalizing t with
  | nil =>
    have hne := Base.ptr_sibling_ne hs ht
    obtain ⟨d, a, z, b, rfl⟩ := CTree.eq_join .left ht
    rw [List.nil_append] at hs
    rw [ptr_join] at hne ⊢
    rw [climb, wp_bind]
    apply Base.wp_deref_root hs
    rw [parent_sided, Base.parent_cons, wp_bind]
    apply Base.wp_deref_parent hs
    rw [hg, ptr_join, sided_other, child_sided, if_neg hne.symm, wp_pure]
    exact hQ
  | cons f mid ih =>
    obtain ⟨hf, hmid⟩ := List.forall_mem_cons.mp hmid
    apply wp_climb_attach hf hs ht
    rw [List.cons_append, Base.shape_attach] at hs
    exact ih hmid hs (CTree.join_ne_nil _ _ _ _ _) hQ

/-- From the node that stands on the right of all nodes above it. -/
theorem wp_climb_root {Q : Ptr → Heap (Node K V) → Prop} (hctx : ∀ f ∈ ctx, f.side = .right)
    (hs : Holds h [] (base.shape ctx t + F)) (ht : t ≠ .nil)
    (hQ : Q (ptr (Context.plug ctx t)) h) : wp (climb .right (ptr t)) Q h := by
  induction ctx generalizing t with
  | nil =>
    have hhead := hs
    obtain ⟨d, a, z, b, rfl⟩ := CTree.eq_join .left ht
    rw [ptr_join, climb, wp_bind]
    apply Base.wp_deref_root hs
    rw [parent_sided, wp_bind]
    apply Base.wp_deref_head hhead
    rw [Node.child, if_neg (Option.some_ne_none _), wp_pure]
    exact hQ
  | cons f ctx ih =>
    obtain ⟨hf, hctx⟩ := List.forall_mem_cons.mp hctx
    apply wp_climb_attach hf hs ht
    rw [Base.shape_attach] at hs
    exact ih hctx hs (CTree.join_ne_nil _ _ _ _ _) hQ

/-- The parent of the root of the subtree in the hole. -/
theorem wp_parent {Q : Ptr → Heap (Node K V) → Prop} (hs : Holds h [] (base.shape ctx t + F))
    (ht : t ≠ .nil) (hQ : Q (some (base.parent ctx)) h) :
    wp (deref (ptr t)) (fun n => Q n.parent) h := by
  obtain ⟨d, a, z, b, rfl⟩ := CTree.eq_join .left ht
  rw [ptr_join]
  apply Base.wp_deref_root hs
  rw [parent_sided]
  exact hQ

/-- A node without a child on the side goes up. -/
theorem wp_ascend {Q : Ptr → Heap (Node K V) → Prop} (hs : Holds h [] (base.shape ctx t + F))
    (ht : t ≠ .nil) (hlast : s = .right ∨ Context.ahead s ctx ≠ [])
    (hQ : Q (some (front base.head (Context.ahead s ctx))) h) :
    wp (deref (some (base.parent ctx))) (fun n =>
      wp (if ptr t = n.child s.other then pure (some (base.parent ctx))
        else climb s (ptr t) >>= fun p => deref p >>= fun n => pure n.parent) Q) h := by
  have hsibling : ∀ {f : Frame (Item K V)} {ctx}, f.side = s →
      Holds h [] (base.shape (f :: ctx) t + F) →
      ptr t ≠ (Node.sided (some f.item.2) f.color (some (base.parent ctx)) (ptr t) (ptr f.sibling)
        f.side).child s.other := by
    rintro f ctx rfl hs
    rw [child_other_sided]
    exact (Base.ptr_sibling_ne hs ht).symm
  rcases Context.side_cases s ctx with hall | ⟨mid, g, up, rfl, hmid, hg⟩
  · rw [Context.ahead_of_side hall] at hlast hQ
    obtain rfl : s = .right := hlast.resolve_right fun hne => hne rfl
    cases ctx with
    | nil =>
      apply Base.wp_deref_head hs
      rw [Side.other_right, Node.child, Context.plug, if_pos rfl, wp_pure]
      exact hQ
    | cons f ctx =>
      apply Base.wp_deref_parent hs
      rw [if_neg (hsibling (hall f List.mem_cons_self) hs)]
      simp only [wp_bind, wp_pure]
      apply wp_climb_root hall hs ht
      rw [Base.shape_plug] at hs
      exact wp_parent hs (Context.plug_ne_nil ht _) hQ
  · rw [Context.ahead_append, Context.ahead_of_side hmid, List.nil_append,
      Context.ahead_cons_other hg] at hQ
    cases mid with
    | nil =>
      apply Base.wp_deref_parent hs
      rw [hg, child_sided, if_pos rfl, wp_pure]
      exact hQ
    | cons f mid =>
      apply Base.wp_deref_parent hs
      rw [if_neg (hsibling (hmid f List.mem_cons_self) hs)]
      simp only [wp_bind, wp_pure]
      apply wp_climb hmid hg hs ht
      rw [shape_append] at hs
      exact wp_parent hs (Context.plug_ne_nil ht _) hQ

/-- A node that is not at the end of the walk goes to the next one. -/
theorem wp_neighbour {Q : Ptr → Heap (Node K V) → Prop}
    (hs : Holds h [] (base.shape ctx (.join s c near x far) + F))
    (hlast : s = .right ∨ near.walk s ++ Context.ahead s ctx ≠ [])
    (hQ : Q (some (front base.head (near.walk s ++ Context.ahead s ctx))) h) :
    wp (neighbour s (some x.1)) Q h := by
  have hnode := hs
  rw [neighbour, wp_bind]
  apply Base.wp_deref_root hs
  rw [child_sided]
  by_cases hnear : near = .nil
  · subst hnear
    rw [if_neg (by simp [ptr]), parent_sided, wp_bind]
    rw [CTree.walk_nil, List.nil_append] at hQ hlast
    have hup := wp_ascend hs (CTree.join_ne_nil _ _ _ _ _) hlast hQ
    rwa [ptr_join] at hup
  · have hptr : ptr near ≠ none := by
      obtain ⟨d, a, z, b, rfl⟩ := CTree.eq_join .left hnear
      rw [ptr_join]
      exact Option.some_ne_none _
    rw [if_pos hptr]
    rw [← Base.shape_near] at hs
    apply wp_furthest_root hs hnear
    rw [Side.other_other]
    cases hwalk : near.walk s with
    | nil =>
      obtain ⟨d, a, z, b, rfl⟩ := CTree.eq_join s hnear
      rw [CTree.walk_join] at hwalk
      simp at hwalk
    | cons y l =>
      rw [hwalk] at hQ
      exact hQ

/-! ### Ends -/

theorem wp_furthest_head {Q : Ptr → Heap (Node K V) → Prop}
    (hs : Holds h [] (base.shape [] t + F)) (hQ : Q (some (front base.head t.inorder)) h) :
    wp (furthest .left (some base.head)) Q h := by
  rw [furthest, wp_bind]
  apply Base.wp_deref_head hs
  rw [Context.plug]
  cases t with
  | nil =>
    rw [show Node.child _ .left = none from rfl, if_pos rfl, wp_pure]
    exact hQ
  | node c l x r =>
    rw [show Node.child _ .left = some x.1 from rfl, if_neg (Option.some_ne_none _)]
    exact wp_furthest_root hs (by simp) hQ

/-- `begin()` and `cbegin()` -/
theorem wp_cbegin {Q : Iterator → Heap (Node K V) → Prop} {n : ℕ}
    (hs : Holds h [] (base.shape [] t + F))
    (hQ : Q ⟨some (front base.head t.inorder), base.head⟩ h) : wp (cbegin ⟨base.head, n⟩) Q h := by
  simp only [cbegin, wp_bind, wp_pure]
  exact wp_furthest_head hs hQ

/-- `--` from the end. -/
theorem wp_neighbour_head {Q : Ptr → Heap (Node K V) → Prop}
    (hs : Holds h [] (base.shape [] t + F)) (ht : t ≠ .nil)
    (hQ : Q (some (front base.head t.inorder.reverse)) h) :
    wp (neighbour .left (some base.head)) Q h := by
  have hptr : ptr t ≠ none := by
    obtain ⟨d, a, z, b, rfl⟩ := CTree.eq_join .left ht
    rw [ptr_join]
    exact Option.some_ne_none _
  rw [neighbour, wp_bind]
  apply Base.wp_deref_head hs
  rw [Node.child, Context.plug, if_pos hptr]
  exact wp_furthest_root hs ht hQ

end Course.Stl.Map
