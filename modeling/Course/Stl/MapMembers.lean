import Course.Stl.Removal
import Course.Stl.Search

/-! Whole STLite maps: their copies, their removal, and what is looked up in them. -/

open Course.Lib Heap RedBlack

namespace Course.Stl.Map

variable {K V : Type} {Q : Unit → Heap (Node K V) → Prop} {h : Heap (Node K V)}
  {F : Multiset (ℕ × Node K V)} {base base' : Base} {t : CTree (Item K V)} {up : Ptr}
  {l : List (ℕ × Node K V)} {a i : ℕ} {n : Node K V} {s : Side}

/-! ### Removal -/

theorem wp_remove (hs : Holds h l (cells up t + F)) (hQ : ∀ h', Holds h' l F → Q () h') :
    wp (remove (ptr t)) Q h := by
  induction t generalizing h up l F Q with
  | nil =>
    rw [remove, ptr, if_pos rfl, wp_pure]
    apply hQ
    simpa [cells] using hs
  | node c near x far ihl ihr =>
    have hs : Holds h ((x.1, ⟨some x.2, c, up, ptr near, ptr far⟩) :: l)
        (cells (some x.1) near + (cells (some x.1) far + F)) := by
      apply hs.congr
      simp only [cells, ← Multiset.cons_coe, ← Multiset.singleton_add]
      abel
    rw [remove, ptr, if_neg (Option.some_ne_none _)]
    simp only [wp_bind]
    apply wp_deref hs 0 rfl
    apply ihl hs
    intro h hs
    apply wp_deref hs 0 rfl
    apply ihr hs
    intro h hs
    exact wp_delete hs 0 rfl hQ

/-- `remove(head.left), head.left = nullptr` -/
theorem wp_clear {Q : Map → Heap (Node K V) → Prop} {n : ℕ} (hs : Holds h [] (base.shape [] t + F))
    (hQ : ∀ h', Holds h' [] (base.shape [] .nil + F) → Q ⟨base.head, 0⟩ h') :
    wp (clear ⟨base.head, n⟩) Q h := by
  simp only [clear, wp_bind]
  apply Base.wp_deref_head hs
  rw [Base.shape, add_assoc, add_left_comm] at hs
  apply wp_remove hs
  intro h hs
  apply Base.wp_fill_head hs
  intro h hs
  rw [wp_pure]
  apply hQ
  rwa [Base.shape_nil]

/-! ### Copies -/

/-- What `copy` does for one child. -/
def copyChild (s : Side) (root p : Ptr) : Prog (Node K V) Unit :=
  if p = none then pure () else do
    let child ← deref p
    let q ← new { child with parent := root, left := none, right := none }
    assign root fun n => n.setChild (some q) s
    copy (some q) p

theorem copy_eq (root other : Ptr) : (copy root other : Prog (Node K V) Unit) =
    deref other >>= fun o =>
      copyChild .left root o.left >>= fun _ => copyChild .right root o.right := by
  rw [copy]
  rfl

theorem wp_copyChild (hs : Holds h l (cells up t + F)) (hi : l[i]? = some (a, n))
    (hnone : n.child s = none) (hQ : ∀ h' t', t'.map Prod.snd = t.map Prod.snd →
      Holds h' (l.set i (a, n.setChild (ptr t') s)) (cells (some a) t' + (cells up t + F)) →
      Q () h') : wp (copyChild s (some a) (ptr t)) Q h := by
  induction t generalizing h up l F Q a i n s with
  | nil =>
    rw [copyChild, ptr, if_pos rfl, wp_pure]
    have hset : n.setChild none s = n := by
      cases s <;> simp only [Node.setChild, Node.child] at hnone ⊢ <;> rw [← hnone]
    apply hQ h .nil rfl
    obtain ⟨hlt, heq⟩ := List.getElem?_eq_some_iff.mp hi
    rw [ptr, hset, ← heq, List.set_getElem_self hlt]
    simpa [cells] using hs
  | node c near x far ihl ihr =>
    have hmem : (x.1, ⟨some x.2, c, up, ptr near, ptr far⟩) ∈ cells up (.node c near x far) + F :=
      Multiset.mem_add.mpr (.inl (Multiset.mem_add.mpr (.inl (Multiset.mem_singleton_self _))))
    rw [copyChild, ptr, if_neg (Option.some_ne_none _)]
    simp only [wp_bind]
    apply wp_deref_of_mem hs hmem
    apply wp_new hs
    intro q h hs
    apply wp_assign hs (i + 1) hi rfl
    intro h hs
    have hs : Holds h ((q, ⟨some x.2, c, some a, none, none⟩) ::
        l.set i (a, n.setChild (some q) s))
        (cells (some x.1) near + ({(x.1, ⟨some x.2, c, up, ptr near, ptr far⟩)} +
          cells (some x.1) far + F)) := by
      apply hs.congr
      simp only [cells, List.set_cons_succ]
      abel
    rw [copy_eq]
    simp only [wp_bind]
    apply wp_deref_of_mem (n := ⟨some x.2, c, up, ptr near, ptr far⟩) hs (by simp)
    apply ihl (i := 0) (s := .left) hs rfl rfl
    intro h near' hnear hs
    rw [List.set_cons_zero] at hs
    have hs : Holds h ((q, ⟨some x.2, c, some a, ptr near', none⟩) ::
        l.set i (a, n.setChild (some q) s))
        (cells (some x.1) far + (cells (some q) near' + (cells (some x.1) near +
          {(x.1, ⟨some x.2, c, up, ptr near, ptr far⟩)} + F))) := by
      apply hs.congr
      simp only [Node.setChild]
      abel
    apply ihr (i := 0) (s := .right) hs rfl rfl
    intro h far' hfar hs
    rw [List.set_cons_zero] at hs
    apply hQ h (.node c near' (q, x.2) far')
    · simp only [CTree.map, hnear, hfar]
    · apply hs.congr
      simp only [cells, ptr, Node.setChild, ← Multiset.cons_coe, ← Multiset.singleton_add]
      abel

theorem wp_copy (hs : Holds h [] (base.shape [] .nil + (base'.shape [] t + F)))
    (hQ : ∀ h' t', t'.map Prod.snd = t.map Prod.snd →
      Holds h' [] (base.shape [] t' + (base'.shape [] t + F)) → Q () h') :
    wp (copy (some base.head) (some base'.head)) Q h := by
  have hs : Holds h [(base.head, ⟨none, base.color, none, none, none⟩)]
      (cells (some base'.head) t +
        ({(base'.head, ⟨none, base'.color, none, ptr t, none⟩)} + F)) := by
    apply hs.congr
    simp only [Base.shape, Base.hole, Base.rest, Base.top, Base.parent, cells, ptr,
      ← Multiset.cons_coe, ← Multiset.singleton_add, Multiset.coe_nil]
    abel
  rw [copy_eq]
  simp only [wp_bind]
  apply wp_deref_of_mem (n := ⟨none, base'.color, none, ptr t, none⟩) hs (by simp)
  apply wp_copyChild (i := 0) (s := .left) hs rfl rfl
  intro h t' ht' hs
  rw [copyChild, if_pos rfl, wp_pure]
  apply hQ h t' ht'
  apply hs.congr
  simp only [Base.shape, Base.hole, Base.rest, Base.top, Base.parent, List.set_cons_zero,
    Node.setChild, ← Multiset.cons_coe, ← Multiset.singleton_add, Multiset.coe_nil]
  abel

/-- A new head node. -/
theorem wp_create {Q : Map → Heap (Node K V) → Prop} {color : Color} (hs : Holds h [] F)
    (hQ : ∀ p h', Holds h' [] ((Base.mk p color).shape [] .nil + F) → Q ⟨p, 0⟩ h') :
    wp (create color) Q h := by
  simp only [create, wp_bind]
  apply wp_new hs
  intro p h hs
  rw [wp_pure]
  apply hQ
  apply hs.congr
  simp only [Base.shape, Base.hole, Base.rest, Base.top, cells, ptr,
    ← Multiset.cons_coe, ← Multiset.singleton_add, Multiset.coe_nil]
  abel

theorem wp_createCopy {Q : Map → Heap (Node K V) → Prop} {color : Color} {n : ℕ}
    (hs : Holds h [] (base'.shape [] t + F))
    (hQ : ∀ p h' t', t'.map Prod.snd = t.map Prod.snd →
      Holds h' [] ((Base.mk p color).shape [] t' + (base'.shape [] t + F)) → Q ⟨p, n⟩ h') :
    wp (createCopy color ⟨base'.head, n⟩) Q h := by
  simp only [createCopy, wp_bind]
  apply wp_create hs
  intro p h hs
  apply wp_copy hs
  intro h t' ht' hs
  rw [wp_pure]
  exact hQ p h t' ht' hs

theorem head_ne_head {t' : CTree (Item K V)}
    (hs : Holds h [] (base.shape [] t + (base'.shape [] t' + F))) : base.head ≠ base'.head := by
  have hs : Holds h [(base'.head, ⟨none, base'.color, none, ptr t', none⟩)]
      (base.shape [] t + (cells (some base'.head) t' + F)) := by
    apply hs.congr
    simp only [Base.shape, Base.hole, Base.rest, Base.top, Base.parent,
      ← Multiset.cons_coe, ← Multiset.singleton_add, Multiset.coe_nil]
    abel
  have hmem : (base.head, ⟨none, base.color, none, ptr t, none⟩) ∈
      base.shape [] t + (cells (some base'.head) t' + F) := by
    simp [Base.shape, Base.hole, Base.top]
  exact hs.ne_of_mem (i := 0) rfl hmem

theorem wp_assignFrom {Q : Map → Heap (Node K V) → Prop} {t' : CTree (Item K V)} {n k : ℕ}
    (hs : Holds h [] (base.shape [] t + (base'.shape [] t' + F)))
    (hQ : ∀ h' u, u.map Prod.snd = t'.map Prod.snd →
      Holds h' [] (base.shape [] u + (base'.shape [] t' + F)) → Q ⟨base.head, k⟩ h') :
    wp (assignFrom ⟨base.head, n⟩ ⟨base'.head, k⟩) Q h := by
  rw [assignFrom, if_neg (head_ne_head hs)]
  simp only [wp_bind]
  have hclear := wp_clear (n := n) (Q := fun _ h' => wp (copy (some base.head) (some base'.head))
    (fun _ => Q ⟨base.head, k⟩) h') hs
  simp only [clear, wp_bind, wp_pure] at hclear
  simp only [wp_pure]
  apply hclear
  intro h hs
  apply wp_copy hs
  intro h u hu hs
  exact hQ h u hu hs

theorem wp_destroy (hs : Holds h [] (base.shape [] t + F)) (hQ : ∀ h', Holds h' [] F → Q () h')
    {n : ℕ} : wp (destroy ⟨base.head, n⟩) Q h := by
  simp only [destroy, wp_bind]
  apply Base.wp_deref_head hs
  rw [Base.shape, add_assoc, add_left_comm] at hs
  apply wp_remove hs
  intro h hs
  have hs := Base.holds_hole.mp hs
  rw [Base.rest, zero_add] at hs
  exact wp_delete hs 0 rfl hQ

/-! ### Lookups -/

section Lookups

variable {cmp : K → K → Bool} {key : K} {x : Item K V}

theorem exists_of_mem (hx : x ∈ t.inorder) : ∃ ctx c l r, t = Context.plug ctx (.node c l x r) := by
  obtain ⟨front, back, heq⟩ := List.append_of_mem hx
  obtain ⟨ctx, c, l, r, ht, -⟩ := Context.exists_of_inorder heq
  exact ⟨ctx, c, l, r, ht⟩

theorem wp_entry_of_mem {Q : K × V → Heap (Node K V) → Prop}
    (hs : Holds h [] (base.shape [] t + F)) (hx : x ∈ t.inorder) (hQ : Q x.2 h) :
    wp (entry (some x.1)) Q h := by
  obtain ⟨ctx, c, l, r, rfl⟩ := exists_of_mem hx
  rw [← Base.shape_plug] at hs
  exact wp_entry (cells_root (s := .left) hs) rfl hQ

theorem ne_head_of_mem (hs : Holds h [] (base.shape [] t + F)) (hx : x ∈ t.inorder) :
    x.1 ≠ base.head := by
  obtain ⟨ctx, c, l, r, rfl⟩ := exists_of_mem hx
  rw [← Base.shape_plug, show CTree.node c l x r = .join .left c l x r from rfl,
    ← Base.shape_near] at hs
  exact Base.parent_ne_head hs

variable (hcmp : StrictWeak cmp) (hs : Holds h [] (base.shape [] t + F))
  (ht : Sorted cmp t.inorder) {n : ℕ}

include hcmp hs ht

theorem wp_seek_root {Q : Ptr → Heap (Node K V) → Prop}
    (hQ : ∀ p, Finds cmp key t.inorder p → Q p h) :
    wp (deref (some base.head)) (fun n => wp (seek cmp key n.left) Q) h := by
  apply Base.wp_deref_head hs
  apply wp_seek hs
  exact hQ _ (finds_locate hcmp ht)

theorem wp_find {Q : Iterator → Heap (Node K V) → Prop}
    (hfound : ∀ x ∈ t.inorder, Same cmp key x.2.1 → Q ⟨some x.1, base.head⟩ h)
    (habsent : (∀ x ∈ t.inorder, ¬Same cmp key x.2.1) → Q ⟨some base.head, base.head⟩ h) :
    wp (find cmp ⟨base.head, n⟩ key) Q h := by
  simp only [find, wp_bind]
  apply wp_seek_root hcmp hs ht
  intro p hp
  rw [wp_pure]
  cases hp with
  | found hx hkey =>
    rw [if_neg (Option.some_ne_none _)]
    exact hfound _ hx hkey
  | absent hnone =>
    rw [if_pos rfl]
    exact habsent hnone

theorem wp_at {Q : Except Exception V → Heap (Node K V) → Prop}
    (hfound : ∀ x ∈ t.inorder, Same cmp key x.2.1 → Q (.ok x.2.2) h)
    (habsent : (∀ x ∈ t.inorder, ¬Same cmp key x.2.1) → Q (.error .index_out_of_bound) h) :
    wp (at' cmp ⟨base.head, n⟩ key) Q h := by
  simp only [at', wp_bind]
  apply wp_seek_root hcmp hs ht
  intro p hp
  cases hp with
  | found hx hkey =>
    rw [if_neg (Option.some_ne_none _), wp_bind]
    apply wp_entry_of_mem hs hx
    rw [wp_pure]
    exact hfound _ hx hkey
  | absent hnone =>
    rw [if_pos rfl, wp_pure]
    exact habsent hnone

theorem wp_count {Q : ℕ → Heap (Node K V) → Prop}
    (hfound : ∀ x ∈ t.inorder, Same cmp key x.2.1 → Q 1 h)
    (habsent : (∀ x ∈ t.inorder, ¬Same cmp key x.2.1) → Q 0 h) :
    wp (count cmp ⟨base.head, n⟩ key) Q h := by
  simp only [count, wp_bind]
  apply wp_find hcmp hs ht
  · intro x hx hkey
    rw [wp_pure, if_pos (by simpa [cend] using ne_head_of_mem hs hx)]
    exact hfound x hx hkey
  · intro hnone
    rw [wp_pure, if_neg (by simp [cend])]
    exact habsent hnone

theorem wp_subscript [Inhabited V] {Q : Map × Ptr → Heap (Node K V) → Prop} (hrb : t.IsRedBlack)
    (hn : n = t.inorder.length)
    (hold : ∀ x ∈ t.inorder, Same cmp key x.2.1 → Q (⟨base.head, n⟩, some x.1) h)
    (hnew : ∀ p h' t' before after, Holds h' [] (base.shape [] t' + F) → t'.IsRedBlack →
      t.inorder = before ++ after → t'.inorder = before ++ (p, key, default) :: after →
      (∀ x ∈ before, cmp x.2.1 key = true) → (∀ x ∈ after, cmp key x.2.1 = true) →
      Q (⟨base.head, n + 1⟩, some p) h') :
    wp (subscript cmp ⟨base.head, n⟩ key) Q h := by
  simp only [subscript, wp_bind]
  apply wp_seek_root hcmp hs ht
  intro p hp
  cases hp with
  | found hx hkey =>
    rw [if_pos (Option.some_ne_none _), wp_pure]
    exact hold _ hx hkey
  | absent hnone =>
    rw [if_neg (fun hne => hne rfl), wp_bind]
    apply wp_insert hcmp hs hrb ht hn
    · exact fun x hx hkey => absurd hkey (hnone x hx)
    · intro p h t' before after hs hrb hold hinorder hbefore hafter
      rw [wp_pure]
      exact hnew p h t' before after hs hrb hold hinorder hbefore hafter

end Lookups

end Course.Stl.Map
