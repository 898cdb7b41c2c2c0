import Course.Stl.ListItems

/-! The members of the list that add or remove one element. -/

open Course.Lib Heap HeapRing

namespace Course.Stl.LinkedList

variable {T : Type} {h : Heap (Cell T)} {F : Multiset (ℕ × Cell T)} {s : ℕ} {x : T}
  {o : LinkedList} {g g₁ g₂ : List (Item T)} {e : Item T}

/-- The ring from where an iterator between `g₁` and `g₂` points. -/
theorem exists_pos (s : ℕ) (g₁ g₂ : List (Item T)) :
    ∃ d r, chain g₂ ++ (s, none) :: chain g₁ = (head s (chain g₂), d) :: r := by
  cases g₂ with
  | nil => exact ⟨none, chain g₁, rfl⟩
  | cons e g₂ => exact ⟨some e.data, _, rfl⟩

theorem wp_insertValue_whole {Q : Ptr → Heap (Cell T) → Prop}
    (hs : Holds h [] (whole s (g₁ ++ g₂) + F))
    (hQ : ∀ e h', e.val = x → Holds h' [] (whole s (g₁ ++ e :: g₂) + F) →
      Q (some e.addr) h') : wp (insertValue (some (head s (chain g₂))) x) Q h := by
  obtain ⟨d, r, hr⟩ := exists_pos s g₁ g₂
  have hs' : Holds h [] (ring (link T) ((head s (chain g₂), d) :: r) +
      (objects (g₁ ++ g₂) + F)) := by
    apply hs.congr
    rw [whole_rotate, hr, add_assoc]
  apply wp_insertValue hs'
  intro c dc h' hs
  apply hQ ⟨c, dc, x⟩ h' rfl
  apply hs.congr
  have hwhole := whole_rotate (s := s) (g₁ ++ [⟨c, dc, x⟩]) g₂
  rw [List.append_assoc, List.singleton_append, chain_append, ← List.cons_append,
    ← List.append_assoc, hr] at hwhole
  rw [hwhole]
  simp only [chain_cons, chain_nil, List.cons_append, objects_append, objects_cons]
  abel

theorem wp_insert {Q : Ptr × LinkedList → Heap (Cell T) → Prop}
    (hs : Holds h [] (whole o.node (g₁ ++ g₂) + F))
    (hQ : ∀ e h', e.val = x → Holds h' [] (whole o.node (g₁ ++ e :: g₂) + F) →
      Q (some e.addr, { o with size := o.size + 1 }) h') :
    wp (insert o (some (head o.node (chain g₂))) x) Q h := by
  simp only [insert, wp_bind, wp_pure]
  exact wp_insertValue_whole hs hQ

theorem wp_push_back {Q : LinkedList → Heap (Cell T) → Prop}
    (hs : Holds h [] (whole o.node g + F))
    (hQ : ∀ e h', e.val = x → Holds h' [] (whole o.node (g ++ [e]) + F) →
      Q { o with size := o.size + 1 } h') : wp (push_back o x) Q h := by
  simp only [push_back, wp_bind, wp_pure]
  have hs' : Holds h [] (whole o.node (g ++ []) + F) := by rwa [List.append_nil]
  exact wp_insertValue_whole hs' hQ

theorem wp_push_front {Q : LinkedList → Heap (Cell T) → Prop}
    (hs : Holds h [] (whole o.node g + F))
    (hQ : ∀ e h', e.val = x → Holds h' [] (whole o.node (e :: g) + F) →
      Q { o with size := o.size + 1 } h') : wp (push_front o x) Q h := by
  simp only [push_front, wp_bind, wp_pure]
  cases g with
  | nil =>
    have hs' : Holds h [(o.node, link T none o.node o.node)] F := by
      apply hs.congr
      simp [whole_eq]
    apply wp_readNode hs' 0 rfl
    apply wp_newNode hs'
    intro c d h hs
    apply wp_setPrev hs 2 rfl
    intro h hs
    apply LinkedList.wp_setNext hs 2 rfl
    intro h hs
    apply hQ ⟨c, d, x⟩ h rfl
    apply hs.congr
    simp only [whole_eq, link, chain_cons, chain_nil, objects_cons, objects_nil, seg_cons, seg_nil,
      head_cons, head_nil, last_cons, last_nil, List.set_cons_zero, List.set_cons_succ,
      ← Multiset.cons_coe, ← Multiset.singleton_add, Multiset.coe_nil]
    abel
  | cons y g =>
    have hs' : Holds h [(o.node, link T none (last y.addr (chain g)) y.addr),
        (y.addr, link T (some y.data) o.node (head o.node (chain g)))]
        (seg (link T) y.addr o.node (chain g) + (objects (y :: g) + F)) := by
      apply hs.congr
      simp only [whole_eq, chain_cons, seg_cons, head_cons, last_cons, ← Multiset.cons_coe,
        ← Multiset.singleton_add, Multiset.coe_nil]
      abel
    apply wp_readNode hs' 0 rfl
    apply wp_newNode hs'
    intro c d h hs
    apply wp_setPrev hs 3 rfl
    intro h hs
    apply LinkedList.wp_setNext hs 2 rfl
    intro h hs
    apply hQ ⟨c, d, x⟩ h rfl
    apply hs.congr
    simp only [whole_eq, link, chain_cons, objects_cons, seg_cons, head_cons, last_cons,
      List.set_cons_zero, List.set_cons_succ, ← Multiset.cons_coe, ← Multiset.singleton_add,
      Multiset.coe_nil]
    abel

/-! ### Erasure -/

theorem wp_eraseNode_whole {Q : Unit → Heap (Cell T) → Prop}
    (hs : Holds h [] (whole s (g₁ ++ e :: g₂) + F))
    (hQ : ∀ h' p, Holds h' [(e.addr, link T (some e.data) p (head s (chain g₂))),
      (e.data, .object e.val)] (whole s (g₁ ++ g₂) + F) → Q () h') :
    wp (eraseNode (some e.addr)) Q h := by
  have hs' : Holds h [] (ring (link T) ((e.addr, some e.data) ::
      (chain g₂ ++ (s, none) :: chain g₁)) + (objects (g₁ ++ e :: g₂) + F)) := by
    apply hs.congr
    rw [whole_rotate, chain_cons, List.cons_append, add_assoc]
  apply wp_eraseNode (by simp) hs'
  intro h' hs
  apply hQ h' (last e.addr (chain g₂ ++ (s, none) :: chain g₁))
  apply hs.congr
  rw [whole_rotate, head_append, head_cons]
  simp only [objects_append, objects_cons, ← Multiset.cons_coe, ← Multiset.singleton_add,
    Multiset.coe_nil]
  abel

/-- The position after the erased node is returned. -/
theorem wp_erase {Q : Except Exception Ptr × LinkedList → Heap (Cell T) → Prop}
    (hsize : o.size ≠ 0) (hs : Holds h [] (whole o.node (g₁ ++ e :: g₂) + F))
    (hQ : ∀ h', Holds h' [] (whole o.node (g₁ ++ g₂) + F) →
      Q (.ok (some (head o.node (chain g₂))), { o with size := o.size - 1 }) h') :
    wp (erase o (some e.addr)) Q h := by
  have hne : some e.addr ≠ some o.node := fun heq => addr_ne_whole hs (Option.some.inj heq)
  rw [erase, if_neg hsize, if_neg hne]
  simp only [wp_bind, wp_pure]
  apply wp_eraseNode_whole hs
  intro h p hs
  apply wp_readNode hs 0 rfl
  exact wp_deleteNode hs rfl hQ

theorem wp_pop_back {Q : Except Exception Unit × LinkedList → Heap (Cell T) → Prop}
    (hsize : o.size ≠ 0) (hs : Holds h [] (whole o.node (g ++ [e]) + F))
    (hQ : ∀ h', Holds h' [] (whole o.node g + F) →
      Q (.ok (), { o with size := o.size - 1 }) h') : wp (pop_back o) Q h := by
  rw [pop_back, if_neg hsize]
  simp only [wp_bind, wp_pure]
  rcases List.eq_nil_or_concat g with rfl | ⟨g, z, rfl⟩
  · have hs' : Holds h [(e.addr, link T (some e.data) o.node o.node),
        (e.data, .object e.val), (o.node, link T none e.addr e.addr)] F := by
      apply hs.congr
      simp only [List.nil_append, whole_eq, chain_cons, chain_nil, objects_cons, objects_nil,
        seg_cons, seg_nil, head_cons, head_nil, last_cons, last_nil, ← Multiset.cons_coe,
        ← Multiset.singleton_add, Multiset.coe_nil]
      abel
    apply wp_readNode hs' 2 rfl
    apply wp_readNode hs' 0 rfl
    apply wp_setPrev hs' 2 rfl
    intro h hs
    apply wp_readNode hs 2 rfl
    apply LinkedList.wp_setNext hs 2 rfl
    intro h hs
    apply wp_deleteNode hs rfl
    intro h hs
    apply hQ
    apply hs.congr
    simp [whole_eq, link]
  · rw [List.concat_eq_append] at hs hQ
    have hs' : Holds h [(e.addr, link T (some e.data) z.addr o.node),
        (e.data, .object e.val), (o.node, link T none e.addr (head z.addr (chain g))),
        (z.addr, link T (some z.data) (last o.node (chain g)) e.addr)]
        (seg (link T) o.node z.addr (chain g) + (objects (g ++ [z]) + F)) := by
      apply hs.congr
      simp only [whole_eq, chain_append, chain_cons, chain_nil, objects_append, objects_cons,
        objects_nil, seg_append, seg_cons, seg_nil, head_append, head_cons, head_nil, last_append,
        last_cons, last_nil, ← Multiset.cons_coe, ← Multiset.singleton_add, Multiset.coe_nil]
      abel
    apply wp_readNode hs' 2 rfl
    apply wp_readNode hs' 0 rfl
    apply wp_setPrev hs' 2 rfl
    intro h hs
    apply wp_readNode hs 2 rfl
    apply LinkedList.wp_setNext hs 3 rfl
    intro h hs
    apply wp_deleteNode hs rfl
    intro h hs
    apply hQ
    apply hs.congr
    simp only [whole_eq, link, chain_append, chain_cons, chain_nil, seg_append, seg_cons, seg_nil,
      head_append, head_cons, head_nil, last_append, last_cons, last_nil, List.set_cons_zero,
      List.set_cons_succ, ← Multiset.cons_coe, ← Multiset.singleton_add, Multiset.coe_nil]
    abel

theorem wp_pop_front {Q : Except Exception Unit × LinkedList → Heap (Cell T) → Prop}
    (hsize : o.size ≠ 0) (hs : Holds h [] (whole o.node (e :: g) + F))
    (hQ : ∀ h', Holds h' [] (whole o.node g + F) →
      Q (.ok (), { o with size := o.size - 1 }) h') : wp (pop_front o) Q h := by
  rw [pop_front, if_neg hsize]
  simp only [wp_bind, wp_pure]
  cases g with
  | nil =>
    have hs' : Holds h [(e.addr, link T (some e.data) o.node o.node),
        (e.data, .object e.val), (o.node, link T none e.addr e.addr)] F := by
      apply hs.congr
      simp only [whole_eq, chain_cons, chain_nil, objects_cons, objects_nil, seg_cons, seg_nil,
        head_cons, head_nil, last_cons, last_nil, ← Multiset.cons_coe, ← Multiset.singleton_add,
        Multiset.coe_nil]
      abel
    apply wp_readNode hs' 2 rfl
    apply wp_readNode hs' 0 rfl
    apply LinkedList.wp_setNext hs' 2 rfl
    intro h hs
    apply wp_readNode hs 2 rfl
    apply wp_setPrev hs 2 rfl
    intro h hs
    apply wp_deleteNode hs rfl
    intro h hs
    apply hQ
    apply hs.congr
    simp [whole_eq, link]
  | cons z g =>
    have hs' : Holds h [(e.addr, link T (some e.data) o.node z.addr),
        (e.data, .object e.val), (o.node, link T none (last z.addr (chain g)) e.addr),
        (z.addr, link T (some z.data) e.addr (head o.node (chain g)))]
        (seg (link T) z.addr o.node (chain g) + (objects (z :: g) + F)) := by
      apply hs.congr
      simp only [whole_eq, chain_cons, objects_cons, seg_cons, head_cons, last_cons,
        ← Multiset.cons_coe, ← Multiset.singleton_add, Multiset.coe_nil]
      abel
    apply wp_readNode hs' 2 rfl
    apply wp_readNode hs' 0 rfl
    apply LinkedList.wp_setNext hs' 2 rfl
    intro h hs
    apply wp_readNode hs 2 rfl
    apply wp_setPrev hs 3 rfl
    intro h hs
    apply wp_deleteNode hs rfl
    intro h hs
    apply hQ
    apply hs.congr
    simp only [whole_eq, link, chain_cons, seg_cons, head_cons, last_cons, List.set_cons_zero,
      List.set_cons_succ, ← Multiset.cons_coe, ← Multiset.singleton_add, Multiset.coe_nil]
    abel

/-! ### Iterators -/

theorem wp_iterator {Q : Except Exception Ptr → Heap (Cell T) → Prop} {k : ℕ}
    (hk : k ≤ g.length) (hs : Holds h [] (nodes o.node g + F))
    (hQ : Q (.ok (some (head o.node (chain (g.drop k))))) h) : wp (iterator o k) Q h := by
  induction k generalizing Q with
  | zero =>
    simp only [iterator, wp_bind, wp_pure]
    apply wp_readNode_of_mem hs (Multiset.mem_add.mpr (.inl mem_sentinel))
    exact hQ
  | succ k ih =>
    have hdrop := List.drop_eq_getElem_cons hk
    have hg : g = g.take k ++ g[k] :: g.drop (k + 1) := by
      rw [← hdrop, List.take_append_drop]
    have hnode := mem_node o.node (g.take k) g[k] (g.drop (k + 1))
    rw [← hg] at hnode
    simp only [iterator, wp_bind]
    apply ih (Nat.le_of_lt hk)
    have hne : some g[k].addr ≠ some o.node := by
      rw [hg] at hs
      exact fun heq => addr_ne hs (Option.some.inj heq)
    rw [hdrop, chain_cons, head_cons]
    simp only [if_neg hne, wp_bind, wp_pure]
    exact wp_readNode_of_mem hs (Multiset.mem_add.mpr (.inl hnode)) hQ

end Course.Stl.LinkedList
