import Course.Stl.Forest

/-! What the loops of the priority queue do to its trees in memory. -/

open Course.Lib Heap

namespace Course.Stl.PriorityQueue

open Forest

variable {T : Type} {cmp : T → T → Bool} {h : Heap (Node T)} {l : List (ℕ × Node T)}
  {F : Multiset (ℕ × Node T)} {a b c i : ℕ} {n m : Node T} {p : Ptr} {f : Forest T}

/-! ### Nodes -/

theorem unfold_node {k : T} {d : ℕ} {child next : Forest T} :
    (↑l : Multiset (ℕ × Node T)) + ((node a k d child next).cells + F) =
      ↑((a, ⟨k, d, child.ptr, next.ptr⟩) :: l) + (child.cells + (next.cells + F)) := by
  simp only [Forest.cells, ← Multiset.cons_coe, ← Multiset.singleton_add]
  abel

theorem wp_setNext {Q : Unit → Heap (Node T) → Prop} (hs : Holds h l F) (i : ℕ)
    (hi : l[i]? = some (a, n))
    (hQ : ∀ h', Holds h' (l.set i (a, { n with next := p })) F → Q () h') :
    wp (setNext (some a) p) Q h :=
  wp_assign hs i hi rfl hQ

theorem wp_setChild {Q : Unit → Heap (Node T) → Prop} (hs : Holds h l F) (i : ℕ)
    (hi : l[i]? = some (a, n))
    (hQ : ∀ h', Holds h' (l.set i (a, { n with child := p })) F → Q () h') :
    wp (setChild (some a) p) Q h :=
  wp_assign hs i hi rfl hQ

theorem wp_hang {Q : Unit → Heap (Node T) → Prop} (hs : Holds h [(a, n), (b, m)] F)
    (hQ : ∀ h', Holds h' [(a, ⟨n.key, n.degree + 1, some b, n.next⟩),
      (b, { m with next := n.child })] F → Q () h') : wp (hang (some a) (some b)) Q h := by
  simp only [hang, wp_bind]
  apply wp_deref hs 0 rfl
  apply wp_setNext hs 1 rfl
  intro h hs
  apply wp_setChild hs 0 rfl
  intro h hs
  exact wp_assign hs 0 rfl rfl hQ

/-! ### Linking -/

/-- `current` is linked to a tree, and the tree is `current` from then on. -/
theorem wp_advance {P : Ptr → Heap (Node T) → Prop} {k : T} {d : ℕ} {child next : Forest T}
    (hs : Holds h [(c, n)] ((node a k d child next).cells + F))
    (hP : ∀ h', Holds h' [(a, ⟨k, d, child.ptr, next.ptr⟩)]
      (next.cells + ({(c, { n with next := some a })} + (child.cells + F))) → P next.ptr h') :
    wp (setNext (some c) (some a)) (fun _ => wp (deref (some a)) fun m => P m.next) h := by
  apply wp_setNext hs 0 rfl
  intro h hs
  have hs' := hs.congr unfold_node
  apply wp_deref hs' 0 rfl
  apply hP
  apply hs'.congr
  simp only [List.set_cons_zero, ← Multiset.cons_coe, ← Multiset.singleton_add]
  abel

theorem wp_drain {Q : Ptr → Heap (Node T) → Prop} {k : T} {d : ℕ} {child next : Forest T}
    (hs : Holds h [(c, n)] ((node a k d child next).cells + F))
    (hQ : ∀ c' h', Holds h' [(c, { n with next := some a })]
      ((node a k d child next).cells + F) → Q c' h') : wp (drain (some c) (some a)) Q h := by
  induction next generalizing h c n a k d child F with
  | nil =>
    rw [drain, if_neg (Option.some_ne_none a)]
    simp only [wp_bind]
    apply wp_advance (P := fun p => wp (drain (some a) p) Q) hs
    intro h hs
    rw [ptr_nil, drain, if_pos rfl, wp_pure]
    apply hQ
    apply hs.congr
    simp only [Forest.cells, ← Multiset.cons_coe, ← Multiset.singleton_add]
    abel
  | node a' k' d' child' next' _ ih =>
    rw [drain, if_neg (Option.some_ne_none a)]
    simp only [wp_bind]
    apply wp_advance (P := fun p => wp (drain (some a) p) Q) hs
    intro h hs
    apply ih hs
    intro c' h' hs
    apply hQ
    apply hs.congr
    simp only [Forest.cells, ptr_node, ← Multiset.cons_coe, ← Multiset.singleton_add]
    abel

theorem wp_drainBoth {Q : Ptr → Heap (Node T) → Prop} {x y : Forest T} (hx : x = nil ∨ y = nil)
    (hxy : ¬(x = nil ∧ y = nil)) (hs : Holds h [(c, n)] (x.cells + (y.cells + F)))
    (hQ : ∀ h', Holds h' [(c, { n with next := (Forest.link x y).ptr })]
      ((Forest.link x y).cells + F) → Q p h') :
    wp (drainBoth p (some c) x.ptr y.ptr) Q h := by
  simp only [drainBoth, wp_bind, wp_pure]
  cases x with
  | nil =>
    rw [ptr_nil, drain, if_pos rfl, wp_pure]
    cases y with
    | nil => exact absurd ⟨rfl, rfl⟩ hxy
    | node a k d child next =>
      apply wp_drain (hs.congr (by rw [cells_nil, zero_add]))
      intro c' h' hs
      exact hQ h' (hs.congr (by rw [link_nil_left]; rfl))
  | node a k d child next =>
    obtain rfl : y = nil := hx.resolve_left (by simp)
    apply wp_drain (hs.congr (by rw [cells_nil, zero_add]))
    intro c' h' hs
    rw [ptr_nil, drain, if_pos rfl, wp_pure]
    exact hQ h' (hs.congr (by rw [link_nil_right]; rfl))

/-- The first trees of two lists are compared. -/
theorem wp_heads {P : Node T → Node T → Heap (Node T) → Prop} {k k' : T} {d d' a' : ℕ}
    {ch nx ch' nx' : Forest T}
    (hs : Holds h l ((node a k d ch nx).cells + ((node a' k' d' ch' nx').cells + F)))
    (hP : P ⟨k, d, ch.ptr, nx.ptr⟩ ⟨k', d', ch'.ptr, nx'.ptr⟩ h) :
    wp (deref (some a)) (fun m => wp (deref (some a')) (P m)) h := by
  apply wp_deref (hs.congr unfold_node) 0 rfl
  rw [add_left_comm] at hs
  exact wp_deref (hs.congr unfold_node) 0 rfl hP

theorem wp_linkLoop {Q : Ptr → Heap (Node T) → Prop} {x y : Forest T}
    (hxy : ¬(x = nil ∧ y = nil)) (hs : Holds h [(c, n)] (x.cells + (y.cells + F)))
    (hQ : ∀ h', Holds h' [(c, { n with next := (Forest.link x y).ptr })]
      ((Forest.link x y).cells + F) → Q (some i) h') :
    wp (linkLoop (some i) (some c) x.ptr y.ptr)
      (fun r => wp (drainBoth r.1 r.2.1 r.2.2.1 r.2.2.2) Q) h := by
  fun_induction Forest.link x y generalizing h c n F with
  | case1 y =>
    rw [linkLoop, if_pos (.inl rfl), wp_pure]
    apply wp_drainBoth (.inl rfl) hxy hs
    simpa using hQ
  | case2 x hne =>
    rw [linkLoop, if_pos (.inr rfl), wp_pure]
    apply wp_drainBoth (.inr rfl) hxy hs
    simpa using hQ
  | case3 a k d ch nx a' k' d' ch' nx' hle ih =>
    rw [linkLoop, if_neg (by simp)]
    simp only [wp_bind]
    apply wp_heads hs
    rw [if_pos hle, wp_bind, extend, if_neg (Option.some_ne_none i)]
    simp only [wp_bind, wp_pure]
    apply wp_advance (P := fun p => wp (linkLoop (some i) (some a) p (some a')) _) hs
    intro h hs
    have hs' : Holds h [(a, ⟨k, d, ch.ptr, nx.ptr⟩)] (nx.cells +
        ((node a' k' d' ch' nx').cells + ({(c, { n with next := some a })} + (ch.cells + F)))) := by
      apply hs.congr
      abel
    apply ih (by simp) hs'
    intro h' hs
    apply hQ
    apply hs.congr
    simp only [Forest.cells, ptr_node, ← Multiset.cons_coe, ← Multiset.singleton_add]
    abel
  | case4 a k d ch nx a' k' d' ch' nx' hlt ih =>
    rw [linkLoop, if_neg (by simp)]
    simp only [wp_bind]
    apply wp_heads hs
    rw [if_neg hlt, wp_bind, extend, if_neg (Option.some_ne_none i)]
    simp only [wp_bind, wp_pure]
    rw [add_left_comm] at hs
    apply wp_advance (P := fun p => wp (linkLoop (some i) (some a') (some a) p) _) hs
    intro h hs
    have hs' : Holds h [(a', ⟨k', d', ch'.ptr, nx'.ptr⟩)] ((node a k d ch nx).cells +
        (nx'.cells + ({(c, { n with next := some a' })} + (ch'.cells + F)))) := by
      apply hs.congr
      abel
    apply ih (by simp) hs'
    intro h' hs
    apply hQ
    apply hs.congr
    simp only [Forest.cells, ptr_node, ← Multiset.cons_coe, ← Multiset.singleton_add]
    abel

theorem wp_link {Q : Ptr → Heap (Node T) → Prop} {x y : Forest T}
    (hs : Holds h [] (x.cells + (y.cells + F)))
    (hQ : ∀ h', Holds h' [] ((Forest.link x y).cells + F) → Q (Forest.link x y).ptr h') :
    wp (link x.ptr y.ptr) Q h := by
  cases x with
  | nil =>
    rw [link, if_pos ptr_nil, wp_pure]
    simpa using hQ h (by simpa using hs)
  | node a k d ch nx =>
    cases y with
    | nil =>
      rw [link, if_neg (by simp), if_pos ptr_nil, wp_pure]
      simpa using hQ h (by simpa using hs)
    | node a' k' d' ch' nx' =>
      rw [link, if_neg (by simp), if_neg (by simp), wp_bind, linkLoop, if_neg (by simp)]
      simp only [wp_bind]
      apply wp_heads hs
      rw [Forest.link] at hQ
      by_cases hle : d ≤ d'
      · rw [if_pos hle] at hQ
        rw [if_pos hle, wp_bind, extend, if_pos rfl, wp_pure, wp_bind]
        have hs := hs.congr unfold_node
        apply wp_deref hs 0 rfl
        have hs' : Holds h [(a, ⟨k, d, ch.ptr, nx.ptr⟩)] (nx.cells +
            ((node a' k' d' ch' nx').cells + (ch.cells + F))) := by
          apply hs.congr
          abel
        apply wp_linkLoop (by simp) hs'
        intro h' hs
        apply hQ
        apply hs.congr
        simp only [Forest.cells, ← Multiset.cons_coe, ← Multiset.singleton_add, Multiset.coe_nil]
        abel
      · rw [if_neg hle] at hQ
        rw [if_neg hle, wp_bind, extend, if_pos rfl, wp_pure, wp_bind]
        rw [add_left_comm] at hs
        have hs := hs.congr unfold_node
        apply wp_deref hs 0 rfl
        have hs' : Holds h [(a', ⟨k', d', ch'.ptr, nx'.ptr⟩)] ((node a k d ch nx).cells +
            (nx'.cells + (ch'.cells + F))) := by
          apply hs.congr
          abel
        apply wp_linkLoop (by simp) hs'
        intro h' hs
        apply hQ
        apply hs.congr
        simp only [Forest.cells, ← Multiset.cons_coe, ← Multiset.singleton_add, Multiset.coe_nil]
        abel

/-! ### Merging -/

theorem wp_mergeFront {Q : Ptr → Heap (Node T) → Prop} (hf : f ≠ nil)
    (hs : Holds h [] (f.cells + F))
    (hQ : ∀ h', Holds h' [] ((Forest.mergeFront cmp f).cells + F) →
      Q (Forest.mergeFront cmp f).ptr h') : wp (mergeFront cmp f.ptr) Q h := by
  fun_induction Forest.mergeFront cmp f generalizing h with
  | case1 a k ch a' k' d ch' nx ih =>
    have hs' : Holds h [(a', ⟨k', d, ch'.ptr, nx.ptr⟩), (a, ⟨k, d, ch.ptr, some a'⟩)]
        (ch.cells + (nx.cells + (ch'.cells + F))) := by
      apply hs.congr
      simp only [Forest.cells, ptr_node, ← Multiset.cons_coe, ← Multiset.singleton_add,
        Multiset.coe_nil]
      abel
    rw [mergeFront]
    simp only [wp_bind, ptr_node]
    apply wp_deref hs' 1 rfl
    rw [if_neg (Option.some_ne_none a'), wp_bind]
    apply wp_deref hs' 0 rfl
    rw [if_neg (not_not_intro rfl)]
    rw [join] at ih hQ
    by_cases hlt : cmp k k' = true
    · rw [if_pos hlt] at ih hQ
      rw [if_pos hlt, wp_bind]
      apply wp_hang hs'
      intro h hs
      apply ih (by simp) _ hQ
      apply hs.congr
      simp only [Forest.cells, ptr_node, ← Multiset.cons_coe, ← Multiset.singleton_add,
        Multiset.coe_nil]
      abel
    · rw [if_neg hlt] at ih hQ
      rw [if_neg hlt, wp_bind]
      apply wp_setNext hs' 1 rfl
      intro h hs
      rw [wp_bind]
      apply wp_hang (hs.congr (congrArg (· + _) (Multiset.coe_eq_coe.mpr (List.Perm.swap ..))))
      intro h hs
      apply ih (by simp) _ hQ
      apply hs.congr
      simp only [Forest.cells, ptr_node, ← Multiset.cons_coe, ← Multiset.singleton_add,
        Multiset.coe_nil]
      abel
  | case2 a k d ch a' k' d' ch' nx hne =>
    have hs' : Holds h [(a', ⟨k', d', ch'.ptr, nx.ptr⟩), (a, ⟨k, d, ch.ptr, some a'⟩)]
        (ch.cells + (nx.cells + (ch'.cells + F))) := by
      apply hs.congr
      simp only [Forest.cells, ptr_node, ← Multiset.cons_coe, ← Multiset.singleton_add,
        Multiset.coe_nil]
      abel
    rw [mergeFront]
    simp only [wp_bind, ptr_node]
    apply wp_deref hs' 1 rfl
    rw [if_neg (Option.some_ne_none a'), wp_bind]
    apply wp_deref hs' 0 rfl
    rw [if_pos hne, wp_pure]
    exact hQ h hs
  | case3 f hsingle =>
    cases f with
    | nil => exact absurd rfl hf
    | node a k d ch nx =>
      cases nx with
      | node a' k' d' ch' nx' => exact absurd rfl (hsingle a k d ch a' k' d' ch' nx')
      | nil =>
        rw [mergeFront]
        simp only [wp_bind, ptr_node]
        apply wp_deref (hs.congr unfold_node) 0 rfl
        rw [ptr_nil, if_pos rfl, wp_pure]
        exact hQ h hs

theorem wp_followed {Q : Bool → Heap (Node T) → Prop} {x : Forest T} (hs : Holds h l (x.cells + F))
    (hm : m.next = x.ptr) (hQ : Q (x.Starts m.degree) h) : wp (followed m) Q h := by
  cases x with
  | nil =>
    have hnone : m.next = none := hm
    rw [followed, if_pos hnone, wp_pure]
    exact hQ
  | node a k d ch nx =>
    have hne : m.next ≠ none := by simp [hm]
    simp only [followed, if_neg hne, wp_bind, wp_pure]
    rw [hm]
    exact wp_deref (hs.congr unfold_node) 0 rfl hQ

theorem wp_mergeRest {Q : Unit → Heap (Node T) → Prop} (hn : n.next = f.ptr)
    (hs : Holds h [(b, n)] (f.cells + F))
    (hQ : ∀ h', Holds h' [(b, { n with next := (Forest.mergeRest cmp f).ptr })]
      ((Forest.mergeRest cmp f).cells + F) → Q () h') : wp (mergeRest cmp (some b) f.ptr) Q h := by
  fun_induction Forest.mergeRest cmp f generalizing h b n F with
  | case1 a k d ch a' k' d' ch' nx hd ih =>
    obtain ⟨rfl, hnx⟩ := hd
    have hs' : Holds h [(b, n), (a', ⟨k', d, ch'.ptr, nx.ptr⟩), (a, ⟨k, d, ch.ptr, some a'⟩)]
        (nx.cells + (ch.cells + (ch'.cells + F))) := by
      apply hs.congr
      simp only [Forest.cells, ptr_node, ← Multiset.cons_coe, ← Multiset.singleton_add]
      abel
    rw [mergeRest, if_neg (by simp)]
    simp only [wp_bind, ptr_node]
    apply wp_deref hs' 2 rfl
    rw [if_neg (Option.some_ne_none a'), wp_bind]
    apply wp_deref hs' 1 rfl
    rw [if_neg (not_not_intro rfl), wp_bind]
    apply wp_followed hs' rfl
    rw [if_neg (by simpa using hnx)]
    rw [join] at hQ
    by_cases hlt : cmp k k' = true
    · rw [if_pos hlt] at hQ
      rw [if_pos hlt, wp_bind]
      apply wp_setNext hs' 0 rfl
      intro h hs
      rw [wp_bind]
      apply wp_deref hs 0 rfl
      have hs'' : Holds h [(a', ⟨k', d, ch'.ptr, nx.ptr⟩), (a, ⟨k, d, ch.ptr, some a'⟩)]
          ({(b, { n with next := some a' })} + (nx.cells + (ch.cells + (ch'.cells + F)))) := by
        apply hs.congr
        simp only [List.set_cons_zero, ← Multiset.cons_coe, ← Multiset.singleton_add]
        abel
      rw [wp_bind]
      apply wp_hang hs''
      intro h hs
      rw [wp_bind]
      apply wp_deref_of_mem hs (Multiset.mem_add.mpr (.inl (Multiset.mem_singleton_self _)))
      rw [wp_bind]
      apply wp_deref hs 0 rfl
      apply ih (n := ⟨k', d + 1, some a, nx.ptr⟩)
        (F := {(b, { n with next := some a' })} + (F + (node a k d ch ch').cells)) rfl
      · apply hs.congr
        simp only [Forest.cells, ← Multiset.cons_coe, ← Multiset.singleton_add]
        abel
      intro h' hs
      apply hQ
      apply hs.congr
      simp only [Forest.cells, ptr_node, ← Multiset.cons_coe, ← Multiset.singleton_add]
      abel
    · rw [if_neg hlt] at hQ
      rw [if_neg hlt, wp_bind]
      apply wp_deref hs' 0 rfl
      rw [hn, ptr_node, wp_bind]
      apply wp_setNext hs' 2 rfl
      intro h hs
      have hs'' : Holds h [(a, ⟨k, d, ch.ptr, nx.ptr⟩), (a', ⟨k', d, ch'.ptr, nx.ptr⟩)]
          ({(b, n)} + (nx.cells + (ch.cells + (ch'.cells + F)))) := by
        apply hs.congr
        simp only [List.set_cons_zero, List.set_cons_succ, ← Multiset.cons_coe,
          ← Multiset.singleton_add]
        abel
      rw [wp_bind]
      apply wp_hang hs''
      intro h hs
      rw [wp_bind]
      apply wp_deref hs 0 rfl
      apply ih (n := ⟨k, d + 1, some a', nx.ptr⟩)
        (F := {(b, n)} + (F + (node a' k' d ch' ch).cells)) rfl
      · apply hs.congr
        simp only [Forest.cells, ← Multiset.cons_coe, ← Multiset.singleton_add]
        abel
      intro h' hs
      apply hQ
      apply hs.congr
      rw [ptr_node, ← ptr_node a k d ch (node a' k' d ch' nx), ← hn]
      simp only [Forest.cells, ptr_node, ← Multiset.cons_coe, ← Multiset.singleton_add]
      abel
  | case2 a k d ch a' k' d' ch' nx hd ih =>
    have hs' : Holds h [(b, n), (a', ⟨k', d', ch'.ptr, nx.ptr⟩), (a, ⟨k, d, ch.ptr, some a'⟩)]
        (nx.cells + (ch.cells + (ch'.cells + F))) := by
      apply hs.congr
      simp only [Forest.cells, ptr_node, ← Multiset.cons_coe, ← Multiset.singleton_add]
      abel
    have hnext : wp (mergeRest cmp (some a) (some a')) Q h := by
      apply ih (n := ⟨k, d, ch.ptr, some a'⟩) (F := {(b, n)} + (ch.cells + F)) rfl
      · apply hs.congr
        simp only [Forest.cells, ptr_node, ← Multiset.cons_coe, ← Multiset.singleton_add]
        abel
      intro h' hs
      apply hQ
      apply hs.congr
      rw [ptr_node, ← ptr_node a k d ch (node a' k' d' ch' nx), ← hn]
      simp only [Forest.cells, ← Multiset.cons_coe, ← Multiset.singleton_add]
      abel
    rw [mergeRest, if_neg (by simp)]
    simp only [wp_bind, ptr_node]
    apply wp_deref hs' 2 rfl
    rw [if_neg (Option.some_ne_none a'), wp_bind]
    apply wp_deref hs' 1 rfl
    by_cases heq : d = d'
    · rw [if_neg (not_not_intro heq), wp_bind]
      apply wp_followed hs' rfl
      have hnx : nx.Starts d' := by
        by_contra hnx
        exact hd ⟨heq, hnx⟩
      rw [if_pos (decide_eq_true hnx), wp_bind]
      apply wp_deref hs' 0 rfl
      rw [hn]
      exact hnext
    · rw [if_pos heq, wp_bind]
      apply wp_deref hs' 0 rfl
      rw [hn]
      exact hnext
  | case3 f hsingle =>
    cases f with
    | nil =>
      rw [mergeRest, if_pos ptr_nil, wp_pure]
      exact hQ h (hs.congr (by rw [← hn]))
    | node a k d ch nx =>
      cases nx with
      | node a' k' d' ch' nx' => exact absurd rfl (hsingle a k d ch a' k' d' ch' nx')
      | nil =>
        rw [mergeRest, if_neg (by simp)]
        simp only [wp_bind, ptr_node]
        apply wp_deref (hs.congr unfold_node) 0 rfl
        rw [ptr_nil, if_pos rfl, wp_pure]
        exact hQ h (hs.congr (by rw [← hn]))

theorem mergeFront_ne_nil (hf : f ≠ nil) : Forest.mergeFront cmp f ≠ nil := by
  fun_induction Forest.mergeFront cmp f with
  | case1 a k ch a' k' d ch' nx ih =>
    apply ih
    rw [join]
    split <;> simp
  | case2 => exact hf
  | case3 => exact hf

theorem wp_mergeTrees {Q : Ptr → Heap (Node T) → Prop} (hs : Holds h [] (f.cells + F))
    (hQ : ∀ h', Holds h' [] ((Forest.mergeTrees cmp f).cells + F) →
      Q (Forest.mergeTrees cmp f).ptr h') : wp (mergeTrees cmp f.ptr) Q h := by
  cases f with
  | nil =>
    rw [mergeTrees, if_pos ptr_nil, wp_pure]
    simpa using hQ h (by simpa using hs)
  | node a k d ch nx =>
    rw [mergeTrees, if_neg (by simp), wp_bind]
    apply wp_deref (hs.congr unfold_node) 0 rfl
    cases nx with
    | nil =>
      rw [ptr_nil, if_pos rfl, wp_pure]
      simpa using hQ h (by simpa using hs)
    | node a' k' d' ch' nx' =>
      have hne : Forest.mergeFront cmp (node a k d ch (node a' k' d' ch' nx')) ≠ nil :=
        mergeFront_ne_nil (by simp)
      rw [if_neg (by simp), wp_bind]
      apply wp_mergeFront (by simp) hs
      intro h hs
      rw [Forest.mergeTrees] at hQ
      generalize Forest.mergeFront cmp (node a k d ch (node a' k' d' ch' nx')) = g at hQ hs hne
      cases g with
      | nil => exact absurd rfl hne
      | node b k d ch nx =>
        have hs' := hs.congr unfold_node
        rw [wp_bind]
        apply wp_deref hs' 0 rfl
        have hs'' : Holds h [(b, ⟨k, d, ch.ptr, nx.ptr⟩)] (nx.cells + (ch.cells + F)) := by
          apply hs'.congr
          abel
        have hrest : wp (mergeRest cmp (some b) nx.ptr) (fun _ => Q (some b)) h := by
          apply wp_mergeRest rfl hs''
          intro h' hs
          apply hQ
          apply hs.congr
          simp only [Forest.cells, mergeTail, ← Multiset.cons_coe, ← Multiset.singleton_add]
          abel
        cases nx with
        | nil =>
          rw [ptr_nil, if_pos rfl, wp_pure]
          exact hQ h (hs.congr (by rw [mergeTail, mergeRest_nil]))
        | node a' k' d' ch' nx' =>
          rw [if_neg (by simp)]
          simp only [wp_bind, wp_pure]
          exact hrest

theorem wp_adopt {Q : Ptr → Heap (Node T) → Prop} {x : Forest T}
    (hs : Holds h [] (x.cells + (f.cells + F)))
    (hQ : ∀ h', Holds h' [] ((Forest.adopt cmp x f).cells + F) →
      Q (Forest.adopt cmp x f).ptr h') : wp (adopt cmp x.ptr f.ptr) Q h := by
  induction f generalizing x h with
  | nil =>
    rw [adopt, if_pos ptr_nil, wp_pure]
    exact hQ h (by simpa [Forest.adopt] using hs)
  | node a k d ch nx _ ih =>
    rw [adopt, if_neg (by simp)]
    simp only [wp_bind]
    have hs' : Holds h [(a, ⟨k, d, ch.ptr, nx.ptr⟩)] (x.cells + (ch.cells + (nx.cells + F))) := by
      apply hs.congr
      simp only [Forest.cells, ← Multiset.cons_coe, ← Multiset.singleton_add, Multiset.coe_nil]
      abel
    apply wp_deref hs' 0 rfl
    apply wp_setNext hs' 0 rfl
    intro h hs
    apply wp_link (x := x) (y := node a k d ch nil) (F := nx.cells + F)
    · apply hs.congr
      simp only [Forest.cells, ptr_nil, List.set_cons_zero, ← Multiset.cons_coe,
        ← Multiset.singleton_add, Multiset.coe_nil]
      abel
    intro h hs
    apply wp_mergeTrees hs
    intro h hs
    exact ih hs hQ

/-! ### Whole forests -/

theorem wp_remove {Q : Unit → Heap (Node T) → Prop} (hs : Holds h [] (f.cells + F))
    (hQ : ∀ h', Holds h' [] F → (∀ a, f.ptr = some a → h'.cells a = none) → Q () h') :
    wp (remove f.ptr) Q h := by
  induction f generalizing h F Q with
  | nil =>
    rw [remove, if_pos ptr_nil, wp_pure]
    exact hQ h (hs.congr (by simp)) (by simp)
  | node a k d ch nx hchild hnext =>
    rw [remove, if_neg (by simp)]
    simp only [wp_bind]
    have hs' := hs.congr unfold_node
    apply wp_deref hs' 0 rfl
    have hs'' : Holds h [] (ch.cells + (nx.cells + ({(a, ⟨k, d, ch.ptr, nx.ptr⟩)} + F))) := by
      apply hs'.congr
      simp only [← Multiset.cons_coe, ← Multiset.singleton_add, Multiset.coe_nil]
      abel
    apply hchild hs''
    intro h hs _
    apply wp_deref_of_mem hs (n := ⟨k, d, ch.ptr, nx.ptr⟩) (by simp)
    apply hnext hs
    intro h hs _
    have hlast : Holds h [(a, ⟨k, d, ch.ptr, nx.ptr⟩)] F := hs.congr (by simp)
    apply wp_delete_freed hlast 0 rfl
    intro h' hs hfreed
    apply hQ h' hs
    rintro b ⟨⟩
    exact hfreed

theorem remove_freed (ha : h.cells a = none) : remove (some a) h = none := by
  have hstuck : deref (some a) h = none := by simp [deref, ha]
  rw [remove, if_neg (Option.some_ne_none a)]
  exact congrArg (Option.bind · _) hstuck

end Course.Stl.PriorityQueue
