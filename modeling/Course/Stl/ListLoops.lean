import Course.Stl.ListMembers
import Mathlib.Data.List.Induction

/-! What `merge`, `reverse` and `unique` do to the nodes and elements of lists. -/

open Course.Lib Heap HeapRing

namespace Course.Stl.LinkedList

variable {T : Type} {h : Heap (Cell T)} {F : Multiset (ℕ × Cell T)} {s t b : ℕ}
  {g g₁ g₂ m : List (Item T)} {e : Item T} {lt eq : T → T → Bool}

/-! ### Merging -/

/-- The elements of `m` go first where neither is less. -/
def merged (lt : T → T → Bool) (l m : List T) : List T := m.merge l fun y x => !lt x y

/-- `merged` with the nodes the elements are in. -/
def mergedItems (lt : T → T → Bool) (g m : List (Item T)) : List (Item T) :=
  m.merge g fun y x => !lt x.val y.val

theorem values_mergedItems : values (mergedItems lt g m) = merged lt (values g) (values m) := by
  unfold values mergedItems merged
  exact List.map_merge fun _ _ _ _ => rfl

/-- What is left of the other list while its nodes are moved. -/
def rest (t b : ℕ) (next : Ptr) (m : List (Item T)) : Multiset (ℕ × Cell T) :=
  {(t, .node ⟨none, some (last b (chain m)), next⟩)} +
    (seg (link T) b t (chain m) + objects m)

theorem whole_eq_rest : whole t m = rest t t (some (head t (chain m))) m := whole_eq

theorem wp_insertNode_whole {Q : Unit → Heap (Cell T) → Prop} {n : Node}
    (hn : n.data = some e.data)
    (hs : Holds h [(e.addr, .node n), (e.data, .object e.val)] (whole s (g₁ ++ g₂) + F))
    (hQ : ∀ h', Holds h' [] (whole s (g₁ ++ e :: g₂) + F) → Q () h') :
    wp (insertNode (some (head s (chain g₂))) (some e.addr)) Q h := by
  obtain ⟨d, r, hr⟩ := exists_pos s g₁ g₂
  have hs' : Holds h [(e.addr, .node n)] (ring (link T) ((head s (chain g₂), d) :: r) +
      ({(e.data, .object e.val)} + (objects (g₁ ++ g₂) + F))) := by
    apply hs.congr
    rw [whole_rotate, hr]
    simp only [← Multiset.cons_coe, ← Multiset.singleton_add]
    abel
  apply wp_insertNode hs'
  intro h' hs
  apply hQ
  apply hs.congr
  have hwhole := whole_rotate (s := s) (g₁ ++ [e]) g₂
  rw [List.append_assoc, List.singleton_append, chain_append, ← List.cons_append,
    ← List.append_assoc, hr] at hwhole
  rw [hwhole, hn]
  simp only [chain_cons, chain_nil, List.cons_append, objects_append, objects_cons]
  abel

/-- One node is moved; `q->_prev` is still the node that `q` was before. -/
theorem wp_moveNode {Q : Ptr → Heap (Cell T) → Prop} {next : Ptr} {p : ℕ}
    (hp : p = head s (chain g₂))
    (hs : Holds h [] (whole s (g₁ ++ g₂) + (rest t b next (e :: m) + F)))
    (hQ : ∀ h', Holds h' [] (whole s (g₁ ++ e :: g₂) + (rest t e.addr next m + F)) →
      Q (some (head t (chain m))) h') :
    wp (readNode (some e.addr)) (fun n => wp (readNode n.next) (fun n' =>
      wp (insertNode (some p) n'.prev) (fun _ => Q n.next))) h := by
  subst hp
  have hs' : Holds h [(e.addr, .node ⟨some e.data, some b, some (head t (chain m))⟩),
      (e.data, .object e.val)] (whole s (g₁ ++ g₂) + (rest t e.addr next m + F)) := by
    apply hs.congr
    simp only [rest, link, chain_cons, objects_cons, seg_cons, last_cons, ← Multiset.cons_coe,
      ← Multiset.singleton_add, Multiset.coe_nil]
    abel
  have hprev : ∃ d p, (head t (chain m), .node ⟨d, some e.addr, p⟩) ∈
      whole s (g₁ ++ g₂) + (rest t e.addr next m + F) := by
    cases m with
    | nil => exact ⟨none, next, by simp [rest]⟩
    | cons e' m => exact ⟨some e'.data, some (head t (chain m)), by simp [rest, seg_cons, link]⟩
  obtain ⟨d, p, hprev⟩ := hprev
  apply wp_readNode hs' 0 rfl
  apply wp_readNode_of_mem hs' hprev
  exact wp_insertNode_whole rfl hs' hQ

theorem wp_mergeLoop {Q : Ptr × Ptr × ℕ → Heap (Cell T) → Prop} {next : Ptr} {size : ℕ}
    (hs : Holds h [] (whole s (g₁ ++ g₂) + (rest t b next m + F)))
    (hQ : ∀ h' g₁' g₂' m' b' size', (g₂' = [] ∨ m' = []) →
      g₁' ++ mergedItems lt g₂' m' = g₁ ++ mergedItems lt g₂ m →
      size' + m'.length = size + m.length →
      Holds h' [] (whole s (g₁' ++ g₂') + (rest t b' next m' + F)) →
      Q (some (head s (chain g₂')), some (head t (chain m')), size') h') :
    wp (mergeLoop lt (some s) (some t) (some (head s (chain g₂))) (some (head t (chain m))) size)
      Q h := by
  induction g₂ generalizing h g₁ m b size with
  | nil =>
    rw [mergeLoop, if_pos (.inl rfl), wp_pure]
    exact hQ h g₁ [] m b size (.inl rfl) rfl rfl hs
  | cons x g₂ ihg =>
    induction m generalizing h g₁ b size with
    | nil =>
      rw [mergeLoop, if_pos (.inr rfl), wp_pure]
      exact hQ h g₁ (x :: g₂) [] b size (.inr rfl) rfl rfl hs
    | cons e m ihm =>
      have hx : x.addr ≠ s := addr_ne_whole hs
      have hs' : Holds h [(e.addr, .node ⟨some e.data, some b, some (head t (chain m))⟩),
          (e.data, .object e.val)]
          (whole s (g₁ ++ x :: g₂) + (rest t e.addr next m + F)) := by
        apply hs.congr
        simp only [rest, link, chain_cons, objects_cons, seg_cons, last_cons,
          ← Multiset.cons_coe, ← Multiset.singleton_add, Multiset.coe_nil]
        abel
      have he : e.addr ≠ t := by
        have ht : (t, .node ⟨none, some (last e.addr (chain m)), next⟩) ∈
            whole s (g₁ ++ x :: g₂) + (rest t e.addr next m + F) := by simp [rest]
        exact (hs'.ne_of_mem (i := 0) rfl ht).symm
      rw [chain_cons, head_cons, chain_cons, head_cons, mergeLoop, if_neg (by simp [hx, he])]
      simp only [wp_bind]
      apply wp_readNode_of_mem hs' (mem_whole_node s g₁ x g₂)
      apply wp_readObject_of_mem hs' (mem_whole_object (e := x) (by simp))
      apply wp_readNode hs' 0 rfl
      apply wp_readObject_of_cells (hs'.cells_of_getElem? (i := 1) rfl)
      by_cases hlt : lt x.val e.val = true
      · rw [if_pos hlt, wp_bind]
        apply wp_readNode_of_mem hs' (mem_whole_node s g₁ x g₂)
        have hs' : Holds h [] (whole s ((g₁ ++ [x]) ++ g₂) + (rest t b next (e :: m) + F)) := by
          rwa [List.append_assoc, List.singleton_append]
        apply ihg hs'
        · intro h' g₁' g₂' m' b' size' hend heq hsize hs
          refine hQ h' g₁' g₂' m' b' size' hend ?_ hsize hs
          rw [heq, mergedItems, mergedItems, List.cons_merge_cons_neg _ _ _ (by simp [hlt])]
          simp
      · rw [if_neg hlt]
        simp only [wp_bind]
        apply wp_moveNode (p := x.addr)
          (Q := fun q => wp (mergeLoop lt (some s) (some t) (some x.addr) q (size + 1)) Q) rfl hs
        intro h hs
        have hs' : Holds h [] (whole s ((g₁ ++ [e]) ++ x :: g₂) + (rest t e.addr next m + F)) := by
          rwa [List.append_assoc, List.singleton_append]
        apply ihm hs'
        · intro h' g₁' g₂' m' b' size' hend heq hsize hs
          refine hQ h' g₁' g₂' m' b' size' hend ?_ ?_ hs
          · rw [heq, mergedItems, mergedItems, List.cons_merge_cons_pos _ _ _ (by simp [hlt])]
            simp
          · rw [hsize, List.length_cons, Nat.add_right_comm, Nat.add_assoc]

theorem wp_mergeRest {Q : ℕ → Heap (Cell T) → Prop} {next : Ptr} {size : ℕ}
    (hs : Holds h [] (whole s g + (rest t b next m + F)))
    (hQ : ∀ h' b', Holds h' [] (whole s (g ++ m) + (rest t b' next [] + F)) →
      Q (size + m.length) h') :
    wp (mergeRest (some s) (some t) (some (head t (chain m))) size) Q h := by
  induction m generalizing h g b size with
  | nil =>
    rw [mergeRest, chain_nil, head_nil, if_pos rfl, wp_pure]
    exact hQ h b (by rwa [List.append_nil])
  | cons e m ih =>
    have hs' : Holds h [(e.addr, .node ⟨some e.data, some b, some (head t (chain m))⟩)]
        ({(e.data, .object e.val)} + (whole s g + (rest t e.addr next m + F))) := by
      apply hs.congr
      simp only [rest, link, chain_cons, objects_cons, seg_cons, last_cons,
        ← Multiset.cons_coe, ← Multiset.singleton_add, Multiset.coe_nil]
      abel
    have he : e.addr ≠ t := by
      have ht : (t, .node ⟨none, some (last e.addr (chain m)), next⟩) ∈
          {(e.data, .object e.val)} + (whole s g + (rest t e.addr next m + F)) := by simp [rest]
      exact (hs'.ne_of_mem (i := 0) rfl ht).symm
    rw [chain_cons, head_cons, mergeRest, if_neg (by simp [he])]
    simp only [wp_bind]
    have hend : Holds h [] (whole s (g ++ []) + (rest t b next (e :: m) + F)) := by
      rwa [List.append_nil]
    apply wp_moveNode (p := s)
      (Q := fun q => wp (mergeRest (some s) (some t) q (size + 1)) Q) rfl hend
    intro h hs
    apply ih hs
    intro h' b' hs
    rw [List.append_assoc, List.singleton_append] at hs
    have hlen : size + 1 + m.length = size + (e :: m).length := by
      rw [List.length_cons, Nat.add_right_comm, Nat.add_assoc]
    exact hlen ▸ hQ h' b' hs

theorem wp_merge {Q : LinkedList × LinkedList → Heap (Cell T) → Prop} {o other : LinkedList}
    (hs : Holds h [] (whole o.node g + (whole other.node m + F)))
    (hQ : ∀ h', Holds h' [] (whole o.node (mergedItems lt g m) + (whole other.node [] + F)) →
      Q ({ o with size := o.size + m.length }, { other with size := 0 }) h') :
    wp (merge lt o other) Q h := by
  have hs' : Holds h [] (whole o.node ([] ++ g) + (rest other.node other.node
      (some (head other.node (chain m))) m + F)) := by rwa [← whole_eq_rest]
  have hsentinel' : (other.node, link T none (last other.node (chain m))
      (head other.node (chain m))) ∈ whole o.node g + (whole other.node m + F) := by
    simp [whole, mem_sentinel]
  -- the sentinel of the other list, behind which nothing is left
  have hclose : ∀ {h g' size b next}, size = o.size + m.length →
      g' = mergedItems lt g m →
      Holds h [] (whole o.node g' + (rest other.node b next [] + F)) →
      wp (setNext (some other.node) (some other.node)) (fun _ =>
        wp (setPrev (some other.node) (some other.node)) (fun _ =>
          Q ({ o with size := size }, { other with size := 0 }))) h := by
    rintro h _ _ b next rfl rfl hs
    have hs' : Holds h [(other.node, .node ⟨none, some b, next⟩)]
        (whole o.node (mergedItems lt g m) + F) := by
      apply hs.congr
      simp only [rest, chain_nil, last_nil, seg_nil, objects_nil, ← Multiset.cons_coe,
        ← Multiset.singleton_add, Multiset.coe_nil]
      abel
    apply LinkedList.wp_setNext hs' 0 rfl
    intro h hs
    apply wp_setPrev hs 0 rfl
    intro h hs
    apply hQ
    apply hs.congr
    simp only [whole_eq, link, chain_nil, head_nil, last_nil, seg_nil, objects_nil,
      List.set_cons_zero, ← Multiset.cons_coe, ← Multiset.singleton_add, Multiset.coe_nil]
    abel
  simp only [merge, wp_bind]
  apply wp_readNode_of_mem hs mem_whole_sentinel
  apply wp_readNode_of_mem hs hsentinel'
  apply wp_mergeLoop hs'
  intro h g₁ g₂ m' b size hend heq hsize hs
  rw [List.nil_append] at heq
  cases g₂ with
  | nil =>
    simp only [chain_nil, head_nil, if_pos, wp_bind, wp_pure]
    rw [List.append_nil] at hs
    apply wp_mergeRest hs
    intro h b' hs
    apply hclose hsize _ hs
    rw [← heq, mergedItems, List.merge_right]
  | cons x g₂ =>
    obtain rfl : m' = [] := hend.resolve_left (by simp)
    have hx : x.addr ≠ o.node := addr_ne_whole hs
    rw [chain_cons, head_cons, if_neg (by simpa using hx)]
    simp only [wp_bind, wp_pure]
    apply hclose hsize _ hs
    rw [← heq, mergedItems, List.nil_merge]

/-! ### Reversal -/

/-- Only the node changes; no element does. -/
theorem wp_setData_nodes {Q : Unit → Heap (Cell T) → Prop} (d : ℕ) (v : T)
    (hs : Holds h [] (nodes s (g₁ ++ e :: g₂) + F))
    (hQ : ∀ h', Holds h' [] (nodes s (g₁ ++ ⟨e.addr, d, v⟩ :: g₂) + F) → Q () h') :
    wp (setData (some e.addr) (some d)) Q h := by
  have hs' : Holds h [(e.addr, link T (some e.data) (last s (chain g₁)) (head s (chain g₂)))]
      ({(s, link T none (last s (chain (g₁ ++ e :: g₂))) (head s (chain (g₁ ++ e :: g₂))))} +
        (seg (link T) s e.addr (chain g₁) + (seg (link T) e.addr s (chain g₂) + F))) := by
    apply hs.congr
    simp only [nodes_eq, chain_append, chain_cons, seg_append, seg_cons, head_cons,
      ← Multiset.cons_coe, ← Multiset.singleton_add, Multiset.coe_nil]
    abel
  apply wp_setData hs' 0 rfl
  intro h' hs
  apply hQ
  apply hs.congr
  simp only [nodes_eq, link, chain_append, chain_cons, seg_append, seg_cons, head_append,
    head_cons, last_append, last_cons, List.set_cons_zero, ← Multiset.cons_coe,
    ← Multiset.singleton_add, Multiset.coe_nil]
  abel

theorem wp_reverseLoop {Q : Unit → Heap (Cell T) → Prop} {A M B : List (Item T)}
    (hs : Holds h [] (whole s (A ++ (M ++ B)) + F))
    (hQ : ∀ h' M', values M' = (values M).reverse → Holds h' [] (whole s (A ++ (M' ++ B)) + F) →
      Q () h') :
    wp (reverseLoop (some (head s (chain (M ++ B)))) (some (last s (chain (A ++ M))))) Q h := by
  induction M using List.bidirectionalRec generalizing h A B with
  | nil =>
    rw [reverseLoop, List.nil_append, List.append_nil]
    split
    · rw [wp_pure]
      exact hQ h [] rfl hs
    · obtain ⟨d, n, hnode⟩ := exists_node s A B
      rw [wp_bind]
      apply wp_readNode_of_mem hs (Multiset.mem_add.mpr (.inl (Multiset.mem_add.mpr (.inl hnode))))
      rw [if_pos rfl, wp_pure]
      exact hQ h [] rfl hs
  | singleton z =>
    rw [reverseLoop, chain_append, chain_append, chain_cons, chain_nil, last_append, last_cons,
      last_nil, List.singleton_append, head_cons, if_pos rfl, wp_pure]
    exact hQ h [z] rfl hs
  | cons_append x M y ih =>
    have hlist : A ++ (x :: (M ++ [y]) ++ B) = A ++ x :: (M ++ y :: B) := by simp
    have hs' : Holds h [] (nodes s (A ++ x :: (M ++ y :: B)) +
        (objects (A ++ x :: (M ++ y :: B)) + F)) :=
      hs.congr (by rw [hlist, whole, add_assoc])
    have hnodup := addrs_nodup hs'
    have hpq : x.addr ≠ y.addr := by
      simp only [List.map_append, List.map_cons, List.nodup_cons, List.nodup_append] at hnodup
      grind
    have hlast : last s (chain A) ∈ s :: A.map Item.addr := by
      have hmem := last_mem s (chain A)
      rwa [chain, List.map_map] at hmem
    have hprev : last s (chain A) ≠ y.addr := by
      simp only [List.map_append, List.map_cons, List.nodup_cons, List.nodup_append] at hnodup
      grind
    have hp : head s (chain (x :: (M ++ [y]) ++ B)) = x.addr := rfl
    have hq : last s (chain (A ++ x :: (M ++ [y]))) = y.addr := by simp
    rw [hp, hq, reverseLoop, if_neg (by simpa using hpq)]
    simp only [wp_bind]
    apply wp_readNode_of_mem hs' (Multiset.mem_add.mpr (.inl (mem_node s A x _)))
    rw [if_neg (by simpa using hprev)]
    simp only [wp_bind]
    apply wp_readNode_of_mem hs' (Multiset.mem_add.mpr (.inl (mem_node s A x _)))
    have hy := mem_node s (A ++ x :: M) y B
    rw [List.append_assoc, List.cons_append] at hy
    apply wp_readNode_of_mem hs' (Multiset.mem_add.mpr (.inl hy))
    apply wp_setData_nodes y.data y.val hs'
    intro h hs
    have hs : Holds h [] (nodes s ((A ++ ⟨x.addr, y.data, y.val⟩ :: M) ++ y :: B) +
        (objects (A ++ x :: (M ++ y :: B)) + F)) := by
      rwa [List.append_assoc, List.cons_append]
    apply wp_setData_nodes x.data x.val hs
    intro h hs
    have hx := mem_node s A ⟨x.addr, y.data, y.val⟩ (M ++ ⟨y.addr, x.data, x.val⟩ :: B)
    rw [← List.cons_append, ← List.append_assoc] at hx
    apply wp_readNode_of_mem hs (Multiset.mem_add.mpr (.inl hx))
    apply wp_readNode_of_mem hs (Multiset.mem_add.mpr (.inl (mem_node s _ _ B)))
    have hback := ih (h := h) (A := A ++ [⟨x.addr, y.data, y.val⟩])
      (B := ⟨y.addr, x.data, x.val⟩ :: B)
    simp only [List.append_assoc, List.singleton_append] at hback
    apply hback
    · apply hs.congr
      simp only [whole, List.append_assoc, List.cons_append, objects_append, objects_cons]
      abel
    · intro h' M' hvalues hs
      apply hQ h' (⟨x.addr, y.data, y.val⟩ :: (M' ++ [⟨y.addr, x.data, x.val⟩]))
      · simp only [values, List.map_cons, List.map_append, List.map_nil] at hvalues ⊢
        simp [hvalues]
      · simpa using hs

theorem wp_reverse {Q : Unit → Heap (Cell T) → Prop} {o : LinkedList}
    (hs : Holds h [] (whole o.node g + F))
    (hQ : ∀ h' g', values g' = (values g).reverse → Holds h' [] (whole o.node g' + F) →
      Q () h') : wp (reverse o) Q h := by
  simp only [reverse, wp_bind]
  apply wp_readNode_of_mem hs mem_whole_sentinel
  apply wp_readNode_of_mem hs mem_whole_sentinel
  have hloop := wp_reverseLoop (Q := Q) (M := g) (A := []) (B := []) (s := o.node) (F := F) (h := h)
  rw [List.nil_append, List.append_nil] at hloop
  apply hloop hs
  intro h' g' hvalues hs
  rw [List.append_nil] at hs
  exact hQ h' g' hvalues hs

/-! ### Equal neighbours -/

/-- The first element of each run of equal neighbours. -/
def firsts (eq : T → T → Bool) : List T → List T
  | [] => []
  | x :: l => x :: firsts eq (l.dropWhile (eq x))
termination_by l => l.length
decreasing_by exact Nat.lt_succ_of_le (List.dropWhile_sublist _).length_le

/-- `firsts` with the nodes the elements are in. -/
def firstsItems (eq : T → T → Bool) : List (Item T) → List (Item T)
  | [] => []
  | e :: g => e :: firstsItems eq (g.dropWhile fun e' => eq e.val e'.val)
termination_by g => g.length
decreasing_by exact Nat.lt_succ_of_le (List.dropWhile_sublist _).length_le

theorem values_firstsItems : values (firstsItems eq g) = firsts eq (values g) := by
  fun_induction firstsItems eq g with
  | case1 => rw [values_nil, firsts]
  | case2 e g ih =>
    have hdrop : values (g.dropWhile fun e' => eq e.val e'.val) =
        (values g).dropWhile (eq e.val) := (List.dropWhile_map ..).symm
    rw [values_cons, ih, hdrop, values_cons, firsts]

theorem wp_uniqueFrom {Q : ℕ → Heap (Cell T) → Prop}
    (hs : Holds h [] (whole s (g₁ ++ e :: g₂) + F))
    (hQ : ∀ h' g', g' = g₂.dropWhile (fun e' => eq e.val e'.val) →
      Holds h' [] (whole s (g₁ ++ e :: g') + F) → Q (g₁ ++ e :: g').length h') :
    wp (uniqueFrom eq (some s) (some e.addr) (g₁ ++ e :: g₂).length) Q h := by
  induction g₂ generalizing h with
  | nil =>
    rw [uniqueFrom]
    simp only [wp_bind]
    apply wp_readNode_of_mem hs (mem_whole_node s g₁ e [])
    rw [chain_nil, head_nil, if_pos rfl, wp_pure]
    exact hQ h [] rfl hs
  | cons y g₂ ih =>
    have hs' : Holds h [] (whole s ((g₁ ++ [e]) ++ y :: g₂) + F) := by
      rwa [List.append_assoc, List.singleton_append]
    rw [uniqueFrom]
    simp only [wp_bind]
    apply wp_readNode_of_mem hs (mem_whole_node s g₁ e (y :: g₂))
    rw [chain_cons, head_cons, if_neg (by simpa using addr_ne_whole hs')]
    simp only [wp_bind]
    apply wp_readNode_of_mem hs (mem_whole_node s g₁ e (y :: g₂))
    apply wp_readObject_of_mem hs (mem_whole_object (e := e) (by simp))
    apply wp_readNode_of_mem hs' (mem_whole_node s (g₁ ++ [e]) y g₂)
    apply wp_readObject_of_mem hs (mem_whole_object (e := y) (by simp))
    by_cases heq : eq e.val y.val = true
    · rw [if_pos heq]
      simp only [wp_bind]
      apply wp_eraseNode_whole hs'
      intro h p hs
      apply wp_deleteNode hs rfl
      intro h hs
      rw [List.append_assoc, List.singleton_append] at hs
      have hlen : (g₁ ++ e :: y :: g₂).length - 1 = (g₁ ++ e :: g₂).length := by simp
      rw [hlen]
      apply ih hs
      intro h' g' hg'
      apply hQ
      rw [hg', List.dropWhile_cons, if_pos heq]
    · rw [if_neg heq, wp_pure]
      apply hQ h (y :: g₂) _ hs
      rw [List.dropWhile_cons, if_neg heq]

theorem wp_uniqueLoop {Q : ℕ → Heap (Cell T) → Prop}
    (hs : Holds h [] (whole s (g₁ ++ g₂) + F))
    (hQ : ∀ h' g', g' = g₁ ++ firstsItems eq g₂ → Holds h' [] (whole s g' + F) →
      Q g'.length h') :
    wp (uniqueLoop eq (some s) (some (head s (chain g₂))) (g₁ ++ g₂).length) Q h := by
  induction hn : g₂.length using Nat.strong_induction_on generalizing h g₁ g₂ with
  | _ n ih =>
    cases g₂ with
    | nil =>
      rw [uniqueLoop, chain_nil, head_nil, if_pos rfl, wp_pure]
      exact hQ h _ (by rw [firstsItems]) hs
    | cons e g₂ =>
      rw [uniqueLoop, chain_cons, head_cons, if_neg (by simpa using addr_ne_whole hs)]
      simp only [wp_bind]
      apply wp_readNode_of_mem hs (mem_whole_node s g₁ e g₂)
      split
      case isTrue hnext =>
        have hnil : g₂ = [] := by
          cases g₂ with
          | nil => rfl
          | cons y g₂ =>
            have hs' : Holds h [] (whole s ((g₁ ++ [e]) ++ y :: g₂) + F) := by
              rwa [List.append_assoc, List.singleton_append]
            exact absurd (Option.some.inj hnext) (addr_ne_whole hs')
        subst hnil
        rw [wp_pure]
        exact hQ h _ (by rw [firstsItems, List.dropWhile_nil, firstsItems]) hs
      case isFalse =>
        simp only [wp_bind]
        apply wp_uniqueFrom hs
        intro h g' hg' hs
        apply wp_readNode_of_mem hs (mem_whole_node s g₁ e g')
        have happ : g₁ ++ e :: g' = (g₁ ++ [e]) ++ g' := by simp
        rw [happ] at hs ⊢
        apply ih g'.length _ hs _ rfl
        · rw [← hn, hg']
          exact Nat.lt_succ_of_le (List.dropWhile_sublist _).length_le
        · intro h' g'' hg''
          apply hQ
          rw [hg'', hg', firstsItems, List.append_assoc, List.singleton_append]

theorem wp_unique {Q : LinkedList → Heap (Cell T) → Prop} {o : LinkedList}
    (hsize : o.size = g.length) (hs : Holds h [] (whole o.node g + F))
    (hQ : ∀ h', Holds h' [] (whole o.node (firstsItems eq g) + F) →
      Q { o with size := (firstsItems eq g).length } h') : wp (unique eq o) Q h := by
  simp only [unique, wp_bind, wp_pure]
  apply wp_readNode_of_mem hs mem_whole_sentinel
  rw [hsize]
  have hs' : Holds h [] (whole o.node ([] ++ g) + F) := hs
  apply wp_uniqueLoop hs'
  rintro h' _ rfl
  exact hQ h'

end Course.Stl.LinkedList
