import Course.Stl.ListLinks

/-! The nodes and elements of a list in memory, and the members that add and remove
some. -/

open Course.Lib Heap HeapRing

namespace Course.Stl.LinkedList

/-- A node of the ring, with the address of its element and the element. -/
structure Item (T : Type) where
  addr : ℕ
  data : ℕ
  val : T

variable {T : Type}

def chain (g : List (Item T)) : List (ℕ × Ptr) := g.map fun e => (e.addr, some e.data)

def objects : List (Item T) → Multiset (ℕ × Cell T)
  | [] => 0
  | e :: g => {(e.data, .object e.val)} + objects g

def values (g : List (Item T)) : List T := g.map Item.val

@[simp] theorem chain_nil : chain (T := T) [] = [] := rfl

@[simp] theorem chain_cons (e : Item T) (g : List (Item T)) :
    chain (e :: g) = (e.addr, some e.data) :: chain g := rfl

@[simp] theorem chain_append (g g' : List (Item T)) : chain (g ++ g') = chain g ++ chain g' :=
  List.map_append

@[simp] theorem objects_nil : objects (T := T) [] = 0 := rfl

@[simp] theorem objects_cons (e : Item T) (g : List (Item T)) :
    objects (e :: g) = {(e.data, .object e.val)} + objects g := rfl

@[simp] theorem objects_append (g g' : List (Item T)) :
    objects (g ++ g') = objects g + objects g' := by
  induction g with
  | nil => simp
  | cons e g ih => simp [ih]

@[simp] theorem values_nil : values (T := T) [] = [] := rfl

@[simp] theorem values_cons (e : Item T) (g : List (Item T)) :
    values (e :: g) = e.val :: values g := rfl

@[simp] theorem values_append (g g' : List (Item T)) :
    values (g ++ g') = values g ++ values g' :=
  List.map_append

/-- The ring of a list. -/
def nodes (s : ℕ) (g : List (Item T)) : Multiset (ℕ × Cell T) :=
  ring (link T) ((s, none) :: chain g)

/-- The whole memory of a list. -/
def whole (s : ℕ) (g : List (Item T)) : Multiset (ℕ × Cell T) := nodes s g + objects g

variable {h : Heap (Cell T)} {l : List (ℕ × Cell T)} {F : Multiset (ℕ × Cell T)}
  {s t b : ℕ} {g : List (Item T)}

theorem whole_eq : whole s g = {(s, link T none (last s (chain g)) (head s (chain g)))} +
    (seg (link T) s s (chain g) + objects g) := by
  rw [whole, nodes, ring_cons, add_assoc]

/-- The end of the list that is on the first side. -/
theorem whole_rotate (g₁ g₂ : List (Item T)) : whole s (g₁ ++ g₂) =
    ring (link T) (chain g₂ ++ (s, none) :: chain g₁) + objects (g₁ ++ g₂) := by
  rw [whole, nodes, chain_append, ← List.cons_append, ring_rotate]

/-! ### Removal -/

theorem wp_removeFrom {Q : Unit → Heap (Cell T) → Prop} {p : ℕ} {c : Cell T}
    (hs : Holds h [(s, c)] (seg (link T) p s (chain g) + (objects g + F)))
    (hQ : ∀ h', Holds h' [(s, c)] F → Q () h') :
    wp (removeFrom (some s) (some (head s (chain g)))) Q h := by
  induction g generalizing h p with
  | nil =>
    rw [removeFrom, chain_nil, head_nil, if_pos rfl, wp_pure]
    exact hQ h (hs.congr (by simp))
  | cons e g ih =>
    have hs' : Holds h ((e.addr, .node ⟨some e.data, some p, some (head s (chain g))⟩) ::
        (e.data, .object e.val) :: [(s, c)])
        (seg (link T) e.addr s (chain g) + (objects g + F)) := by
      apply hs.congr
      simp only [chain_cons, objects_cons, seg_cons, link, ← Multiset.cons_coe,
        ← Multiset.singleton_add]
      abel
    have hne : some e.addr ≠ some s := fun heq =>
      hs'.ne (i := 2) (j := 0) rfl rfl (by decide) (Option.some.inj heq)
    rw [removeFrom, chain_cons, head_cons, if_neg hne]
    simp only [wp_bind]
    apply wp_readNode hs' 0 rfl
    apply wp_deleteNode hs' rfl
    intro h hs
    exact ih hs

/-- The sentinel still leads to the nodes that were deleted. -/
theorem wp_removeAll {Q : Unit → Heap (Cell T) → Prop} (hs : Holds h [] (whole s g + F))
    (hQ : ∀ h', Holds h' [(s, link T none (last s (chain g)) (head s (chain g)))] F → Q () h') :
    wp (readNode (some s)) (fun n => wp (removeFrom (some s) n.next) Q) h := by
  have hs' : Holds h [(s, link T none (last s (chain g)) (head s (chain g)))]
      (seg (link T) s s (chain g) + (objects g + F)) := by
    apply hs.congr
    simp only [whole_eq, ← Multiset.cons_coe, ← Multiset.singleton_add, Multiset.coe_nil]
    abel
  apply wp_readNode hs' 0 rfl
  exact wp_removeFrom hs' hQ

/-! ### Copies -/

theorem wp_copyFrom {Q : Ptr → Heap (Cell T) → Prop} {p : ℕ} {dp pp : Ptr} {c : Cell T}
    (hs : Holds h [(p, .node ⟨dp, pp, some s⟩)]
      (seg (link T) b t (chain g) + (objects g + F)))
    (ht : (t, c) ∈ F)
    (hQ : ∀ h' g', values g' = values g →
      Holds h' [(p, .node ⟨dp, pp, some (head s (chain g'))⟩)] (seg (link T) p s (chain g') +
        (objects g' + (seg (link T) b t (chain g) + (objects g + F)))) →
      Q (some (last p (chain g'))) h') :
    wp (copyFrom (some s) (some t) (some p) (some (head t (chain g)))) Q h := by
  induction g generalizing h p dp pp b F with
  | nil =>
    rw [copyFrom, chain_nil, head_nil, if_pos rfl, wp_pure]
    apply hQ h [] rfl
    apply hs.congr
    simp
  | cons e g ih =>
    have hs' : Holds h [(e.addr, .node ⟨some e.data, some b, some (head t (chain g))⟩),
        (e.data, .object e.val), (p, .node ⟨dp, pp, some s⟩)]
        (seg (link T) e.addr t (chain g) + (objects g + F)) := by
      apply hs.congr
      simp only [chain_cons, objects_cons, seg_cons, link, ← Multiset.cons_coe,
        ← Multiset.singleton_add]
      abel
    have htc : (t, c) ∈ seg (link T) e.addr t (chain g) + (objects g + F) := by
      simp [ht]
    have hne : some e.addr ≠ some t := fun heq =>
      hs'.ne_of_mem (i := 0) rfl htc (Option.some.inj heq).symm
    rw [copyFrom, chain_cons, head_cons, if_neg hne]
    simp only [wp_bind]
    apply wp_readNode hs' 0 rfl
    apply wp_readObject_of_cells (hs'.cells_of_getElem? (i := 1) rfl)
    apply wp_newNode hs'
    intro c' d h hs
    apply LinkedList.wp_setNext hs 4 rfl
    intro h hs
    apply wp_readNode hs 4 rfl
    apply wp_readNode hs 2 rfl
    have hs'' : Holds h [(c', .node ⟨some d, some p, some s⟩)]
        (seg (link T) e.addr t (chain g) + (objects g +
          ({(d, .object e.val), (p, .node ⟨dp, pp, some c'⟩), (e.data, .object e.val),
            (e.addr, .node ⟨some e.data, some b, some (head t (chain g))⟩)} + F))) := by
      apply hs.congr
      simp only [List.set_cons_zero, List.set_cons_succ, Multiset.insert_eq_cons,
        ← Multiset.cons_coe, ← Multiset.singleton_add, Multiset.coe_nil]
      abel
    apply ih hs'' (by simp [ht])
    intro h' g' hvalues hs
    apply hQ h' (⟨c', d, e.val⟩ :: g') (by simpa [values] using hvalues)
    apply hs.congr
    simp only [chain_cons, objects_cons, seg_cons, head_cons, link, Multiset.insert_eq_cons,
      ← Multiset.cons_coe, ← Multiset.singleton_add, Multiset.coe_nil]
    abel

/-! ### Members -/

section Nodes

variable {g₁ g₂ : List (Item T)} {e : Item T}

theorem nodes_eq : nodes s g = {(s, link T none (last s (chain g)) (head s (chain g)))} +
    seg (link T) s s (chain g) :=
  ring_cons

theorem mem_sentinel : (s, link T none (last s (chain g)) (head s (chain g))) ∈ nodes s g := by
  simp [nodes_eq]

theorem mem_node (s : ℕ) (g₁ : List (Item T)) (e : Item T) (g₂ : List (Item T)) :
    (e.addr, link T (some e.data) (last s (chain g₁)) (head s (chain g₂))) ∈
      nodes s (g₁ ++ e :: g₂) := by
  simp [nodes_eq, seg_append, seg_cons]

/-- The node or sentinel between `g₁` and `g₂` where an iterator points. -/
theorem exists_node (s : ℕ) (g₁ g₂ : List (Item T)) :
    ∃ d n, (head s (chain g₂), link T d (last s (chain g₁)) n) ∈ nodes s (g₁ ++ g₂) := by
  cases g₂ with
  | nil =>
    rw [List.append_nil]
    exact ⟨none, _, mem_sentinel⟩
  | cons e g₂ => exact ⟨_, _, mem_node s g₁ e g₂⟩

/-- The node or sentinel before that. -/
theorem exists_node_before (s : ℕ) (g₁ g₂ : List (Item T)) :
    ∃ d p, (last s (chain g₁), link T d p (head s (chain g₂))) ∈ nodes s (g₁ ++ g₂) := by
  rcases List.eq_nil_or_concat g₁ with rfl | ⟨g₁, e, rfl⟩
  · exact ⟨none, _, mem_sentinel⟩
  · rw [List.concat_eq_append, List.append_assoc, chain_append, last_append]
    exact ⟨_, _, mem_node s g₁ e g₂⟩

theorem mem_object (e : Item T) (he : e ∈ g) : (e.data, .object e.val) ∈ objects g := by
  obtain ⟨g₁, g₂, rfl⟩ := List.append_of_mem he
  simp

theorem mem_whole_sentinel :
    (s, link T none (last s (chain g)) (head s (chain g))) ∈ whole s g + F :=
  Multiset.mem_add.mpr (.inl (Multiset.mem_add.mpr (.inl mem_sentinel)))

theorem mem_whole_node (s : ℕ) (g₁ : List (Item T)) (e : Item T) (g₂ : List (Item T)) :
    (e.addr, link T (some e.data) (last s (chain g₁)) (head s (chain g₂))) ∈
      whole s (g₁ ++ e :: g₂) + F :=
  Multiset.mem_add.mpr (.inl (Multiset.mem_add.mpr (.inl (mem_node s g₁ e g₂))))

theorem mem_whole_object (he : e ∈ g) : (e.data, .object e.val) ∈ whole s g + F :=
  Multiset.mem_add.mpr (.inl (Multiset.mem_add.mpr (.inr (mem_object e he))))

theorem seg_addrs (p q : ℕ) (g : List (Item T)) :
    (seg (link T) p q (chain g)).map Prod.fst = ↑(g.map Item.addr) := by
  induction g generalizing p with
  | nil => rfl
  | cons e g ih =>
    rw [chain_cons, seg_cons, Multiset.map_add, ih, Multiset.map_singleton, List.map_cons,
      ← Multiset.cons_coe, Multiset.singleton_add]

/-- The sentinel and the nodes have different addresses. -/
theorem addrs_nodup (hs : Holds h l (nodes s g + F)) : (s :: g.map Item.addr).Nodup := by
  have hnodup := hs.nodup
  rw [nodes_eq, Multiset.map_add, Multiset.map_add, Multiset.map_add, Multiset.map_singleton,
    seg_addrs, Multiset.singleton_add, Multiset.cons_coe] at hnodup
  have hright := (Multiset.nodup_add.mp hnodup).2.1
  exact Multiset.coe_nodup.mp (Multiset.nodup_add.mp hright).1

theorem whole_addrs_nodup (hs : Holds h l (whole s g + F)) : (s :: g.map Item.addr).Nodup :=
  addrs_nodup (hs.congr (by rw [whole, add_assoc]))

theorem addr_ne (hs : Holds h l (nodes s (g₁ ++ e :: g₂) + F)) : e.addr ≠ s := by
  rintro rfl
  exact (List.nodup_cons.mp (addrs_nodup hs)).1 (by simp)

theorem addr_ne_whole (hs : Holds h l (whole s (g₁ ++ e :: g₂) + F)) : e.addr ≠ s :=
  addr_ne (hs.congr (by rw [whole, add_assoc]))

end Nodes

theorem wp_create {Q : LinkedList → Heap (Cell T) → Prop} (hs : Holds h [] F)
    (hQ : ∀ s h', Holds h' [] (whole s [] + F) → Q ⟨s, 0⟩ h') : wp create Q h := by
  simp only [create, wp_bind, wp_pure]
  apply wp_new hs
  intro s h hs
  apply LinkedList.wp_setNext hs 0 rfl
  intro h hs
  apply wp_setPrev hs 0 rfl
  intro h hs
  apply hQ
  apply hs.congr
  simp [whole_eq, link]

variable {o other : LinkedList}

theorem wp_clear {Q : LinkedList → Heap (Cell T) → Prop} (hs : Holds h [] (whole o.node g + F))
    (hQ : ∀ h', Holds h' [] (whole o.node [] + F) → Q { o with size := 0 } h') :
    wp (clear o) Q h := by
  simp only [clear, wp_bind, wp_pure]
  apply wp_removeAll hs
  intro h hs
  apply LinkedList.wp_setNext hs 0 rfl
  intro h hs
  apply wp_setPrev hs 0 rfl
  intro h hs
  apply hQ
  apply hs.congr
  simp [whole_eq, link]

theorem wp_destroy {Q : Unit → Heap (Cell T) → Prop} (hs : Holds h [] (whole o.node g + F))
    (hQ : ∀ h', Holds h' [] F → Q () h') : wp (destroy o) Q h := by
  simp only [destroy, wp_bind]
  apply wp_removeAll hs
  intro h hs
  simp only [deleteNode, wp_bind]
  apply wp_readNode hs 0 rfl
  rw [wp_when_neg (not_not_intro rfl)]
  exact wp_delete hs 0 rfl hQ

/-- What the copy constructor and `operator=` do to a sentinel without nodes. -/
theorem wp_copyInto {Q : Unit → Heap (Cell T) → Prop} {pp : Ptr}
    (hs : Holds h [(s, .node ⟨none, pp, some s⟩)] (whole t g + F))
    (hQ : ∀ h' g', values g' = values g → Holds h' [] (whole s g' + (whole t g + F)) →
      Q () h') :
    wp (copyFrom (some s) (some t) (some s) (some (head t (chain g))))
      (fun p => wp (setPrev (some s) p) Q) h := by
  have hs' : Holds h [(s, .node ⟨none, pp, some s⟩)] (seg (link T) t t (chain g) + (objects g +
      ({(t, link T none (last t (chain g)) (head t (chain g)))} + F))) := by
    apply hs.congr
    rw [whole_eq]
    abel
  apply wp_copyFrom hs' (c := link T none (last t (chain g)) (head t (chain g))) (by simp)
  intro h g' hvalues hs
  apply wp_setPrev hs 0 rfl
  intro h hs
  apply hQ h g' hvalues
  apply hs.congr
  simp only [whole_eq, link, List.set_cons_zero, ← Multiset.cons_coe, ← Multiset.singleton_add,
    Multiset.coe_nil]
  abel

theorem wp_createCopy {Q : LinkedList → Heap (Cell T) → Prop}
    (hs : Holds h [] (whole other.node g + F))
    (hQ : ∀ s h' g', values g' = values g →
      Holds h' [] (whole s g' + (whole other.node g + F)) → Q ⟨s, other.size⟩ h') :
    wp (createCopy other) Q h := by
  simp only [createCopy, wp_bind, wp_pure]
  apply wp_new hs
  intro s h hs
  apply LinkedList.wp_setNext hs 0 rfl
  intro h hs
  apply wp_readNode_of_mem hs mem_whole_sentinel
  apply wp_copyInto hs
  exact fun h' g' hvalues hs => hQ s h' g' hvalues hs

theorem wp_assignFrom {Q : LinkedList → Heap (Cell T) → Prop} {g₀ : List (Item T)}
    (hs : Holds h [] (whole o.node g₀ + (whole other.node g + F)))
    (hQ : ∀ h' g', values g' = values g →
      Holds h' [] (whole o.node g' + (whole other.node g + F)) →
      Q { o with size := other.size } h') : wp (assignFrom o other) Q h := by
  simp only [assignFrom, wp_bind, wp_pure]
  apply wp_removeAll hs
  intro h hs
  apply LinkedList.wp_setNext hs 0 rfl
  intro h hs
  apply wp_readNode_of_mem hs mem_whole_sentinel
  exact wp_copyInto hs hQ

end Course.Stl.LinkedList
