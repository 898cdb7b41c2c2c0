import Course.Lib.HeapRing
import Course.Lib.HeapThread
import Course.Stl.LinkedHashmap

/-! The nodes of a linked hash map in memory, and what the assignments to `before` and
`after` do to their ring. -/

open Course.Lib Heap HeapRing

namespace Course.Stl.LinkedHashmap

variable {K V L : Type}

/-- An element, with the address of its node. -/
abbrev Item (K V : Type) := ℕ × K × V

/-- A node but for `next`. -/
structure Bare (K V : Type) where
  val : Option (K × V)
  before : Ptr
  after : Ptr

def Bare.node (b : Bare K V) (next : Ptr) : Node K V := ⟨b.val, next, b.before, b.after⟩

/-- A node in the ring. -/
def link (val : Option (K × V)) (before after : ℕ) : Bare K V := ⟨val, some before, some after⟩

def chain (l : List (Item K V)) : List (ℕ × Option (K × V)) := l.map fun x => (x.1, some x.2)

/-- The head and the nodes of the elements. -/
def nodes (head : ℕ) (l : List (Item K V)) : Multiset (ℕ × Bare K V) :=
  ring link ((head, none) :: chain l)

/-- The nodes of the table. -/
def buckets (K V : Type) (table capacity : ℕ) : Multiset (ℕ × Bare K V) :=
  array table capacity fun _ => ⟨none, none, none⟩

/-- The records, with their `next` pointers. -/
abbrev cells (next : ℕ → Ptr) (S : Multiset (ℕ × Bare K V)) : Multiset (ℕ × Node K V) :=
  HeapThread.cells Bare.node next S

@[simp] theorem chain_nil : chain (K := K) (V := V) [] = [] := rfl

@[simp] theorem chain_cons (x : Item K V) (l : List (Item K V)) :
    chain (x :: l) = (x.1, some x.2) :: chain l := rfl

@[simp] theorem chain_append (l l' : List (Item K V)) : chain (l ++ l') = chain l ++ chain l' :=
  List.map_append

variable {h : Heap (Node K V)} {F : Multiset (ℕ × Node K V)} {S : Multiset (ℕ × Bare K V)}
  {next : ℕ → Ptr} {head a q : ℕ} {l l₁ l₂ : List (Item K V)} {x : Item K V} {b : Bare K V}

theorem nodes_eq : nodes head l =
    {(head, link none (last head (chain l)) (HeapRing.head head (chain l)))} +
      seg link head head (chain l) :=
  ring_cons

/-! ### Addresses -/

theorem seg_addrs (p q : ℕ) (l : List (Item K V)) :
    (seg link p q (chain l)).map Prod.fst = Multiset.ofList (l.map Prod.fst) := by
  induction l generalizing p with
  | nil => rfl
  | cons x l ih =>
    rw [chain_cons, seg_cons, Multiset.map_add, ih, List.map_cons, Multiset.map_singleton,
      Multiset.singleton_add, Multiset.cons_coe]

theorem nodes_addrs : (nodes head l).map Prod.fst = Multiset.ofList (head :: l.map Prod.fst) := by
  rw [nodes_eq, Multiset.map_add, seg_addrs, Multiset.map_singleton, Multiset.singleton_add,
    Multiset.cons_coe]

theorem mem_buckets {table capacity i : ℕ} (hi : i < capacity) :
    (table + i, ⟨none, none, none⟩) ∈ buckets K V table capacity :=
  mem_array.mpr ⟨i, hi, rfl⟩

/-- The nodes of the elements are apart, and none is one of the table. -/
structure Apart (table capacity : ℕ) (l : List (Item K V)) : Prop where
  nodup : (l.map Prod.fst).Nodup
  table : ∀ x ∈ l, ∀ i < capacity, x.1 ≠ table + i

theorem nodes_nodup (hs : Holds h [] (cells next (nodes head l + S) + F)) :
    (head :: l.map Prod.fst).Nodup := by
  have hnodup := HeapThread.nodup_addrs hs
  rw [Multiset.map_add, nodes_addrs] at hnodup
  exact Multiset.coe_nodup.mp (Multiset.nodup_add.mp hnodup).1

theorem apart {table capacity : ℕ} (hs : Holds h [] (cells next (nodes head l + S) + F))
    (hS : buckets K V table capacity ≤ S) : Apart table capacity l := by
  have hnodup := HeapThread.nodup_addrs hs
  rw [Multiset.map_add, nodes_addrs] at hnodup
  refine ⟨(List.nodup_cons.mp (nodes_nodup hs)).2, fun x hx i hi heq => ?_⟩
  refine Multiset.disjoint_left.mp (Multiset.nodup_add.mp hnodup).2.2
    (Multiset.mem_coe.mpr (List.mem_cons_of_mem head (List.mem_map_of_mem hx))) ?_
  rw [heq]
  exact Multiset.mem_map_of_mem Prod.fst (Multiset.mem_of_le hS (mem_buckets hi))

theorem ne_head (hs : Holds h [] (cells next (nodes head l + S) + F)) (hx : x ∈ l) :
    x.1 ≠ head := by
  rintro rfl
  exact (List.nodup_cons.mp (nodes_nodup hs)).1 (List.mem_map_of_mem hx)

/-- A later place is not the first. -/
theorem head_ne_head (hs : Holds h [] (cells next (nodes head (x :: l₁ ++ l₂) + S) + F)) :
    HeapRing.head head (chain l₂) ≠ x.1 := by
  obtain ⟨hhead, hx, -⟩ : x.1 ≠ head ∧ _ := by
    have hnodup := nodes_nodup hs
    rw [List.cons_append, List.map_cons, List.nodup_cons, List.nodup_cons] at hnodup
    exact ⟨fun heq => hnodup.1 (heq ▸ List.mem_cons_self), hnodup.2⟩
  cases l₂ with
  | nil => exact hhead.symm
  | cons y l₂ =>
    intro heq
    rw [chain_cons, head_cons] at heq
    exact hx (List.mem_map.mpr ⟨y, by simp, heq⟩)

/-! ### Reading -/

theorem mem_nodes_head : (head, link none (last head (chain l)) (HeapRing.head head (chain l))) ∈
    nodes head l := by
  rw [nodes_eq]
  exact Multiset.mem_add.mpr (.inl (Multiset.mem_singleton_self _))

/-- One node apart from the others, which do not depend on its value. -/
theorem nodes_middle (head : ℕ) (l₁ l₂ : List (Item K V)) (x : Item K V) :
    nodes head (l₁ ++ x :: l₂) =
      {(x.1, link (some x.2) (last head (chain l₁)) (HeapRing.head head (chain l₂)))} +
        ({(head, link none (last x.1 (chain l₂)) (HeapRing.head x.1 (chain l₁)))} +
          seg link head x.1 (chain l₁) + seg link x.1 head (chain l₂)) := by
  simp only [nodes_eq, chain_append, chain_cons, head_append, head_cons, last_append, last_cons,
    seg_append, seg_cons]
  abel

theorem mem_nodes (head : ℕ) (l₁ l₂ : List (Item K V)) (x : Item K V) :
    (x.1, link (some x.2) (last head (chain l₁)) (HeapRing.head head (chain l₂))) ∈
      nodes head (l₁ ++ x :: l₂) := by
  rw [nodes_middle]
  simp

/-- The elements are nodes. -/
def Listed (S : Multiset (ℕ × Bare K V)) (l : List (Item K V)) : Prop :=
  ∀ x ∈ l, ∃ before after, (x.1, link (some x.2) before after) ∈ S

theorem listed_nodes (head : ℕ) (l : List (Item K V)) : Listed (nodes head l) l := by
  intro x hx
  obtain ⟨l₁, l₂, rfl⟩ := List.append_of_mem hx
  exact ⟨_, _, mem_nodes head l₁ l₂ x⟩

theorem Listed.add_right (hl : Listed S l) (T : Multiset (ℕ × Bare K V)) : Listed (S + T) l :=
  fun x hx => by
    obtain ⟨before, after, hx⟩ := hl x hx
    exact ⟨before, after, Multiset.mem_add.mpr (.inl hx)⟩

theorem wp_entry {Q : K × V → Heap (Node K V) → Prop} {before after : ℕ}
    (hs : Holds h [] (cells next S + F)) (hx : (x.1, link (some x.2) before after) ∈ S)
    (hQ : Q x.2 h) : wp (entry (some x.1)) Q h := by
  have hcell := hs.cells_of_mem (Multiset.mem_add.mpr (.inl (Multiset.mem_map.mpr ⟨_, hx, rfl⟩)))
  exact ⟨x.2, h, by simp [entry, deref, hcell, link, Bare.node], hQ⟩

/-! ### Writing -/

theorem wp_setNext {Q : Unit → Heap (Node K V) → Prop} {p : Ptr}
    (hs : Holds h [] (cells next S + F)) (ha : (a, b) ∈ S)
    (hQ : ∀ h', Holds h' [] (cells (Function.update next a p) S + F) → Q () h') :
    wp (setNext (some a) p) Q h :=
  HeapThread.wp_assign_next hs ha rfl hQ

theorem wp_setBefore {Q : Unit → Heap (Node K V) → Prop} {p : Ptr}
    {T : Multiset (ℕ × Bare K V)} (hs : Holds h [] (cells next T + F)) (hT : T = {(a, b)} + S)
    (hQ : ∀ h', Holds h' [] (cells next ({(a, { b with before := p })} + S) + F) → Q () h') :
    wp (setBefore (some a) p) Q h :=
  HeapThread.wp_assign_rest hs hT rfl hQ

theorem wp_setAfter {Q : Unit → Heap (Node K V) → Prop} {p : Ptr}
    {T : Multiset (ℕ × Bare K V)} (hs : Holds h [] (cells next T + F)) (hT : T = {(a, b)} + S)
    (hQ : ∀ h', Holds h' [] (cells next ({(a, { b with after := p })} + S) + F) → Q () h') :
    wp (setAfter (some a) p) Q h :=
  HeapThread.wp_assign_rest hs hT rfl hQ

/-- A new node at the end of the ring, behind `q` in its chain. -/
theorem wp_append {Q : ℕ → Heap (Node K V) → Prop} {value : K × V} {p : Ptr}
    (hs : Holds h [] (cells next (nodes head l + S) + F)) (hq : (q, b) ∈ nodes head l + S)
    (hQ : ∀ a h', Holds h' [] (cells (Function.update (Function.update next a p) q (some a))
      (nodes head (l ++ [(a, value)]) + S) + F) → Q a h') :
    wp (append head (some q) value p) Q h := by
  simp only [append, wp_bind, wp_pure]
  apply HeapThread.wp_deref hs (Multiset.mem_add.mpr (.inl mem_nodes_head))
  have hnew : (⟨some value, p, some (last head (chain l)), some head⟩ : Node K V) =
      (link (some value) (last head (chain l)) head).node p := rfl
  dsimp only [link, Bare.node]
  rw [hnew]
  apply HeapThread.wp_new hs
  intro a h hs
  apply wp_setNext hs (Multiset.mem_add.mpr (.inr hq))
  intro h hs
  apply HeapThread.wp_deref hs (Multiset.mem_add.mpr (.inl (Multiset.mem_singleton_self _)))
  dsimp only [link, Bare.node]
  rcases List.eq_nil_or_concat' l with rfl | ⟨l, y, rfl⟩
  · apply wp_setAfter hs (a := head) (b := link none head head)
      (S := {(a, link (some value) head head)} + S)
    · simp only [nodes, ring_cons, chain_nil, last_nil, head_nil, seg_nil]
      abel
    intro h hs
    apply wp_setBefore hs rfl
    intro h hs
    apply hQ a h
    rw [nodes, List.nil_append, chain_cons, chain_nil, ring_cons, seg_cons, seg_nil, add_zero,
      add_assoc]
    exact hs
  · simp only [chain_append, chain_cons, chain_nil, last_append, last_cons, last_nil] at hs ⊢
    apply wp_setAfter hs (a := y.1) (b := link (some y.2) (last head (chain l)) head)
      (S := {(a, link (some value) y.1 head)} +
        ({(head, link none y.1 (HeapRing.head y.1 (chain l)))} + seg link head y.1 (chain l) + S))
    · simp only [nodes, chain_append, chain_cons, chain_nil, ring_pair]
      abel
    intro h hs
    apply wp_setBefore hs (a := head) (b := link none y.1 (HeapRing.head y.1 (chain l)))
      (S := {(a, link (some value) y.1 head)} +
        ({(y.1, link (some y.2) (last head (chain l)) a)} + seg link head y.1 (chain l) + S))
    · simp only [link]
      abel
    intro h hs
    apply hQ a h
    have hnodes : nodes head (l ++ [y] ++ [(a, value)]) + S =
        {(head, link none a (HeapRing.head y.1 (chain l)))} +
          ({(a, link (some value) y.1 head)} + ({(y.1, link (some y.2) (last head (chain l)) a)} +
            seg link head y.1 (chain l) + S)) := by
      simp only [nodes, chain_append, chain_cons, chain_nil, ring_pair, head_append, head_cons,
        last_append, last_cons, last_nil, seg_append, seg_cons, head_nil, seg_nil]
      abel
    rw [hnodes]
    exact hs

/-! ### Unlinking -/

variable {s : ℕ × Option (K × V)} {r : List (ℕ × Option (K × V))}

theorem wp_unlink_ring {Q : Unit → Heap (Node K V) → Prop} (hr : r ≠ [])
    (hs : Holds h [] (cells next (ring link (s :: r) + S) + F))
    (hQ : ∀ h', Holds h' [] (cells next ({(s.1, link s.2 (last s.1 r) (HeapRing.head s.1 r))} +
      (ring link r + S)) + F) → Q () h') : wp (unlink (some s.1)) Q h := by
  obtain ⟨y, r, rfl⟩ := List.exists_cons_of_ne_nil hr
  rw [head_cons, last_cons] at hQ
  simp only [unlink, wp_bind]
  have hmem : (s.1, link s.2 (last y.1 r) y.1) ∈ ring link (s :: y :: r) + S := by
    simp [ring_cons]
  apply HeapThread.wp_deref hs hmem
  apply HeapThread.wp_deref hs hmem
  dsimp only [link, Bare.node]
  rcases List.eq_nil_or_concat' r with rfl | ⟨r, z, rfl⟩
  · apply wp_setAfter hs (a := y.1) (b := link y.2 s.1 s.1)
      (S := {(s.1, link s.2 y.1 y.1)} + S)
    · simp only [ring_cons, seg_cons, last_cons, head_cons, last_nil, head_nil, seg_nil]
      abel
    intro h hs
    have hmem : (s.1, link s.2 y.1 y.1) ∈ {(y.1, { link y.2 s.1 s.1 with after := some y.1 })} +
        ({(s.1, link s.2 y.1 y.1)} + S) := by simp
    apply HeapThread.wp_deref hs hmem
    apply HeapThread.wp_deref hs hmem
    dsimp only [link, Bare.node]
    apply wp_setBefore hs rfl
    intro h hs
    apply hQ h
    rw [last_nil, ring_cons, seg_nil, add_zero, add_left_comm]
    exact hs
  · rw [last_append, last_cons, last_nil] at hQ ⊢
    apply wp_setAfter hs (a := z.1) (b := link z.2 (last y.1 r) s.1)
      (S := {(s.1, link s.2 z.1 y.1)} +
        ({(y.1, link y.2 s.1 (HeapRing.head z.1 r))} + seg link y.1 z.1 r + S))
    · simp only [ring_cons, seg_cons, last_cons, head_cons, last_append, last_nil, head_append,
        head_nil, seg_append, seg_nil]
      abel
    intro h hs
    have hmem : (s.1, link s.2 z.1 y.1) ∈
        {(z.1, { link z.2 (last y.1 r) s.1 with after := some y.1 })} + ({(s.1, link s.2 z.1 y.1)} +
          ({(y.1, link y.2 s.1 (HeapRing.head z.1 r))} + seg link y.1 z.1 r + S)) := by simp
    apply HeapThread.wp_deref hs hmem
    apply HeapThread.wp_deref hs hmem
    dsimp only [link, Bare.node]
    apply wp_setBefore hs (a := y.1) (b := link y.2 s.1 (HeapRing.head z.1 r))
      (S := {(s.1, link s.2 z.1 y.1)} +
        ({(z.1, link z.2 (last y.1 r) y.1)} + seg link y.1 z.1 r + S))
    · simp only [link]
      abel
    intro h hs
    apply hQ h
    have hring : {(s.1, link s.2 z.1 (HeapRing.head s.1 (y :: (r ++ [z]))))} +
        (ring link (y :: (r ++ [z])) + S) =
        {(y.1, link y.2 z.1 (HeapRing.head z.1 r))} + ({(s.1, link s.2 z.1 y.1)} +
          ({(z.1, link z.2 (last y.1 r) y.1)} + seg link y.1 z.1 r + S)) := by
      rw [ring_pair, head_cons]
      abel
    rw [← head_cons (q := s.1) (x := y) (l := r ++ [z]), hring]
    exact hs

/-- The node of `x` is left outside the ring, with its old neighbours. -/
theorem wp_unlink {Q : Unit → Heap (Node K V) → Prop}
    (hs : Holds h [] (cells next (nodes head (l₁ ++ x :: l₂) + S) + F))
    (hQ : ∀ h' before after, Holds h' [] (cells next ({(x.1, link (some x.2) before after)} +
      (nodes head (l₁ ++ l₂) + S)) + F) → Q () h') : wp (unlink (some x.1)) Q h := by
  have hrotate : ∀ l, nodes head (l₁ ++ l) = ring link (chain l ++ (head, none) :: chain l₁) :=
    fun l => by rw [nodes, chain_append, ← List.cons_append, ring_rotate]
  rw [hrotate, chain_cons, List.cons_append] at hs
  apply wp_unlink_ring (by simp) hs
  intro h' hs'
  rw [← hrotate] at hs'
  exact hQ h' _ _ hs'

/-! ### Removal of all nodes -/

/-- All nodes but the last are deleted. -/
theorem wp_removeBefore {Q : Unit → Heap (Node K V) → Prop} {c : Bare K V} {before : ℕ}
    (hs : Holds h [] (cells next ({(head, c)} +
      ({(x.1, link (some x.2) before (HeapRing.head head (chain l)))} +
        (seg link x.1 head (chain l) + S))) + F))
    (hQ : ∀ h' d, Holds h' [] (cells next ({(last x.1 (chain l), d)} + ({(head, c)} + S)) + F) →
      Q () h') : wp (removeBefore head (some (HeapRing.head head (chain l)))) Q h := by
  induction l generalizing h x before with
  | nil =>
    rw [removeBefore, chain_nil, head_nil, if_pos rfl, wp_pure]
    apply hQ h (link (some x.2) before head)
    rw [add_left_comm, chain_nil, last_nil]
    simpa using hs
  | cons y l ih =>
    have hnodup := HeapThread.nodup_addrs hs
    have hne : y.1 ≠ head := by
      rintro rfl
      rw [chain_cons, seg_cons] at hnodup
      simp at hnodup
    have hy : (y.1, link (some y.2) x.1 (HeapRing.head head (chain l))) ∈ {(head, c)} +
        ({(x.1, link (some x.2) before y.1)} + (seg link x.1 head (chain (y :: l)) + S)) := by
      simp [seg_cons]
    rw [removeBefore, chain_cons, head_cons, if_neg (by simpa using hne)]
    simp only [wp_bind]
    apply HeapThread.wp_deref hs hy
    dsimp only [link, Bare.node]
    apply HeapThread.wp_delete hs (add_left_comm ..)
    intro h hs
    have hy : (y.1, link (some y.2) x.1 (HeapRing.head head (chain l))) ∈
        {(head, c)} + (seg link x.1 head (chain (y :: l)) + S) := by simp [seg_cons]
    apply HeapThread.wp_deref hs hy
    dsimp only [link, Bare.node]
    rw [chain_cons, seg_cons, add_assoc] at hs
    exact ih hs hQ

section Removal

variable {Q : Unit → Heap (Node K V) → Prop}

/-- The loop on a ring that is not empty. -/
theorem wp_removeBefore_cons (hs : Holds h [] (cells next (nodes head (x :: l) + S) + F))
    (hQ : ∀ h' d, Holds h' [] (cells next ({(last x.1 (chain l), d)} +
      ({(head, link none (last x.1 (chain l)) x.1)} + S)) + F) → Q () h') :
    wp (removeNodes head) Q h := by
  simp only [removeNodes, wp_bind]
  apply HeapThread.wp_deref hs (Multiset.mem_add.mpr (.inl mem_nodes_head))
  dsimp only [link, Bare.node, chain_cons, head_cons]
  apply HeapThread.wp_deref hs (Multiset.mem_add.mpr (.inl (mem_nodes head [] l x)))
  dsimp only [link, Bare.node]
  rw [nodes_eq, chain_cons, seg_cons, add_assoc, add_assoc] at hs
  exact wp_removeBefore hs hQ

/-- The nodes of the elements are gone, or not reached any more. -/
theorem wp_leave (hs : Holds h [] (cells next (nodes head l + S) + F))
    (hQ : ∀ h' d, d.val = none → Holds h' [] (cells next ({(head, d)} + S) + F) → Q () h') :
    wp (removeNodes head) Q h := by
  cases l with
  | nil =>
    simp only [removeNodes, wp_bind]
    apply HeapThread.wp_deref hs (Multiset.mem_add.mpr (.inl mem_nodes_head))
    apply HeapThread.wp_deref hs (Multiset.mem_add.mpr (.inl mem_nodes_head))
    dsimp only [link, Bare.node, chain_nil, head_nil]
    rw [removeBefore, if_pos rfl, wp_pure]
    refine hQ h (link none head head) rfl ?_
    rwa [nodes_eq, chain_nil, seg_nil, add_zero] at hs
  | cons x l =>
    apply wp_removeBefore_cons hs
    exact fun h' d hs' => hQ h' _ rfl (HeapThread.holds_right hs')

theorem wp_removeAll (hl : l ≠ []) (hs : Holds h [] (cells next (nodes head l + S) + F))
    (hQ : ∀ h' d, d.val = none → Holds h' [] (cells next ({(head, d)} + S) + F) → Q () h') :
    wp (removeAll head) Q h := by
  obtain ⟨x, l, rfl⟩ := List.exists_cons_of_ne_nil hl
  rw [removeAll, wp_bind]
  apply wp_removeBefore_cons hs
  intro h d hs
  rw [wp_bind]
  apply HeapThread.wp_deref hs (x := link none (last x.1 (chain l)) x.1) (by simp)
  apply HeapThread.wp_delete hs rfl
  exact fun h' hs' => hQ h' _ rfl hs'

theorem wp_reset (hs : Holds h [] (cells next ({(head, b)} + S) + F)) (hb : b.val = none)
    (hQ : ∀ h', Holds h' [] (cells next (nodes head [] + S) + F) → Q () h') :
    wp (reset head) Q h := by
  rw [reset, wp_bind]
  apply wp_setAfter hs rfl
  intro h hs
  apply wp_setBefore hs rfl
  intro h hs
  apply hQ h
  rw [nodes_eq, chain_nil, seg_nil, add_zero, link, ← hb]
  exact hs

end Removal

/-! ### Tables -/

section Tables

variable {table capacity : ℕ}

theorem blank_eq : (Node.blank : Node K V) = Bare.node ⟨none, none, none⟩ none := rfl

theorem wp_newTable {Q : ℕ → Heap (Node K V) → Prop} (hs : Holds h [] (cells next S + F))
    (hQ : ∀ table h', Holds h' [] (cells (HeapThread.clear next table capacity)
      (buckets K V table capacity + S) + F) → Q table h') : wp (newArray .blank capacity) Q h := by
  rw [blank_eq]
  exact HeapThread.wp_newArray hs hQ

theorem wp_clearTable {Q : Unit → Heap (Node K V) → Prop}
    (hs : Holds h [] (cells next (buckets K V table capacity + S) + F))
    (hQ : ∀ h', Holds h' [] (cells (HeapThread.clear next table capacity)
      (buckets K V table capacity + S) + F) → Q () h') : wp (fill table .blank capacity) Q h := by
  rw [blank_eq]
  exact HeapThread.wp_fill hs hQ

theorem wp_newHead {Q : ℕ → Heap (Node K V) → Prop} (hs : Holds h [] (cells next S + F))
    (hQ : ∀ head h', Holds h' [] (cells (Function.update next head none)
      ({(head, ⟨none, none, none⟩)} + S) + F) → Q head h') : wp (new .blank) Q h := by
  rw [blank_eq]
  exact HeapThread.wp_new hs hQ

end Tables

end Course.Stl.LinkedHashmap
