import Course.Lib.HeapRing
import Course.Stl.LinkedList

/-! What the pointer assignments of the list do to its ring. -/

open Course.Lib Heap HeapRing

namespace Course.Stl.LinkedList

variable {T : Type} {h : Heap (Cell T)} {l : List (ℕ × Cell T)} {F : Multiset (ℕ × Cell T)}
  {a c i : ℕ} {n : Node} {p : Ptr} {x : T}

/-- A node in a ring. -/
def link (T : Type) (data : Ptr) (prev next : ℕ) : Cell T :=
  .node ⟨data, some prev, some next⟩

/-! ### Cells -/

theorem wp_readNode_of_cells {Q : Node → Heap (Cell T) → Prop}
    (hc : h.cells a = some (.node n)) (hQ : Q n h) : wp (readNode (some a)) Q h :=
  ⟨n, h, by simp [readNode, deref, hc], hQ⟩

theorem wp_readNode {Q : Node → Heap (Cell T) → Prop} (hs : Holds h l F) (i : ℕ)
    (hi : l[i]? = some (a, .node n)) (hQ : Q n h) : wp (readNode (some a)) Q h :=
  wp_readNode_of_cells (hs.cells_of_getElem? hi) hQ

theorem wp_readNode_of_mem {Q : Node → Heap (Cell T) → Prop} (hs : Holds h l F)
    (hF : (a, .node n) ∈ F) (hQ : Q n h) : wp (readNode (some a)) Q h :=
  wp_readNode_of_cells (hs.cells_of_mem hF) hQ

theorem wp_readObject_of_cells {Q : T → Heap (Cell T) → Prop}
    (hc : h.cells a = some (.object x)) (hQ : Q x h) : wp (readObject (some a)) Q h :=
  ⟨x, h, by simp [readObject, deref, hc], hQ⟩

theorem wp_readObject_of_mem {Q : T → Heap (Cell T) → Prop} (hs : Holds h l F)
    (hF : (a, .object x) ∈ F) (hQ : Q x h) : wp (readObject (some a)) Q h :=
  wp_readObject_of_cells (hs.cells_of_mem hF) hQ

theorem wp_writeNode {Q : Unit → Heap (Cell T) → Prop} {f : Node → Node} (hs : Holds h l F)
    (i : ℕ) (hi : l[i]? = some (a, .node n))
    (hQ : ∀ h', Holds h' (l.set i (a, .node (f n))) F → Q () h') :
    wp (writeNode (some a) f) Q h := by
  rw [writeNode, wp_bind]
  apply wp_readNode hs i hi
  exact wp_assign hs i hi rfl hQ

theorem wp_setNext {Q : Unit → Heap (Cell T) → Prop} (hs : Holds h l F) (i : ℕ)
    (hi : l[i]? = some (a, .node n))
    (hQ : ∀ h', Holds h' (l.set i (a, .node { n with next := p })) F → Q () h') :
    wp (setNext (some a) p) Q h :=
  wp_writeNode hs i hi hQ

theorem wp_setPrev {Q : Unit → Heap (Cell T) → Prop} (hs : Holds h l F) (i : ℕ)
    (hi : l[i]? = some (a, .node n))
    (hQ : ∀ h', Holds h' (l.set i (a, .node { n with prev := p })) F → Q () h') :
    wp (setPrev (some a) p) Q h :=
  wp_writeNode hs i hi hQ

theorem wp_setData {Q : Unit → Heap (Cell T) → Prop} (hs : Holds h l F) (i : ℕ)
    (hi : l[i]? = some (a, .node n))
    (hQ : ∀ h', Holds h' (l.set i (a, .node { n with data := p })) F → Q () h') :
    wp (setData (some a) p) Q h :=
  wp_writeNode hs i hi hQ

theorem wp_newNode {Q : Ptr → Heap (Cell T) → Prop} {prev next : Ptr} (hs : Holds h l F)
    (hQ : ∀ c d h', Holds h' ((c, .node ⟨some d, prev, next⟩) :: (d, .object x) :: l) F →
      Q (some c) h') : wp (newNode x prev next) Q h := by
  simp only [newNode, wp_bind, wp_pure]
  apply wp_new hs
  intro d h hs
  apply wp_new hs
  exact fun c h hs => hQ c d h hs

theorem wp_deleteNode {Q : Unit → Heap (Cell T) → Prop} {d : ℕ}
    (hs : Holds h ((a, .node n) :: (d, .object x) :: l) F) (hn : n.data = some d)
    (hQ : ∀ h', Holds h' l F → Q () h') : wp (deleteNode (some a)) Q h := by
  simp only [deleteNode, wp_bind]
  apply wp_readNode hs 0 rfl
  have hne : n.data ≠ none := by simp [hn]
  rw [wp_when_pos hne, hn]
  apply wp_delete hs 1 rfl
  intro h hs
  exact wp_delete hs 0 rfl hQ

/-! ### Rings -/

variable {s d : ℕ × Ptr} {r : List (ℕ × Ptr)}

variable {Q : Unit → Heap (Cell T) → Prop}

theorem chain_cases (r : List (ℕ × Ptr)) : r = [] ∨ ∃ r' y, r = r' ++ [y] := by
  simpa only [List.concat_eq_append] using List.eq_nil_or_concat r

theorem wp_insertNode (hs : Holds h [(c, .node n)] (ring (link T) (s :: r) + F))
    (hQ : ∀ h', Holds h' [] (ring (link T) (s :: (r ++ [(c, n.data)])) + F) → Q () h') :
    wp (insertNode (some s.1) (some c)) Q h := by
  simp only [insertNode, wp_bind]
  rcases chain_cases r with rfl | ⟨r, y, rfl⟩
  · have hs' : Holds h [(s.1, link T s.2 s.1 s.1), (c, .node n)] F := by
      apply hs.congr
      simp only [ring_cons, last_nil, head_nil, seg_nil, ← Multiset.cons_coe,
        ← Multiset.singleton_add]
      abel
    apply wp_readNode hs' 0 rfl
    apply wp_setNext hs' 0 rfl
    intro h hs
    apply wp_setNext hs 1 rfl
    intro h hs
    apply wp_readNode hs 0 rfl
    apply wp_setPrev hs 1 rfl
    intro h hs
    apply wp_setPrev hs 0 rfl
    intro h hs
    apply hQ
    apply hs.congr
    simp only [ring_pair, link, List.set_cons_zero, List.set_cons_succ, last_nil, head_nil,
      seg_nil, ← Multiset.cons_coe, ← Multiset.singleton_add, Multiset.coe_nil]
    abel
  · have hs' : Holds h [(s.1, link T s.2 y.1 (head y.1 r)), (y.1, link T y.2 (last s.1 r) s.1),
        (c, .node n)] (seg (link T) s.1 y.1 r + F) := by
      apply hs.congr
      simp only [ring_pair, ← Multiset.cons_coe, ← Multiset.singleton_add]
      abel
    apply wp_readNode hs' 0 rfl
    apply wp_setNext hs' 1 rfl
    intro h hs
    apply wp_setNext hs 2 rfl
    intro h hs
    apply wp_readNode hs 0 rfl
    apply wp_setPrev hs 2 rfl
    intro h hs
    apply wp_setPrev hs 0 rfl
    intro h hs
    apply hQ
    apply hs.congr
    simp only [ring_pair, link, List.set_cons_zero, List.set_cons_succ, head_append, head_cons,
      last_append, last_cons, last_nil, seg_append, seg_cons, head_nil, seg_nil,
      ← Multiset.cons_coe, ← Multiset.singleton_add, Multiset.coe_nil]
    abel

/-- The node `s` is left outside the ring, with its old neighbours. -/
theorem wp_eraseNode (hr : r ≠ []) (hs : Holds h [] (ring (link T) (s :: r) + F))
    (hQ : ∀ h', Holds h' [(s.1, link T s.2 (last s.1 r) (head s.1 r))] (ring (link T) r + F) →
      Q () h') : wp (eraseNode (some s.1)) Q h := by
  obtain ⟨y, r, rfl⟩ := List.exists_cons_of_ne_nil hr
  rw [head_cons, last_cons] at hQ
  simp only [eraseNode, wp_bind]
  rcases chain_cases r with rfl | ⟨r, z, rfl⟩
  · have hs' : Holds h [(s.1, link T s.2 y.1 y.1), (y.1, link T y.2 s.1 s.1)] F := by
      apply hs.congr
      simp only [ring_cons, seg_cons, last_cons, head_cons, last_nil, head_nil, seg_nil,
        ← Multiset.cons_coe, ← Multiset.singleton_add, Multiset.coe_nil]
      abel
    apply wp_readNode hs' 0 rfl
    apply wp_readNode hs' 0 rfl
    apply wp_setNext hs' 1 rfl
    intro h hs
    apply wp_readNode hs 0 rfl
    apply wp_readNode hs 0 rfl
    apply wp_setPrev hs 1 rfl
    intro h hs
    apply hQ
    apply hs.congr
    simp only [ring_cons, link, List.set_cons_zero, List.set_cons_succ, last_nil, head_nil,
      seg_nil, ← Multiset.cons_coe, ← Multiset.singleton_add, Multiset.coe_nil]
    abel
  · have hs' : Holds h [(s.1, link T s.2 z.1 y.1), (y.1, link T y.2 s.1 (head z.1 r)),
        (z.1, link T z.2 (last y.1 r) s.1)] (seg (link T) y.1 z.1 r + F) := by
      apply hs.congr
      simp only [ring_cons, seg_cons, last_cons, head_cons, last_append, last_nil, head_append,
        head_nil, seg_append, seg_nil, ← Multiset.cons_coe, ← Multiset.singleton_add,
        Multiset.coe_nil]
      abel
    apply wp_readNode hs' 0 rfl
    apply wp_readNode hs' 0 rfl
    apply wp_setNext hs' 2 rfl
    intro h hs
    apply wp_readNode hs 0 rfl
    apply wp_readNode hs 0 rfl
    apply wp_setPrev hs 1 rfl
    intro h hs
    apply hQ
    apply hs.congr
    simp only [ring_pair, link, List.set_cons_zero, List.set_cons_succ, last_append, last_cons,
      last_nil, ← Multiset.cons_coe, ← Multiset.singleton_add]
    abel

/-- A new node in front of `s`. -/
theorem wp_insertValue {Q : Ptr → Heap (Cell T) → Prop}
    (hs : Holds h [] (ring (link T) (s :: r) + F))
    (hQ : ∀ c d h', Holds h' [] (ring (link T) (s :: (r ++ [(c, some d)])) +
      ({(d, .object x)} + F)) → Q (some c) h') : wp (insertValue (some s.1) x) Q h := by
  simp only [insertValue, wp_bind, wp_pure]
  rcases chain_cases r with rfl | ⟨r, y, rfl⟩
  · have hs' : Holds h [(s.1, link T s.2 s.1 s.1)] F := by
      apply hs.congr
      simp only [ring_cons, last_nil, head_nil, seg_nil, ← Multiset.cons_coe,
        ← Multiset.singleton_add, Multiset.coe_nil]
      abel
    apply wp_readNode hs' 0 rfl
    apply wp_newNode hs'
    intro c d h hs
    apply LinkedList.wp_setNext hs 2 rfl
    intro h hs
    apply wp_setPrev hs 2 rfl
    intro h hs
    apply hQ c d
    apply hs.congr
    simp only [ring_pair, link, List.set_cons_zero, List.set_cons_succ, last_nil, head_nil,
      seg_nil, ← Multiset.cons_coe, ← Multiset.singleton_add, Multiset.coe_nil]
    abel
  · have hs' : Holds h [(s.1, link T s.2 y.1 (head y.1 r)), (y.1, link T y.2 (last s.1 r) s.1)]
        (seg (link T) s.1 y.1 r + F) := by
      apply hs.congr
      simp only [ring_pair, ← Multiset.cons_coe, ← Multiset.singleton_add, Multiset.coe_nil]
      abel
    apply wp_readNode hs' 0 rfl
    apply wp_newNode hs'
    intro c d h hs
    apply LinkedList.wp_setNext hs 3 rfl
    intro h hs
    apply wp_setPrev hs 2 rfl
    intro h hs
    apply hQ c d
    apply hs.congr
    simp only [ring_pair, link, List.set_cons_zero, List.set_cons_succ, head_append, head_cons,
      last_append, last_cons, last_nil, seg_append, seg_cons, head_nil, seg_nil,
      ← Multiset.cons_coe, ← Multiset.singleton_add, Multiset.coe_nil]
    abel

end Course.Stl.LinkedList
