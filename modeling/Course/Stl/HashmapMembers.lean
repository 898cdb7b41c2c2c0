import Course.Stl.HashmapChains

/-! The members of a linked hash map, on its ring and on the chains of its table. -/

open Course.Lib Heap HeapThread

namespace Course.Stl.LinkedHashmap

variable {K V L : Type} {hash : K → ℕ} {equal : K → K → Bool} {exceeds : ℕ → ℕ → L → Bool}
  {next next₂ : ℕ → Ptr} {l l' l₁ l₂ c : List (Item K V)} {x : Item K V} {key : K}
  {h : Heap (Node K V)} {F : Multiset (ℕ × Node K V)} {S T : Multiset (ℕ × Bare K V)}
  {m other : LinkedHashmap L} {head table capacity : ℕ}

/-- What the map asks of its functions. -/
structure Hashes (hash : K → ℕ) (equal : K → K → Bool) : Prop where
  equivalence : Equivalence fun x y => equal x y = true
  hash : ∀ x y, equal x y = true → hash x = hash y

/-- The nodes of a map. -/
def shape (m : LinkedHashmap L) (l : List (Item K V)) : Multiset (ℕ × Bare K V) :=
  nodes m.head l + buckets K V m.table m.capacity

theorem holds_left_comm {G G' : Multiset (ℕ × Node K V)} (hs : Holds h [] (G + (G' + F))) :
    Holds h [] (G' + (G + F)) :=
  hs.congr (by rw [add_left_comm G])

theorem chained_nil (hnext : ∀ i < capacity, next (table + i) = none) :
    Chained hash table capacity next ([] : List (Item K V)) :=
  fun i hi => ⟨[], hnext i hi, .nil⟩

theorem clear_eq_none {i : ℕ} (hi : i < capacity) :
    HeapThread.clear next table capacity (table + i) = none :=
  if_pos ⟨Nat.le_add_right .., Nat.add_lt_add_left hi table⟩

/-! ### Lookups -/

theorem mem_of_find? (hperm : c.Perm (inBucket hash capacity (index hash capacity key) l))
    (hx : c.find? (fun x => equal x.2.1 key) = some x) : x ∈ l ∧ equal x.2.1 key = true :=
  ⟨(mem_inBucket.mp (hperm.mem_iff.mp (List.mem_of_find?_eq_some hx))).1,
    List.find?_some (p := fun x : Item K V => equal x.2.1 key) hx⟩

/-- A key that is not in its bucket is in no other. -/
theorem absent_of_find? (hk : Hashes hash equal)
    (hperm : c.Perm (inBucket hash capacity (index hash capacity key) l))
    (hnone : c.find? (fun x => equal x.2.1 key) = none) : ∀ x ∈ l, equal x.2.1 key = false := by
  intro x hx
  by_contra hkey
  have hkey : equal x.2.1 key = true := by simpa using hkey
  have hindex : index hash capacity x.2.1 = index hash capacity key := by
    rw [index, index, hk.hash x.2.1 key hkey]
  have hmem := hperm.mem_iff.mpr (mem_inBucket.mpr ⟨hx, hindex⟩)
  exact absurd hkey (List.find?_eq_none.mp hnone x hmem)

theorem Listed.of_perm {i : ℕ} (hl : Listed S l) (hperm : c.Perm (inBucket hash capacity i l)) :
    Listed S c :=
  fun x hx => hl x (mem_inBucket.mp (hperm.mem_iff.mp hx)).1

/-- The loop of the lookups, from the node of the table. -/
theorem wp_lookup {Q : Ptr → Heap (Node K V) → Prop} (hk : Hashes hash equal)
    (hs : Holds h [] (cells next (shape m l) + F)) (hcapacity : 0 < m.capacity)
    (hchained : Chained hash m.table m.capacity next l)
    (hfound : ∀ x ∈ l, equal x.2.1 key = true → Q (some x.1) h)
    (hnone : (∀ x ∈ l, equal x.2.1 key = false) → Q none h) :
    wp (deref (some (m.slot hash key))) (fun n => wp (seek equal key n.next) Q) h := by
  have hi := index_lt hash hcapacity key
  obtain ⟨c, hpath, hperm⟩ := hchained _ hi
  apply HeapThread.wp_deref hs (Multiset.mem_add.mpr (.inr (mem_buckets hi)))
  apply wp_seek hs (((listed_nodes m.head l).add_right _).of_perm hperm) hpath
  · intro x hx
    obtain ⟨hmem, hkey⟩ := mem_of_find? hperm hx
    exact hfound x hmem hkey
  · exact fun hx => hnone (absent_of_find? hk hperm hx)

/-! ### Resizing -/

/-- All elements come into the chains of the new table. -/
theorem wp_rehash {Q : Unit → Heap (Node K V) → Prop}
    (hs : Holds h [] (cells next (nodes head (l₁ ++ l₂) + S) + F))
    (hS : buckets K V table capacity ≤ S) (hcapacity : 0 < capacity)
    (hchained : Chained hash table capacity next l₁)
    (hQ : ∀ h' next', Holds h' [] (cells next' (nodes head (l₁ ++ l₂) + S) + F) →
      Chained hash table capacity next' (l₁ ++ l₂) → Q () h') :
    wp (rehash hash head table capacity (some (HeapRing.head head (chain l₂)))) Q h := by
  induction l₂ generalizing h next l₁ with
  | nil =>
    rw [rehash, chain_nil, HeapRing.head_nil, if_pos rfl, wp_pure]
    rw [List.append_nil] at hs hQ
    exact hQ h next hs hchained
  | cons x l₂ ih =>
    have hne : some x.1 ≠ some head := fun heq =>
      ne_head hs (by simp) (Option.some.inj heq)
    have hx : (x.1, link (some x.2) (HeapRing.last head (chain l₁))
        (HeapRing.head head (chain l₂))) ∈ nodes head (l₁ ++ x :: l₂) + S :=
      Multiset.mem_add.mpr (.inl (mem_nodes head l₁ l₂ x))
    have hi := index_lt hash hcapacity x.2.1
    have hq : (table + index hash capacity x.2.1, ⟨none, none, none⟩) ∈
        nodes head (l₁ ++ x :: l₂) + S :=
      Multiset.mem_add.mpr (.inr (Multiset.mem_of_le hS (mem_buckets hi)))
    have hap := apart hs hS
    rw [List.append_cons] at hap
    rw [rehash, chain_cons, HeapRing.head_cons, if_neg hne]
    simp only [wp_bind]
    apply wp_entry hs hx
    apply HeapThread.wp_deref hs hq
    apply wp_setNext hs hx
    intro h hs
    apply wp_setNext hs hq
    intro h hs
    apply HeapThread.wp_deref hs hx
    dsimp only [link, Bare.node]
    rw [List.append_cons] at hs hQ
    exact ih hs (hchained.push rfl hi hap.of_append) hQ

/-- What `resize` leaves. -/
structure Resized (m m' : LinkedHashmap L) : Prop where
  head : m'.head = m.head
  size : m'.numOfElements = m.numOfElements
  capacity : 0 < m'.capacity

theorem wp_resize {Q : LinkedHashmap L → Heap (Node K V) → Prop}
    (hs : Holds h [] (cells next (shape m l) + F)) (hcapacity : 0 < m.capacity)
    (hchained : Chained hash m.table m.capacity next l)
    (hQ : ∀ m' next' h', Resized m m' → Chained hash m'.table m'.capacity next' l →
      Holds h' [] (cells next' (shape m' l) + F) → Q m' h') :
    wp (resize hash exceeds m) Q h := by
  rw [resize]
  by_cases hexceeds : exceeds m.numOfElements m.capacity m.loadFactor
  · have hcapacity' : 0 < m.capacity <<< 1 := by
      rw [Nat.shiftLeft_eq]
      omega
    rw [if_pos hexceeds]
    simp only [wp_bind, wp_pure]
    apply wp_newTable hs
    intro table h hs
    rw [shape, add_left_comm] at hs
    apply HeapThread.wp_deref hs (Multiset.mem_add.mpr (.inl mem_nodes_head))
    dsimp only [link, Bare.node]
    have hs : Holds h [] (cells _ (nodes m.head ([] ++ l) + _) + F) := hs
    apply wp_rehash hs (Multiset.le_add_right ..) hcapacity'
      (chained_nil fun i hi => clear_eq_none hi)
    intro h next' hs hchained
    have hold : nodes m.head l + (buckets K V table (m.capacity <<< 1) +
        buckets K V m.table m.capacity) = buckets K V m.table m.capacity +
        (nodes m.head l + buckets K V table (m.capacity <<< 1)) := by abel
    rw [List.nil_append, hold] at hs
    apply HeapThread.wp_deleteArray hs
    intro h hs
    exact hQ { m with table := table, capacity := m.capacity <<< 1 } next' h ⟨rfl, rfl, hcapacity'⟩
      hchained hs
  · rw [if_neg hexceeds, wp_pure]
    exact hQ m next h ⟨rfl, rfl, hcapacity⟩ hchained hs

/-! ### New elements -/

/-- The element of the key, or a new one at the end. -/
theorem wp_put {Q : LinkedHashmap L × Ptr × Bool → Heap (Node K V) → Prop} {value : K × V}
    (hk : Hashes hash equal) (hs : Holds h [] (cells next (shape m l) + F))
    (hcapacity : 0 < m.capacity) (hchained : Chained hash m.table m.capacity next l)
    (hfound : ∀ x ∈ l, equal x.2.1 value.1 = true → Q (m, some x.1, false) h)
    (hnew : ∀ a m' next' h', (∀ x ∈ l, equal x.2.1 value.1 = false) →
      Resized { m with numOfElements := m.numOfElements + 1 } m' →
      Chained hash m'.table m'.capacity next' (l ++ [(a, value)]) →
      Holds h' [] (cells next' (shape m' (l ++ [(a, value)])) + F) → Q (m', some a, true) h') :
    wp (put hash equal exceeds m value) Q h := by
  have hi := index_lt hash hcapacity value.1
  obtain ⟨c, hpath, hperm⟩ := hchained _ hi
  have hq : (m.table + index hash m.capacity value.1, ⟨none, none, none⟩) ∈ shape m l :=
    Multiset.mem_add.mpr (.inr (mem_buckets hi))
  have hlisted := ((listed_nodes m.head l).add_right
    (buckets K V m.table m.capacity)).of_perm hperm
  rw [put, wp_bind]
  apply wp_seekNext hs hq hlisted hpath
  · intro x p hx
    obtain ⟨hmem, hkey⟩ := mem_of_find? hperm hx
    dsimp only
    rw [if_pos (Option.some_ne_none x.1), wp_pure]
    exact hfound x hmem hkey
  · intro hx
    dsimp only
    rw [if_neg (not_not.mpr rfl)]
    simp only [wp_bind, wp_pure]
    obtain ⟨b, hb⟩ := hlisted.last hq
    apply wp_append hs hb
    intro a h hs
    have hap := apart hs (le_refl _)
    refine wp_resize (m := { m with numOfElements := m.numOfElements + 1 }) hs hcapacity
      (hchained.concat rfl hi hap hpath hperm) ?_
    intro m' next' h hresized hchained hs
    exact hnew a m' next' h (absent_of_find? hk hperm hx) hresized hchained hs

/-! ### Removal -/

theorem wp_erase {Q : Except Exception (LinkedHashmap L) → Heap (Node K V) → Prop}
    (hs : Holds h [] (cells next (shape m (l₁ ++ x :: l₂)) + F)) (hcapacity : 0 < m.capacity)
    (hchained : Chained hash m.table m.capacity next (l₁ ++ x :: l₂))
    (hQ : ∀ next' h', Chained hash m.table m.capacity next' (l₁ ++ l₂) →
      Holds h' [] (cells next' (shape m (l₁ ++ l₂)) + F) →
      Q (.ok { m with numOfElements := m.numOfElements - 1 }) h') :
    wp (erase hash m ⟨some x.1, m.head⟩) Q h := by
  have hne : some x.1 ≠ some m.head := fun heq => ne_head hs (by simp) (Option.some.inj heq)
  have hap := apart hs (le_refl _)
  have hi := index_lt hash hcapacity x.2.1
  obtain ⟨c, hpath, hperm⟩ := hchained _ hi
  have hmem : x ∈ c := hperm.mem_iff.mpr (mem_inBucket.mpr ⟨by simp, rfl⟩)
  obtain ⟨c₁, c₂, rfl⟩ := List.append_of_mem hmem
  have hnodup := hap.chain_nodup hi hperm
  rw [List.map_append, List.map_cons, List.nodup_cons] at hnodup
  have hnot : x.1 ∉ c₁.map Prod.fst := fun hx =>
    List.disjoint_of_nodup_append hnodup.2 hx List.mem_cons_self
  rw [erase, if_neg (not_or.mpr ⟨hne, not_not.mpr rfl⟩)]
  simp only [wp_bind, wp_pure]
  apply wp_unlink hs
  intro h before after hs
  have hx : (x.1, link (some x.2) before after) ∈ {(x.1, link (some x.2) before after)} +
      (nodes m.head (l₁ ++ l₂) + buckets K V m.table m.capacity) := by simp
  have hq : (m.table + index hash m.capacity x.2.1, ⟨none, none, none⟩) ∈
      {(x.1, link (some x.2) before after)} +
        (nodes m.head (l₁ ++ l₂) + buckets K V m.table m.capacity) :=
    Multiset.mem_add.mpr (.inr (Multiset.mem_add.mpr (.inr (mem_buckets hi))))
  have hlisted : Listed ({(x.1, link (some x.2) before after)} +
      (nodes m.head (l₁ ++ l₂) + buckets K V m.table m.capacity)) c₁ := by
    intro y hy
    have hyl := (mem_inBucket.mp (hperm.mem_iff.mp (List.mem_append_left (x :: c₂) hy))).1
    have hyx : y ≠ x := by
      rintro rfl
      exact hnot (List.mem_map_of_mem hy)
    have hyl : y ∈ l₁ ++ l₂ := by
      simp only [List.mem_append, List.mem_cons] at hyl ⊢
      exact hyl.imp_right fun hy => hy.resolve_left hyx
    obtain ⟨before, after, hy⟩ := listed_nodes m.head (l₁ ++ l₂) y hyl
    exact ⟨before, after, Multiset.mem_add.mpr (.inr (Multiset.mem_add.mpr (.inl hy)))⟩
  apply wp_entry hs hx
  apply wp_predecessor hs hq hlisted hpath hnot
  obtain ⟨b, hb⟩ := hlisted.last hq
  apply HeapThread.wp_deref hs hx
  apply wp_setNext hs hb
  intro h hs
  apply HeapThread.wp_delete hs rfl
  intro h hs
  exact hQ _ h (hchained.erase rfl hi hap hpath hperm) hs

theorem wp_clear {Q : LinkedHashmap L → Heap (Node K V) → Prop}
    (hs : Holds h [] (cells next (shape m l) + F)) (hsize : m.numOfElements = l.length)
    (hchained : Chained hash m.table m.capacity next l)
    (hQ : ∀ next' h', Chained hash m.table m.capacity next' ([] : List (Item K V)) →
      Holds h' [] (cells next' (shape m []) + F) → Q { m with numOfElements := 0 } h') :
    wp (clear m) Q h := by
  rw [clear]
  by_cases hzero : m.numOfElements = 0
  · obtain rfl : l = [] := List.length_eq_zero_iff.mp (hsize.symm.trans hzero)
    have hm : m = { m with numOfElements := 0 } := by rw [← hzero]
    rw [if_pos hzero, wp_pure]
    have hQ := hQ next h hchained hs
    rwa [← hm] at hQ
  · have hl : l ≠ [] := by
      rintro rfl
      exact hzero hsize
    rw [if_neg hzero]
    simp only [wp_bind, wp_pure]
    apply wp_removeAll hl hs
    intro h d hd hs
    apply wp_reset hs hd
    intro h hs
    rw [add_comm (nodes m.head [])] at hs
    apply wp_clearTable hs
    intro h hs
    rw [add_comm _ (nodes m.head [])] at hs
    exact hQ _ h (chained_nil fun i hi => clear_eq_none hi) hs

theorem wp_destroy {Q : Unit → Heap (Node K V) → Prop}
    (hs : Holds h [] (cells next (shape m l) + F)) (hsize : m.numOfElements = l.length)
    (hQ : ∀ h', Holds h' [] F → Q () h') : wp (destroy m) Q h := by
  have hrest : ∀ h d, Holds h [] (cells next ({(m.head, d)} + buckets K V m.table m.capacity) + F) →
      wp (do deleteArray m.table m.capacity; delete (some m.head)) Q h := by
    intro h d hs
    rw [wp_bind]
    rw [add_comm {(m.head, d)}] at hs
    apply HeapThread.wp_deleteArray hs
    intro h hs
    have hs : Holds h [] (cells next ({(m.head, d)} + 0) + F) := by rwa [add_zero]
    apply HeapThread.wp_delete hs rfl
    exact fun h hs => hQ h (hs.congr (by simp [HeapThread.cells]))
  rw [destroy, wp_bind]
  by_cases hzero : m.numOfElements = 0
  · obtain rfl : l = [] := List.length_eq_zero_iff.mp (hsize.symm.trans hzero)
    rw [wp_when_neg (not_not.mpr hzero)]
    rw [shape, nodes_eq, chain_nil, HeapRing.seg_nil, add_zero] at hs
    exact hrest h _ hs
  · have hl : l ≠ [] := by
      rintro rfl
      exact hzero hsize
    rw [wp_when_pos hzero]
    apply wp_removeAll hl hs
    exact fun h d _ hs => hrest h d hs

/-! ### Creation and copies -/

theorem wp_create {Q : LinkedHashmap L → Heap (Node K V) → Prop} {loadFactor : L}
    (hs : Holds h [] F)
    (hQ : ∀ table head next h', Chained hash table capacity next ([] : List (Item K V)) →
      Holds h' [] (cells next (shape ⟨table, head, capacity, 0, loadFactor⟩ []) + F) →
      Q ⟨table, head, capacity, 0, loadFactor⟩ h') :
    wp (create capacity loadFactor) Q h := by
  simp only [create, wp_bind, wp_pure]
  have hs : Holds h [] (cells (fun _ => none) (0 : Multiset (ℕ × Bare K V)) + F) :=
    hs.congr (by simp [HeapThread.cells])
  apply wp_newTable hs
  intro table h hs
  rw [add_zero] at hs
  apply wp_newHead hs
  intro head h hs
  apply wp_reset hs rfl
  intro h hs
  refine hQ table head _ h (chained_nil fun i hi => ?_) hs
  rw [Function.update_apply, clear_eq_none hi]
  split <;> rfl

/-- The elements of the other map come behind those there are. -/
theorem wp_copyFrom {Q : Unit → Heap (Node K V) → Prop}
    (hs : Holds h [] (cells next (shape m l) + (cells next₂ (nodes head (l₁ ++ l₂) + T) + F)))
    (hcapacity : 0 < m.capacity) (hchained : Chained hash m.table m.capacity next l)
    (hQ : ∀ h' next' l', l'.map Prod.snd = l₂.map Prod.snd →
      Chained hash m.table m.capacity next' (l ++ l') →
      Holds h' [] (cells next' (shape m (l ++ l')) +
        (cells next₂ (nodes head (l₁ ++ l₂) + T) + F)) → Q () h') :
    wp (copyFrom hash m head (some (HeapRing.head head (chain l₂)))) Q h := by
  induction l₂ generalizing h next l l₁ with
  | nil =>
    rw [copyFrom, chain_nil, HeapRing.head_nil, if_pos rfl, wp_pure]
    refine hQ h next [] rfl ?_ ?_
    · rwa [List.append_nil]
    · rwa [List.append_nil]
  | cons x l₂ ih =>
    have hx : (x.1, link (some x.2) (HeapRing.last head (chain l₁))
        (HeapRing.head head (chain l₂))) ∈ nodes head (l₁ ++ x :: l₂) + T :=
      Multiset.mem_add.mpr (.inl (mem_nodes head l₁ l₂ x))
    have hne : some x.1 ≠ some head := fun heq =>
      ne_head (holds_left_comm hs) (by simp) (Option.some.inj heq)
    have hi := index_lt hash hcapacity x.2.1
    have hq : (m.table + index hash m.capacity x.2.1, ⟨none, none, none⟩) ∈ shape m l :=
      Multiset.mem_add.mpr (.inr (mem_buckets hi))
    rw [copyFrom, chain_cons, HeapRing.head_cons, if_neg hne]
    simp only [wp_bind]
    apply wp_entry (holds_left_comm hs) hx
    apply HeapThread.wp_deref hs hq
    apply wp_append hs hq
    intro a h hs
    have hap := apart hs (le_refl _)
    apply HeapThread.wp_deref (holds_left_comm hs) hx
    dsimp only [link, Bare.node]
    have hchained := hchained.push (x := (a, x.2)) rfl hi hap
    rw [List.append_cons l₁] at hs hQ
    refine ih hs hchained fun h' next' l' hl' hchained hs => ?_
    rw [List.append_assoc, List.singleton_append] at hchained hs
    exact hQ h' next' ((a, x.2) :: l') (by rw [List.map_cons, List.map_cons, hl']) hchained hs

/-- What a map is after it was copied from another. -/
structure Copied (m other : LinkedHashmap L) : Prop where
  capacity : m.capacity = other.capacity
  size : m.numOfElements = other.numOfElements

theorem wp_createCopy {Q : LinkedHashmap L → Heap (Node K V) → Prop}
    (hs : Holds h [] (cells next₂ (shape other l) + F)) (hcapacity : 0 < other.capacity)
    (hQ : ∀ m next h' l', l'.map Prod.snd = l.map Prod.snd → Copied m other →
      Chained hash m.table m.capacity next l' →
      Holds h' [] (cells next (shape m l') + (cells next₂ (shape other l) + F)) → Q m h') :
    wp (createCopy hash other) Q h := by
  simp only [createCopy, wp_bind, wp_pure]
  refine wp_create hs fun table head next h (hchained : Chained hash _ _ next _) hs => ?_
  apply HeapThread.wp_deref (holds_left_comm hs) (Multiset.mem_add.mpr (.inl mem_nodes_head))
  dsimp only [link, Bare.node]
  have hs : Holds h [] (cells next (shape ⟨table, head, other.capacity, other.numOfElements,
      other.loadFactor⟩ []) + (cells next₂ (nodes other.head ([] ++ l) + _) + F)) := hs
  apply wp_copyFrom hs hcapacity hchained
  intro h next' l' hl' hchained hs
  exact hQ _ next' h l' hl' ⟨rfl, rfl⟩ hchained hs

theorem wp_assignFrom {Q : LinkedHashmap L → Heap (Node K V) → Prop}
    (hs : Holds h [] (cells next (shape m l) + (cells next₂ (shape other l₂) + F)))
    (hhead : m.head ≠ other.head) (hsize : m.numOfElements = l.length)
    (hchained : Chained hash m.table m.capacity next l) (hcapacity : 0 < other.capacity)
    (hQ : ∀ table next' h' l', l'.map Prod.snd = l₂.map Prod.snd →
      Chained hash table other.capacity next' l' →
      Holds h' [] (cells next' (shape { other with table := table, head := m.head } l') +
        (cells next₂ (shape other l₂) + F)) →
      Q { other with table := table, head := m.head } h') :
    wp (assignFrom hash m other) Q h := by
  have hcopy : ∀ table next h, Chained hash table other.capacity next ([] : List (Item K V)) →
      Holds h [] (cells next (nodes m.head [] + buckets K V table other.capacity) +
        (cells next₂ (shape other l₂) + F)) →
      wp (do
        copyFrom hash { other with table := table, head := m.head } other.head
          (← deref (some other.head)).after
        return { other with table := table, head := m.head }) Q h := by
    intro table next h hchained hs
    simp only [wp_bind, wp_pure]
    apply HeapThread.wp_deref (holds_left_comm hs) (Multiset.mem_add.mpr (.inl mem_nodes_head))
    dsimp only [link, Bare.node]
    have hs : Holds h [] (cells next (shape { other with table := table, head := m.head } []) +
        (cells next₂ (nodes other.head ([] ++ l₂) + _) + F)) := hs
    apply wp_copyFrom hs hcapacity hchained
    intro h next' l' hl' hchained hs
    exact hQ table next' h l' hl' hchained hs
  rw [assignFrom, if_neg hhead]
  simp only [wp_bind, wp_pure] at hcopy ⊢
  apply wp_leave hs
  intro h d hd hs
  apply wp_reset hs hd
  intro h hs
  rw [add_comm (nodes m.head [])] at hs
  by_cases hne : m.capacity = other.capacity
  · rw [if_neg (not_not.mpr hne)]
    simp only [wp_bind, wp_pure]
    by_cases hzero : m.numOfElements = 0
    · have hnil : l = [] := List.length_eq_zero_iff.mp (hsize.symm.trans hzero)
      rw [wp_when_neg (not_not.mpr hzero)]
      rw [add_comm _ (nodes m.head []), hne] at hs
      rw [hnil, hne] at hchained
      exact hcopy m.table next h hchained hs
    · rw [wp_when_pos hzero]
      apply wp_clearTable hs
      intro h hs
      rw [add_comm _ (nodes m.head []), hne] at hs
      exact hcopy m.table _ h (chained_nil fun i hi => clear_eq_none hi) hs
  · rw [if_pos hne]
    simp only [wp_bind, wp_pure]
    apply HeapThread.wp_deleteArray hs
    intro h hs
    apply wp_newTable hs
    intro table h hs
    rw [add_comm _ (nodes m.head [])] at hs
    exact hcopy table _ h (chained_nil fun i hi => clear_eq_none hi) hs

end Course.Stl.LinkedHashmap
