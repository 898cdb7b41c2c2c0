import Course.Stl.HashmapMembers
import Mathlib.Data.List.Induction

/-! One operation on a linked hash map: what it does to the nodes, and to the list of entries
that the map stands for. -/

open Course.Lib Heap

namespace Course.Stl.LinkedHashmap

/-- The operations on one map; `write` is `map[key] = v`, `erase` goes through the iterator
that `find` gives, and the last two through all iterators from one end to the other. -/
inductive Action (K V : Type)
  | clear
  | insert (value : K × V)
  | subscript (key : K)
  | write (key : K) (v : V)
  | erase (key : K)
  | find (key : K)
  | at' (key : K)
  | count (key : K)
  | size
  | empty
  | forward
  | backward

inductive Answer (K V : Type)
  | done
  | thrown (e : Exception)
  | inserted (e : K × V) (fresh : Bool)
  | value (v : V)
  | entry (e : Option (K × V))
  | size (n : ℕ)
  | flag (b : Bool)
  | entries (s : List (K × V))

variable {K V L : Type}

/-- `for (it = begin(); it != end(); ++it)`, with the values. -/
def forwardFrom (m : LinkedHashmap L) (it : Iterator) (s : List (K × V)) :
    Prog (Node K V) (Answer K V) := do
  if it.target = m.end'.target then return .entries s
  match ← it.value with
  | .error e => return .thrown e
  | .ok value =>
    match ← it.increment with
    | .error e => return .thrown e
    | .ok it => by apply forwardFrom; exacts [m, it, s ++ [value]]
partial_fixpoint

/-- `for (it = end(); it != begin();) { --it; … }`, with the values. -/
def backwardFrom (m : LinkedHashmap L) (it : Iterator) (s : List (K × V)) :
    Prog (Node K V) (Answer K V) := do
  if it.target = (← begin' m).target then return .entries s
  match ← it.decrement with
  | .error e => return .thrown e
  | .ok it =>
    match ← it.value with
    | .error e => return .thrown e
    | .ok value => by apply backwardFrom; exacts [m, it, s ++ [value]]
partial_fixpoint

def Node.setSecond (n : Node K V) (v : V) : Node K V :=
  { n with val := n.val.map fun e => (e.1, v) }

section

variable [Inhabited V]

def act (hash : K → ℕ) (equal : K → K → Bool) (exceeds : ℕ → ℕ → L → Bool)
    (m : LinkedHashmap L) : Action K V → Prog (Node K V) (LinkedHashmap L × Answer K V)
  | .clear => return (← clear m, .done)
  | .insert value => do
    let (m, pos, fresh) ← insert hash equal exceeds m value
    return (m, .inserted (← entry pos.target) fresh)
  | .subscript key => do
    let (m, p) ← subscript hash equal exceeds m key
    return (m, .value (← entry p).2)
  | .write key v => do
    let (m, p) ← subscript hash equal exceeds m key
    assign p fun n => n.setSecond v
    return (m, .done)
  | .erase key => do
    match ← erase hash m (← find hash equal m key) with
    | .ok m => return (m, .done)
    | .error e => return (m, .thrown e)
  | .find key => do
    let pos ← find hash equal m key
    if pos.target = m.end'.target then return (m, .entry none)
    else return (m, .entry (some (← entry pos.target)))
  | .at' key => do
    match ← at' hash equal m key with
    | .ok v => return (m, .value v)
    | .error e => return (m, .thrown e)
  | .count key => return (m, .size (← count hash equal m key))
  | .size => return (m, .size m.size)
  | .empty => return (m, .flag m.empty)
  | .forward => return (m, ← forwardFrom m (← begin' m) [])
  | .backward => return (m, ← backwardFrom m m.end' [])

/-! ### Association lists -/

def lookup (equal : K → K → Bool) (key : K) (s : List (K × V)) : Option (K × V) :=
  s.find? fun e => equal e.1 key

/-- The same operations on the entries, in the order in which they came. -/
def Action.on (equal : K → K → Bool) (s : List (K × V)) :
    Action K V → List (K × V) × Answer K V
  | .clear => ([], .done)
  | .insert value =>
    match lookup equal value.1 s with
    | some e => (s, .inserted e false)
    | none => (s ++ [value], .inserted value true)
  | .subscript key =>
    match lookup equal key s with
    | some e => (s, .value e.2)
    | none => (s ++ [(key, default)], .value default)
  | .write key v =>
    match lookup equal key s with
    | some _ => (s.map fun e => if equal e.1 key then (e.1, v) else e, .done)
    | none => (s ++ [(key, v)], .done)
  | .erase key =>
    match lookup equal key s with
    | some _ => (s.filter fun e => !equal e.1 key, .done)
    | none => (s, .thrown .invalid_iterator)
  | .find key => (s, .entry (lookup equal key s))
  | .at' key =>
    match lookup equal key s with
    | some e => (s, .value e.2)
    | none => (s, .thrown .index_out_of_bound)
  | .count key => (s, .size (if (lookup equal key s).isSome then 1 else 0))
  | .size => (s, .size s.length)
  | .empty => (s, .flag s.isEmpty)
  | .forward => (s, .entries s)
  | .backward => (s, .entries s.reverse)

end

variable {hash : K → ℕ} {equal : K → K → Bool} {exceeds : ℕ → ℕ → L → Bool} {key : K} {v : V}
  {l l' l₁ l₂ : List (Item K V)} {x : Item K V}

/-- No key is there twice. -/
def Unique (equal : K → K → Bool) (l : List (Item K V)) : Prop :=
  l.Pairwise fun x y => equal x.2.1 y.2.1 = false

/-- No element has the key. -/
def Absent (equal : K → K → Bool) (key : K) (l : List (Item K V)) : Prop :=
  ∀ x ∈ l, equal x.2.1 key = false

theorem lookup_of_absent (h : Absent equal key l) : lookup equal key (l.map Prod.snd) = none := by
  rw [lookup, List.find?_eq_none]
  intro e he
  obtain ⟨x, hx, rfl⟩ := List.mem_map.mp he
  simp [h x hx]

section Keys

variable (hk : Hashes hash equal)

include hk

/-- The others have other keys. -/
theorem Unique.others (hu : Unique equal (l₁ ++ x :: l₂)) (hkey : equal x.2.1 key = true) :
    Absent equal key (l₁ ++ l₂) := by
  obtain ⟨-, hx, hbefore⟩ := List.pairwise_append.mp hu
  obtain ⟨hafter, -⟩ := List.pairwise_cons.mp hx
  intro y hy
  by_contra hne
  have hyx := hk.equivalence.trans (by simpa using hne) (hk.equivalence.symm hkey)
  obtain hy | hy := List.mem_append.mp hy
  · exact absurd hyx (by simp [hbefore y hy x List.mem_cons_self])
  · exact absurd (hk.equivalence.symm hyx) (by simp [hafter y hy])

theorem lookup_of_mem (hu : Unique equal l) (hx : x ∈ l) (hkey : equal x.2.1 key = true) :
    lookup equal key (l.map Prod.snd) = some x.2 := by
  obtain ⟨l₁, l₂, rfl⟩ := List.append_of_mem hx
  have habsent := hu.others hk hkey
  have hbefore : lookup equal key (l₁.map Prod.snd) = none :=
    lookup_of_absent fun y hy => habsent y (List.mem_append_left l₂ hy)
  rw [lookup] at hbefore ⊢
  rw [List.map_append, List.find?_append, hbefore, List.map_cons, Option.none_or]
  exact List.find?_cons_of_pos hkey

end Keys

theorem Unique.concat (hu : Unique equal l) (h : Absent equal x.2.1 l) :
    Unique equal (l ++ [x]) :=
  List.pairwise_append.mpr ⟨hu, List.pairwise_singleton .., fun y hy z hz => by
    rw [List.mem_singleton.mp hz]
    exact h y hy⟩

theorem Unique.erase (hu : Unique equal (l₁ ++ x :: l₂)) : Unique equal (l₁ ++ l₂) :=
  hu.sublist ((List.Sublist.refl l₁).append (List.sublist_cons_self x l₂))

/-- The value of the key is replaced. -/
def write (equal : K → K → Bool) (key : K) (v : V) (x : Item K V) : Item K V :=
  if equal x.2.1 key then (x.1, x.2.1, v) else x

theorem write_keeps (x : Item K V) :
    (write equal key v x).1 = x.1 ∧ (write equal key v x).2.1 = x.2.1 := by
  rw [write]
  split <;> exact ⟨rfl, rfl⟩

theorem map_write_of_absent (h : Absent equal key l) : l.map (write equal key v) = l :=
  (List.map_congr_left fun x hx => by rw [write, if_neg (by simp [h x hx]), id]).trans
    (List.map_id l)

theorem map_write (hkey : equal x.2.1 key = true) (h : Absent equal key (l₁ ++ l₂)) :
    (l₁ ++ x :: l₂).map (write equal key v) = l₁ ++ (x.1, x.2.1, v) :: l₂ := by
  rw [List.map_append, List.map_cons,
    map_write_of_absent fun y hy => h y (List.mem_append_left l₂ hy),
    map_write_of_absent fun y hy => h y (List.mem_append_right l₁ hy), write, if_pos hkey]

theorem map_snd_write (l : List (Item K V)) : (l.map (write equal key v)).map Prod.snd =
    (l.map Prod.snd).map fun e => if equal e.1 key then (e.1, v) else e := by
  rw [List.map_map, List.map_map]
  apply List.map_congr_left
  intro x _
  rw [Function.comp_apply, Function.comp_apply, write]
  split <;> rfl

theorem filter_of_absent (h : Absent equal key l) :
    (l.map Prod.snd).filter (fun e => !equal e.1 key) = l.map Prod.snd := by
  rw [List.filter_eq_self]
  intro e he
  obtain ⟨x, hx, rfl⟩ := List.mem_map.mp he
  simp [h x hx]

theorem filter_snd (hkey : equal x.2.1 key = true) (h : Absent equal key (l₁ ++ l₂)) :
    ((l₁ ++ x :: l₂).map Prod.snd).filter (fun e => !equal e.1 key) = (l₁ ++ l₂).map Prod.snd := by
  rw [List.map_append, List.map_cons, List.filter_append, List.filter_cons_of_neg (by simp [hkey]),
    filter_of_absent fun y hy => h y (List.mem_append_left l₂ hy),
    filter_of_absent fun y hy => h y (List.mem_append_right l₁ hy), List.map_append]

theorem Unique.map_write (hu : Unique equal l) : Unique equal (l.map (write equal key v)) :=
  List.pairwise_map.mpr (hu.imp fun {x y} hxy => by
    rw [(write_keeps x).2, (write_keeps y).2]
    exact hxy)

theorem Chained.map_write {table capacity : ℕ} {next : ℕ → Ptr}
    (h : Chained hash table capacity next l) :
    Chained hash table capacity next (l.map (write equal key v)) := by
  intro i hi
  obtain ⟨c, hpath, hperm⟩ := h i hi
  refine ⟨c.map (write equal key v), ?_, ?_⟩
  · have haddrs : (c.map (write equal key v)).map Prod.fst = c.map Prod.fst := by
      rw [List.map_map]
      exact List.map_congr_left fun x _ => (write_keeps x).1
    rwa [haddrs]
  · have hbucket : inBucket hash capacity i (l.map (write equal key v)) =
        (inBucket hash capacity i l).map (write equal key v) := by
      rw [inBucket, List.filter_map, inBucket]
      congr 1
      exact List.filter_congr fun x _ => by rw [Function.comp_apply, (write_keeps x).2]
    rw [hbucket]
    exact hperm.map _

/-- A map in memory with these elements. -/
structure Valid (hash : K → ℕ) (equal : K → K → Bool) (m : LinkedHashmap L) (next : ℕ → Ptr)
    (l : List (Item K V)) : Prop where
  capacity : 0 < m.capacity
  chained : Chained hash m.table m.capacity next l
  unique : Unique equal l
  size : m.numOfElements = l.length

section Steps

variable {m : LinkedHashmap L} {next : ℕ → Ptr} {h : Heap (Node K V)}
  {F : Multiset (ℕ × Node K V)} {S : Multiset (ℕ × Bare K V)} {head : ℕ}

theorem wp_setSecond {Q : Unit → Heap (Node K V) → Prop}
    (hs : Holds h [] (cells next (nodes head (l₁ ++ x :: l₂) + S) + F))
    (hQ : ∀ h', Holds h' [] (cells next (nodes head (l₁ ++ (x.1, x.2.1, v) :: l₂) + S) + F) →
      Q () h') : wp (assign (some x.1) fun n => n.setSecond v) Q h := by
  rw [nodes_middle, add_assoc] at hs
  refine HeapThread.wp_assign_rest (y := link (some (x.2.1, v)) _ _) hs rfl rfl fun h' hs' => ?_
  apply hQ h'
  rw [nodes_middle, add_assoc]
  exact hs'

theorem Valid.put {m' : LinkedHashmap L} {next' : ℕ → Ptr} {a : ℕ} {value : K × V}
    (hv : Valid hash equal m next l) (habsent : Absent equal value.1 l)
    (hm : Resized { m with numOfElements := m.numOfElements + 1 } m')
    (hchained : Chained hash m'.table m'.capacity next' (l ++ [(a, value)])) :
    Valid hash equal m' next' (l ++ [(a, value)]) where
  capacity := hm.capacity
  chained := hchained
  unique := hv.unique.concat habsent
  size := by rw [hm.size, hv.size, List.length_append, List.length_singleton]

theorem Valid.write (hv : Valid hash equal m next l) (key : K) (v : V) :
    Valid hash equal m next (l.map (LinkedHashmap.write equal key v)) where
  capacity := hv.capacity
  chained := hv.chained.map_write
  unique := hv.unique.map_write
  size := by rw [hv.size, List.length_map]

theorem Valid.erase (hv : Valid hash equal m next (l₁ ++ x :: l₂)) {next' : ℕ → Ptr}
    (hchained : Chained hash m.table m.capacity next' (l₁ ++ l₂)) :
    Valid hash equal { m with numOfElements := m.numOfElements - 1 } next' (l₁ ++ l₂) where
  capacity := hv.capacity
  chained := hchained
  unique := hv.unique.erase
  size := by
    change m.numOfElements - 1 = (l₁ ++ l₂).length
    rw [hv.size, List.length_append, List.length_cons, List.length_append, ← Nat.add_assoc,
      Nat.add_sub_cancel]

/-! ### Walks through the iterators -/

/-- The record at a place of the ring, with the one in front of it. -/
theorem exists_mem_nodes_after (head : ℕ) (l₁ l₂ : List (Item K V)) : ∃ val after,
    (HeapRing.head head (chain l₂), link val (HeapRing.last head (chain l₁)) after) ∈
      nodes head (l₁ ++ l₂) := by
  cases l₂ with
  | nil =>
    rw [List.append_nil]
    exact ⟨_, _, mem_nodes_head⟩
  | cons x l₂ => exact ⟨_, _, mem_nodes head l₁ l₂ x⟩

theorem wp_value {Q : Except Exception (K × V) → Heap (Node K V) → Prop} {before after : ℕ}
    (hs : Holds h [] (cells next S + F)) (hx : (x.1, link (some x.2) before after) ∈ S)
    (hne : x.1 ≠ head) (hQ : Q (.ok x.2) h) : wp (Iterator.value ⟨some x.1, head⟩) Q h := by
  have hne : some x.1 ≠ some head := fun heq => hne (Option.some.inj heq)
  rw [Iterator.value]
  dsimp only
  rw [if_neg hne, wp_bind]
  apply wp_entry hs hx
  rwa [wp_pure]

theorem wp_increment {Q : Except Exception Iterator → Heap (Node K V) → Prop} {a : ℕ}
    {b : Bare K V} (hs : Holds h [] (cells next S + F)) (ha : (a, b) ∈ S) (hne : a ≠ head)
    (hQ : Q (.ok ⟨b.after, head⟩) h) : wp (Iterator.increment ⟨some a, head⟩) Q h := by
  have hne : some a ≠ some head := fun heq => hne (Option.some.inj heq)
  rw [Iterator.increment]
  dsimp only
  rw [if_neg hne, wp_bind]
  apply HeapThread.wp_deref hs ha
  rwa [wp_pure]

theorem wp_decrement {Q : Except Exception Iterator → Heap (Node K V) → Prop} {a : ℕ}
    {b : Bare K V} (hs : Holds h [] (cells next (nodes head l + S) + F))
    (ha : (a, b) ∈ nodes head l + S) (hne : a ≠ HeapRing.head head (chain l))
    (hQ : Q (.ok ⟨b.before, head⟩) h) : wp (Iterator.decrement ⟨some a, head⟩) Q h := by
  have hne : some a ≠ some (HeapRing.head head (chain l)) := fun heq => hne (Option.some.inj heq)
  rw [Iterator.decrement, wp_bind]
  apply HeapThread.wp_deref hs (Multiset.mem_add.mpr (.inl mem_nodes_head))
  dsimp only [link, Bare.node]
  rw [if_neg hne, wp_bind]
  apply HeapThread.wp_deref hs ha
  rwa [wp_pure]

theorem wp_forwardFrom {Q : Answer K V → Heap (Node K V) → Prop} {s : List (K × V)}
    (hs : Holds h [] (cells next (nodes m.head (l₁ ++ l₂) + S) + F))
    (hQ : Q (.entries (s ++ l₂.map Prod.snd)) h) :
    wp (forwardFrom m ⟨some (HeapRing.head m.head (chain l₂)), m.head⟩ s) Q h := by
  induction l₂ generalizing l₁ s with
  | nil =>
    rw [List.map_nil, List.append_nil] at hQ
    have hend : (⟨some (HeapRing.head m.head (chain ([] : List (Item K V)))), m.head⟩ :
        Iterator).target = m.end'.target := rfl
    rwa [forwardFrom, if_pos hend, wp_pure]
  | cons x l₂ ih =>
    have hx : (x.1, link (some x.2) (HeapRing.last m.head (chain l₁))
        (HeapRing.head m.head (chain l₂))) ∈ nodes m.head (l₁ ++ x :: l₂) + S :=
      Multiset.mem_add.mpr (.inl (mem_nodes m.head l₁ l₂ x))
    have hne : x.1 ≠ m.head := ne_head hs (by simp)
    have hend : (⟨some (HeapRing.head m.head (chain (x :: l₂))), m.head⟩ : Iterator).target ≠
        m.end'.target := fun heq => hne (Option.some.inj heq)
    rw [forwardFrom, if_neg hend, wp_bind]
    apply wp_value hs hx hne
    dsimp only
    rw [wp_bind]
    apply wp_increment hs hx hne
    dsimp only [link]
    rw [List.append_cons] at hs
    rw [List.map_cons, List.append_cons] at hQ
    exact ih hs hQ

theorem wp_backwardFrom {Q : Answer K V → Heap (Node K V) → Prop} {s : List (K × V)}
    (hs : Holds h [] (cells next (nodes m.head (l₁ ++ l₂) + S) + F))
    (hQ : Q (.entries (s ++ (l₁.map Prod.snd).reverse)) h) :
    wp (backwardFrom m ⟨some (HeapRing.head m.head (chain l₂)), m.head⟩ s) Q h := by
  induction l₁ using List.reverseRecOn generalizing l₂ s with
  | nil =>
    rw [List.map_nil, List.reverse_nil, List.append_nil] at hQ
    rw [backwardFrom, begin']
    simp only [wp_bind, wp_pure]
    apply HeapThread.wp_deref hs (Multiset.mem_add.mpr (.inl mem_nodes_head))
    dsimp only [link, Bare.node, List.nil_append]
    rwa [if_pos rfl, wp_pure]
  | append_singleton l₁ x ih =>
    obtain ⟨val, after, hmem⟩ := exists_mem_nodes_after m.head (l₁ ++ [x]) l₂
    have hmem := Multiset.mem_add.mpr (.inl hmem : _ ∨ _ ∈ S)
    have hbegin : HeapRing.head m.head (chain l₂) ≠
        HeapRing.head m.head (chain (l₁ ++ [x] ++ l₂)) := by
      obtain ⟨y, l, hl⟩ := List.exists_cons_of_ne_nil (List.append_ne_nil_of_right_ne_nil l₁
        (List.cons_ne_nil x []))
      rw [hl] at hs ⊢
      exact head_ne_head hs
    have hx : (x.1, link (some x.2) (HeapRing.last m.head (chain l₁))
        (HeapRing.head m.head (chain l₂))) ∈ nodes m.head (l₁ ++ [x] ++ l₂) + S := by
      rw [← List.append_cons]
      exact Multiset.mem_add.mpr (.inl (mem_nodes m.head l₁ l₂ x))
    rw [backwardFrom, begin']
    simp only [wp_bind, wp_pure]
    apply HeapThread.wp_deref hs (Multiset.mem_add.mpr (.inl mem_nodes_head))
    dsimp only [link, Bare.node]
    rw [if_neg fun heq => hbegin (Option.some.inj heq), wp_bind]
    apply wp_decrement hs hmem hbegin
    dsimp only [link]
    rw [wp_bind, chain_append, chain_cons, HeapRing.last_append, HeapRing.last_cons, chain_nil,
      HeapRing.last_nil]
    apply wp_value hs hx (ne_head hs (by simp))
    dsimp only
    rw [← List.append_cons] at hs
    rw [List.map_append, List.reverse_append, List.map_singleton, List.reverse_singleton,
      ← List.append_assoc] at hQ
    have hrest : Holds h [] (cells next (nodes m.head (l₁ ++ (x :: l₂)) + S) + F) := hs
    exact ih hrest hQ

variable [Inhabited V]

/-- What holds after an operation on a map. -/
def Leaves (hash : K → ℕ) (equal : K → K → Bool) (F : Multiset (ℕ × Node K V))
    (l : List (Item K V)) (a : Action K V)
    (Q : LinkedHashmap L × Answer K V → Heap (Node K V) → Prop) : Prop :=
  ∀ m' next' l' h' r, Valid hash equal m' next' l' →
    a.on equal (l.map Prod.snd) = (l'.map Prod.snd, r) →
    Holds h' [] (cells next' (shape m' l') + F) → Q (m', r) h'

variable {Q : LinkedHashmap L × Answer K V → Heap (Node K V) → Prop}
  (hk : Hashes hash equal) (hs : Holds h [] (cells next (shape m l) + F))
  (hv : Valid hash equal m next l)

include hk hs hv

theorem wp_act_insert {value : K × V} (hQ : Leaves hash equal F l (.insert value) Q) :
    wp (act hash equal exceeds m (.insert value)) Q h := by
  simp only [act, insert, wp_bind, wp_pure]
  apply wp_put hk hs hv.capacity hv.chained
  · intro x hx hkey
    obtain ⟨before, after, hmem⟩ := listed_nodes m.head l x hx
    apply wp_entry hs (Multiset.mem_add.mpr (.inl hmem))
    refine hQ m next l h _ hv ?_ hs
    rw [Action.on, lookup_of_mem hk hv.unique hx hkey]
  · intro a m' next' h habsent hm hchained hs
    apply wp_entry hs (Multiset.mem_add.mpr (.inl (mem_nodes m'.head l [] (a, value))))
    refine hQ m' next' _ h _ (hv.put habsent hm hchained) ?_ hs
    rw [Action.on, lookup_of_absent habsent, List.map_append, List.map_singleton]

theorem wp_act_subscript (hQ : Leaves hash equal F l (.subscript key) Q) :
    wp (act hash equal exceeds m (.subscript key)) Q h := by
  simp only [act, subscript, wp_bind, wp_pure]
  apply wp_put hk hs hv.capacity hv.chained
  · intro x hx hkey
    obtain ⟨before, after, hmem⟩ := listed_nodes m.head l x hx
    apply wp_entry hs (Multiset.mem_add.mpr (.inl hmem))
    refine hQ m next l h _ hv ?_ hs
    rw [Action.on, lookup_of_mem hk hv.unique hx hkey]
  · intro a m' next' h habsent hm hchained hs
    apply wp_entry hs (Multiset.mem_add.mpr (.inl (mem_nodes m'.head l [] (a, key, default))))
    refine hQ m' next' _ h _ (hv.put habsent hm hchained) ?_ hs
    rw [Action.on, lookup_of_absent habsent, List.map_append, List.map_singleton]

theorem wp_act_write (hQ : Leaves hash equal F l (.write key v) Q) :
    wp (act hash equal exceeds m (.write key v)) Q h := by
  simp only [act, subscript, wp_bind, wp_pure]
  apply wp_put hk hs hv.capacity hv.chained
  · intro x hx hkey
    have hlookup := lookup_of_mem hk hv.unique hx hkey
    have hwrite := hv.write key v
    obtain ⟨l₁, l₂, rfl⟩ := List.append_of_mem hx
    apply wp_setSecond hs
    intro h hs
    rw [← map_write hkey (hv.unique.others hk hkey)] at hs
    refine hQ m next _ h _ hwrite ?_ hs
    rw [Action.on, hlookup, map_snd_write]
  · intro a m' next' h habsent hm hchained hs
    have hv := hv.put habsent hm hchained
    have hwrite := hv.write key v
    have hkey : equal key key = true := hk.equivalence.refl key
    have hwritten : (l ++ [(a, key, default)]).map (LinkedHashmap.write equal key v) =
        l ++ [(a, key, v)] := map_write hkey (by rwa [List.append_nil])
    apply wp_setSecond hs
    intro h hs
    rw [hwritten] at hwrite
    refine hQ m' next' _ h _ hwrite ?_ hs
    rw [Action.on, lookup_of_absent habsent, List.map_append, List.map_singleton]

omit [Inhabited V] in
theorem wp_find {Q : Iterator → Heap (Node K V) → Prop}
    (hfound : ∀ x ∈ l, equal x.2.1 key = true → Q ⟨some x.1, m.head⟩ h)
    (hnone : Absent equal key l → Q m.end' h) : wp (find hash equal m key) Q h := by
  simp only [find, wp_bind, wp_pure]
  apply wp_lookup hk hs hv.capacity hv.chained
  · intro x hx hkey
    rw [if_neg (Option.some_ne_none x.1)]
    exact hfound x hx hkey
  · intro hx
    rw [if_pos rfl]
    exact hnone hx

/-- `erase(find(key))`, which fails where the key is not there. -/
theorem wp_erase_find {Q : Except Exception (LinkedHashmap L) → Heap (Node K V) → Prop}
    (hdone : ∀ m' next' l' h', Valid hash equal m' next' l' →
      (Action.erase key).on equal (l.map Prod.snd) = (l'.map Prod.snd, .done) →
      Holds h' [] (cells next' (shape m' l') + F) → Q (.ok m') h')
    (hthrown : (Action.erase key).on equal (l.map Prod.snd) =
      (l.map Prod.snd, .thrown .invalid_iterator) → Q (.error .invalid_iterator) h) :
    wp (find hash equal m key) (fun pos => wp (erase hash m pos) Q) h := by
  apply wp_find hk hs hv
  · intro x hx hkey
    have hlookup := lookup_of_mem hk hv.unique hx hkey
    obtain ⟨l₁, l₂, rfl⟩ := List.append_of_mem hx
    have hothers := hv.unique.others hk hkey
    apply wp_erase hs hv.capacity hv.chained
    intro next' h hchained hs
    refine hdone _ next' _ h (hv.erase hchained) ?_ hs
    rw [Action.on, hlookup, filter_snd hkey hothers]
  · intro habsent
    rw [erase, end', if_pos (.inl rfl), wp_pure]
    apply hthrown
    rw [Action.on, lookup_of_absent habsent]

theorem wp_act_erase (hQ : Leaves hash equal F l (.erase key) Q) :
    wp (act hash equal exceeds m (.erase key)) Q h := by
  simp only [act, wp_bind]
  apply wp_erase_find hk hs hv
  · intro m' next' l' h' hv' hon hs'
    dsimp only
    rw [wp_pure]
    exact hQ m' next' l' h' .done hv' hon hs'
  · intro hon
    dsimp only
    rw [wp_pure]
    exact hQ m next l h _ hv hon hs

theorem wp_act_find (hQ : Leaves hash equal F l (.find key) Q) :
    wp (act hash equal exceeds m (.find key)) Q h := by
  simp only [act, wp_bind]
  apply wp_find hk hs hv
  · intro x hx hkey
    obtain ⟨before, after, hmem⟩ := listed_nodes m.head l x hx
    have hne : (⟨some x.1, m.head⟩ : Iterator).target ≠ m.end'.target := fun heq =>
      ne_head hs hx (Option.some.inj heq)
    rw [if_neg hne, wp_bind]
    apply wp_entry hs (Multiset.mem_add.mpr (.inl hmem))
    rw [wp_pure]
    refine hQ m next l h _ hv ?_ hs
    rw [Action.on, lookup_of_mem hk hv.unique hx hkey]
  · intro habsent
    rw [if_pos rfl, wp_pure]
    refine hQ m next l h _ hv ?_ hs
    rw [Action.on, lookup_of_absent habsent]

theorem wp_act_at (hQ : Leaves hash equal F l (.at' key) Q) :
    wp (act hash equal exceeds m (.at' key)) Q h := by
  simp only [act, at', wp_bind]
  apply wp_lookup hk hs hv.capacity hv.chained
  · intro x hx hkey
    obtain ⟨before, after, hmem⟩ := listed_nodes m.head l x hx
    rw [if_neg (Option.some_ne_none x.1), wp_bind]
    apply wp_entry hs (Multiset.mem_add.mpr (.inl hmem))
    rw [wp_pure]
    dsimp only
    rw [wp_pure]
    refine hQ m next l h _ hv ?_ hs
    rw [Action.on, lookup_of_mem hk hv.unique hx hkey]
  · intro habsent
    rw [if_pos rfl, wp_pure]
    dsimp only
    rw [wp_pure]
    refine hQ m next l h _ hv ?_ hs
    rw [Action.on, lookup_of_absent habsent]

theorem wp_act_count (hQ : Leaves hash equal F l (.count key) Q) :
    wp (act hash equal exceeds m (.count key)) Q h := by
  simp only [act, count, wp_bind, wp_pure]
  apply wp_lookup hk hs hv.capacity hv.chained
  · intro x hx hkey
    rw [if_neg (Option.some_ne_none x.1)]
    refine hQ m next l h _ hv ?_ hs
    rw [Action.on, lookup_of_mem hk hv.unique hx hkey]
    rfl
  · intro habsent
    rw [if_pos rfl]
    refine hQ m next l h _ hv ?_ hs
    rw [Action.on, lookup_of_absent habsent]
    rfl

theorem wp_act {a : Action K V} (hQ : Leaves hash equal F l a Q) :
    wp (act hash equal exceeds m a) Q h := by
  cases a with
  | clear =>
    simp only [act, wp_bind, wp_pure]
    apply wp_clear hs hv.size hv.chained
    intro next' h hchained hs
    exact hQ _ next' [] h .done ⟨hv.capacity, hchained, .nil, rfl⟩ rfl hs
  | insert value => exact wp_act_insert hk hs hv hQ
  | subscript key => exact wp_act_subscript hk hs hv hQ
  | write key v => exact wp_act_write hk hs hv hQ
  | erase key => exact wp_act_erase hk hs hv hQ
  | find key => exact wp_act_find hk hs hv hQ
  | at' key => exact wp_act_at hk hs hv hQ
  | count key => exact wp_act_count hk hs hv hQ
  | size =>
    rw [act, wp_pure]
    refine hQ m next l h _ hv ?_ hs
    rw [Action.on, size, hv.size, List.length_map]
  | empty =>
    rw [act, wp_pure]
    refine hQ m next l h _ hv ?_ hs
    have hempty : (l.map Prod.snd).isEmpty = m.empty := by
      rw [empty, hv.size, Bool.eq_iff_iff, decide_eq_true_iff, List.isEmpty_iff,
        List.length_eq_zero_iff, List.map_eq_nil_iff]
    rw [Action.on, hempty]
  | forward =>
    simp only [act, begin', wp_bind, wp_pure]
    apply HeapThread.wp_deref hs (Multiset.mem_add.mpr (.inl mem_nodes_head))
    dsimp only [link, Bare.node]
    have hs' : Holds h [] (cells next (nodes m.head ([] ++ l) + _) + F) := hs
    exact wp_forwardFrom hs' (hQ m next l h _ hv rfl hs)
  | backward =>
    simp only [act, wp_bind, wp_pure]
    have hs' : Holds h [] (cells next (nodes m.head (l ++ []) +
        buckets K V m.table m.capacity) + F) := by rwa [List.append_nil]
    exact wp_backwardFrom hs' (hQ m next l h _ hv rfl hs)

end Steps

end Course.Stl.LinkedHashmap
