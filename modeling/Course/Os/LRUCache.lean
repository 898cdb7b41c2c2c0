import Course.Lib.Ring

/-! The LRU cache of Project 8: a doubly linked ring around a head node, least
recently used data first. -/

open Course.Lib

namespace Course.Os

structure LRUCacheNode (δ : Type) where
  data : Option δ
  prev : ℕ
  next : ℕ

/-- The cache with the nodes `malloc` has handed out so far, `fresh` being the
next address it returns.  `data_equal` reads through the data pointers, so the
operations take it as an argument, already applied to the key. -/
structure LRUCache (δ : Type) where
  nodes : ℕ → LRUCacheNode δ
  fresh : ℕ
  head : ℕ
  size : ℕ
  capacity : ℕ

namespace LRUCache

variable {δ : Type} {c : LRUCache δ} {p : δ → Bool} {d : δ} {ds : List δ}

def data (c : LRUCache δ) (x : ℕ) : Option δ := (c.nodes x).data

def prev (c : LRUCache δ) (x : ℕ) : ℕ := (c.nodes x).prev

def next (c : LRUCache δ) (x : ℕ) : ℕ := (c.nodes x).next

def setPrev (c : LRUCache δ) (x y : ℕ) : LRUCache δ :=
  { c with nodes := Function.update c.nodes x { c.nodes x with prev := y } }

def setNext (c : LRUCache δ) (x y : ℕ) : LRUCache δ :=
  { c with nodes := Function.update c.nodes x { c.nodes x with next := y } }

def create (capacity : ℕ) : LRUCache δ where
  nodes := fun _ => { data := none, prev := 0, next := 0 }
  fresh := 1
  head := 0
  size := 0
  capacity := capacity

def full (c : LRUCache δ) : Bool := c.size = c.capacity

def empty (c : LRUCache δ) : Bool := c.size = 0

/-- The scan both `query` and `remove` start with. -/
def find (c : LRUCache δ) (isKey : δ → Bool) : Option (Option ℕ) :=
  findFrom c.next c.head (fun x => (c.data x).any isKey) c.fresh (c.next c.head)

def unlink (c : LRUCache δ) (node : ℕ) : LRUCache δ :=
  let c := c.setNext (c.prev node) (c.next node)
  c.setPrev (c.next node) (c.prev node)

/-- Puts `node` before the head, in the most recently used place. -/
def linkBack (c : LRUCache δ) (node : ℕ) : LRUCache δ :=
  let c := c.setPrev node (c.prev c.head)
  let c := c.setNext node c.head
  let c := c.setNext (c.prev c.head) node
  c.setPrev c.head node

def query (c : LRUCache δ) (isKey : δ → Bool) : Option (LRUCache δ × Option δ) := do
  match ← c.find isKey with
  | none => some (c, none)
  | some node =>
    let c := (c.unlink node).linkBack node
    some (c, c.data node)

/-- Makes room in a full cache.  With capacity 0 the freed node would be the
head, which is used again. -/
def evict (c : LRUCache δ) : Option (LRUCache δ × Option δ) :=
  let node := c.next c.head
  if node = c.head then none
  else
    let c := c.setNext c.head (c.next node)
    let c := c.setPrev (c.next node) c.head
    some ({ c with size := c.size - 1 }, c.data node)

def malloc (c : LRUCache δ) (data : δ) : LRUCache δ :=
  { c with
    nodes := Function.update c.nodes c.fresh
      { data := some data, prev := c.prev c.fresh, next := c.next c.fresh }
    fresh := c.fresh + 1 }

def insert (c : LRUCache δ) (data_equal : δ → δ → Bool) (data : δ) :
    Option (LRUCache δ × Option δ) := do
  let (c, query_data) ← c.query fun x => data_equal x data
  if query_data.isSome then some (c, none)
  else
    let (c, removed_data) ← if c.full then c.evict else some (c, none)
    let node := c.fresh
    let c := (c.malloc data).linkBack node
    some ({ c with size := c.size + 1 }, removed_data)

def leastRecentlyUsed (c : LRUCache δ) : Option δ :=
  if c.empty then none else c.data (c.next c.head)

def remove (c : LRUCache δ) (isKey : δ → Bool) : Option (LRUCache δ × Option δ) := do
  match ← c.find isKey with
  | none => some (c, none)
  | some node =>
    let c := c.unlink node
    some ({ c with size := c.size - 1 }, c.data node)

def clear (c : LRUCache δ) : Option (LRUCache δ) := do
  -- the loop that frees the nodes, up to the head
  let _ ← findFrom c.next c.head (fun _ => false) c.fresh (c.next c.head)
  let c := c.setNext c.head c.head
  let c := c.setPrev c.head c.head
  some { c with size := 0 }

/-! ### The links after each assignment -/

@[simp] theorem next_setNext (c : LRUCache δ) (x y : ℕ) :
    (c.setNext x y).next = Function.update c.next x y := by
  funext z
  by_cases h : z = x <;> simp [next, setNext, h]

@[simp] theorem prev_setNext (c : LRUCache δ) (x y : ℕ) : (c.setNext x y).prev = c.prev := by
  funext z
  by_cases h : z = x <;> simp [prev, setNext, h]

@[simp] theorem data_setNext (c : LRUCache δ) (x y : ℕ) : (c.setNext x y).data = c.data := by
  funext z
  by_cases h : z = x <;> simp [data, setNext, h]

@[simp] theorem next_setPrev (c : LRUCache δ) (x y : ℕ) : (c.setPrev x y).next = c.next := by
  funext z
  by_cases h : z = x <;> simp [next, setPrev, h]

@[simp] theorem prev_setPrev (c : LRUCache δ) (x y : ℕ) :
    (c.setPrev x y).prev = Function.update c.prev x y := by
  funext z
  by_cases h : z = x <;> simp [prev, setPrev, h]

@[simp] theorem data_setPrev (c : LRUCache δ) (x y : ℕ) : (c.setPrev x y).data = c.data := by
  funext z
  by_cases h : z = x <;> simp [data, setPrev, h]

@[simp] theorem fields_setNext (c : LRUCache δ) (x y : ℕ) :
    (c.setNext x y).fresh = c.fresh ∧ (c.setNext x y).head = c.head ∧
      (c.setNext x y).size = c.size ∧ (c.setNext x y).capacity = c.capacity := ⟨rfl, rfl, rfl, rfl⟩

@[simp] theorem fields_setPrev (c : LRUCache δ) (x y : ℕ) :
    (c.setPrev x y).fresh = c.fresh ∧ (c.setPrev x y).head = c.head ∧
      (c.setPrev x y).size = c.size ∧ (c.setPrev x y).capacity = c.capacity := ⟨rfl, rfl, rfl, rfl⟩

@[simp] theorem next_malloc (c : LRUCache δ) (d : δ) : (c.malloc d).next = c.next := by
  funext z
  by_cases h : z = c.fresh <;> simp [next, malloc, h]

@[simp] theorem prev_malloc (c : LRUCache δ) (d : δ) : (c.malloc d).prev = c.prev := by
  funext z
  by_cases h : z = c.fresh <;> simp [prev, malloc, h]

@[simp] theorem data_malloc (c : LRUCache δ) (d : δ) :
    (c.malloc d).data = Function.update c.data c.fresh (some d) := by
  funext z
  by_cases h : z = c.fresh <;> simp [data, malloc, h]

@[simp] theorem fields_malloc (c : LRUCache δ) (d : δ) :
    (c.malloc d).fresh = c.fresh + 1 ∧ (c.malloc d).head = c.head ∧
      (c.malloc d).size = c.size ∧ (c.malloc d).capacity = c.capacity := ⟨rfl, rfl, rfl, rfl⟩

/-! ### Contents -/

/-- The ring runs through the nodes `l`, which hold `ds`. -/
structure Nodes (c : LRUCache δ) (l : List ℕ) (ds : List δ) : Prop where
  ring : IsRing c.next c.prev c.head l
  data : l.map c.data = ds.map some
  fresh : ∀ x ∈ c.head :: l, x < c.fresh

/-- The data of the cache, least recently used first. -/
structure Holds (c : LRUCache δ) (ds : List δ) : Prop where
  nodes : ∃ l, c.Nodes l ds
  size : c.size = ds.length

/-- What a query leaves behind. -/
def touch (isKey : δ → Bool) (ds : List δ) : List δ := ds.eraseP isKey ++ (ds.find? isKey).toList

theorem holds_create (capacity : ℕ) : (create capacity : LRUCache δ).Holds [] :=
  ⟨⟨[], ⟨⟨rfl, rfl⟩, by simp⟩, rfl, by simp [create]⟩, rfl⟩

theorem Nodes.find_none (h : c.Nodes l ds) (hp : ∀ d ∈ ds, ¬p d) : c.find p = some none := by
  rw [find, h.ring.linked.findFrom_eq h.ring.notMem
    (length_lt_of_nodup h.ring.nodup h.fresh)]
  have hnone : l.find? (fun x => (c.data x).any p) = none := by
    rw [List.find?_eq_none]
    intro x hx
    obtain ⟨d, hd, hxd⟩ := List.mem_map.mp (h.data ▸ List.mem_map_of_mem hx)
    simpa [← hxd] using hp d hd
  rw [hnone]

/-- Where `find` stops, with the ring and the data cut at that node. -/
theorem Nodes.find_some (h : c.Nodes l (ds₁ ++ d :: ds₂)) (hp : ∀ d ∈ ds₁, ¬p d) (hd : p d) :
    ∃ l₁ x l₂, l = l₁ ++ x :: l₂ ∧ l₁.map c.data = ds₁.map some ∧ c.data x = some d ∧
      l₂.map c.data = ds₂.map some ∧ c.find p = some (some x) := by
  obtain ⟨l₁, l', rfl, h₁, h'⟩ := List.map_eq_append_iff.mp (h.data.trans List.map_append)
  obtain ⟨x, l₂, rfl, hx, h₂⟩ := List.map_eq_cons_iff.mp h'
  refine ⟨l₁, x, l₂, rfl, h₁, hx, h₂, ?_⟩
  rw [find, h.ring.linked.findFrom_eq h.ring.notMem
    (length_lt_of_nodup h.ring.nodup h.fresh), List.find?_append]
  have hnone : l₁.find? (fun x => (c.data x).any p) = none := by
    rw [List.find?_eq_none]
    intro y hy
    obtain ⟨e, he, hye⟩ := List.mem_map.mp (h₁ ▸ List.mem_map_of_mem hy)
    simpa [← hye] using hp e he
  simp [hnone, hx, hd]

theorem Nodes.unlink (h : c.Nodes (l₁ ++ x :: l₂) ds) (h₁ : l₁.map c.data = ds₁.map some)
    (h₂ : l₂.map c.data = ds₂.map some) : (c.unlink x).Nodes (l₁ ++ l₂) (ds₁ ++ ds₂) := by
  refine ⟨?_, by simp [LRUCache.unlink, h₁, h₂], ?_⟩
  · have hring := h.ring.unlink
    simpa [LRUCache.unlink, Function.update_apply] using hring
  · intro y hy
    refine h.fresh y ?_
    simp only [LRUCache.unlink, fields_setPrev, fields_setNext, List.mem_cons,
      List.mem_append] at hy ⊢
    tauto

theorem Nodes.linkBack (h : c.Nodes l ds) (hx : x ∉ c.head :: l) (hd : c.data x = some d)
    (hfresh : x < c.fresh) : (c.linkBack x).Nodes (l ++ [x]) (ds ++ [d]) := by
  have hxh : c.head ≠ x := fun e => hx (by simp [e])
  have hlast : c.next (c.prev c.head) = c.head := by
    have hring := h.ring
    obtain rfl | ⟨l', y, rfl⟩ := List.eq_nil_or_concat' l
    · rw [hring.linked.2, hring.linked.1]
    · obtain ⟨-, hy⟩ := Linked.append_iff.mp hring.linked
      rw [hy.2, hy.1]
  refine ⟨?_, by simp [LRUCache.linkBack, h.data, hd], ?_⟩
  · have hring := h.ring
    rw [← List.append_nil l] at hring
    have hlink := hring.link (by simpa using hx) (h.ring.prev_eq)
    simpa [LRUCache.linkBack, Function.update_of_ne hxh, hlast] using hlink
  · intro y hy
    simp only [LRUCache.linkBack, fields_setPrev, fields_setNext, List.mem_cons, List.mem_append,
      List.not_mem_nil, or_false] at hy ⊢
    obtain hy | hy | rfl := hy
    · exact h.fresh y (by simp [hy])
    · exact h.fresh y (by simp [hy])
    · exact hfresh

theorem Nodes.malloc (h : c.Nodes l ds) (d : δ) : (c.malloc d).Nodes l ds := by
  refine ⟨by simpa using h.ring, ?_, fun x hx => ?_⟩
  · rw [← h.data]
    refine List.map_congr_left fun x hx => ?_
    have hne : x ≠ c.fresh := Nat.ne_of_lt (h.fresh x (by simp [hx]))
    simp [hne]
  · exact Nat.lt_succ_of_lt (h.fresh x hx)

theorem touch_of_none (hp : ∀ d ∈ ds, ¬p d) : touch p ds = ds := by
  have hnone : ds.find? p = none := List.find?_eq_none.mpr hp
  simp [touch, hnone, List.eraseP_of_forall_not hp]

theorem find?_split (hp : ∀ d ∈ ds₁, ¬p d) (hd : p d) :
    (ds₁ ++ d :: ds₂).find? p = some d := by
  have hnone : ds₁.find? p = none := List.find?_eq_none.mpr hp
  simp [List.find?_append, hnone, hd]

theorem eraseP_split (hp : ∀ d ∈ ds₁, ¬p d) (hd : p d) :
    (ds₁ ++ d :: ds₂).eraseP p = ds₁ ++ ds₂ := by
  rw [List.eraseP_append_right _ hp, List.eraseP_cons_of_pos hd]

/-- Either no datum satisfies `p`, or the first one that does cuts the list. -/
theorem forall_not_or_split (p : δ → Bool) (ds : List δ) :
    (∀ d ∈ ds, ¬p d) ∨ ∃ ds₁ d ds₂, ds = ds₁ ++ d :: ds₂ ∧ (∀ e ∈ ds₁, ¬p e) ∧ p d := by
  cases hfind : ds.find? p with
  | none => exact .inl (List.find?_eq_none.mp hfind)
  | some d =>
    obtain ⟨hd, ds₁, ds₂, rfl, hp⟩ := List.find?_eq_some_iff_append.mp hfind
    exact .inr ⟨ds₁, d, ds₂, rfl, fun e he => by simpa using hp e he, hd⟩

theorem touch_perm (p : δ → Bool) (ds : List δ) : (touch p ds).Perm ds := by
  obtain hp | ⟨ds₁, d, ds₂, rfl, hp, hd⟩ := forall_not_or_split p ds
  · rw [touch_of_none hp]
  · rw [touch, eraseP_split hp hd, find?_split hp hd]
    have hswap : (ds₂ ++ [d]).Perm ([d] ++ ds₂) := List.perm_append_comm
    simpa using hswap.append_left ds₁

/-- A key that only one of the data has picks that datum. -/
theorem eraseP_eq_erase [DecidableEq δ] (hp : ∀ e ∈ ds, p e = true ↔ e = d) :
    ds.eraseP p = ds.erase d := by
  induction ds with
  | nil => rfl
  | cons e ds ih =>
    have hrec := ih fun f hf => hp f (List.mem_cons_of_mem e hf)
    by_cases he : e = d
    · have hpd : p d := he ▸ (hp e (by simp)).mpr he
      simp [he, hpd]
    · have hne : ¬p e := fun h => he ((hp e (by simp)).mp h)
      simp [he, hne, hrec]

theorem Holds.query (h : c.Holds ds) (p : δ → Bool) :
    ∃ c', c.query p = some (c', ds.find? p) ∧ c'.Holds (touch p ds) ∧ c'.capacity = c.capacity := by
  obtain ⟨⟨l, hl⟩, hsize⟩ := h
  obtain hp | ⟨ds₁, d, ds₂, rfl, hp, hd⟩ := forall_not_or_split p ds
  · refine ⟨c, ?_, ?_, rfl⟩
    · simp [LRUCache.query, hl.find_none hp, List.find?_eq_none.mpr hp]
    · rw [touch_of_none hp]
      exact ⟨⟨l, hl⟩, hsize⟩
  · obtain ⟨l₁, x, l₂, rfl, h₁, hx, h₂, hfind⟩ := hl.find_some hp hd
    have hunlink := hl.unlink h₁ h₂
    have hnotMem : x ∉ c.head :: (l₁ ++ l₂) := by
      have hnodup : (x :: (c.head :: l₁ ++ l₂)).Nodup :=
        List.perm_middle.nodup_iff.mp hl.ring.nodup
      simpa using (List.nodup_cons.mp hnodup).1
    have hlink := hunlink.linkBack (x := x) (d := d) hnotMem (by simpa [unlink] using hx)
      (hl.fresh x (by simp))
    refine ⟨(c.unlink x).linkBack x, ?_, ⟨⟨l₁ ++ l₂ ++ [x], ?_⟩, ?_⟩, rfl⟩
    · simp [LRUCache.query, hfind, find?_split hp hd, LRUCache.linkBack, unlink, hx]
    · rw [touch, eraseP_split hp hd, find?_split hp hd]
      exact hlink
    · rw [touch, eraseP_split hp hd, find?_split hp hd]
      simpa [LRUCache.linkBack, unlink, Nat.add_assoc] using hsize

theorem Holds.remove (h : c.Holds ds) (p : δ → Bool) :
    ∃ c', c.remove p = some (c', ds.find? p) ∧ c'.Holds (ds.eraseP p) ∧
      c'.capacity = c.capacity := by
  obtain ⟨⟨l, hl⟩, hsize⟩ := h
  obtain hp | ⟨ds₁, d, ds₂, rfl, hp, hd⟩ := forall_not_or_split p ds
  · refine ⟨c, ?_, ?_, rfl⟩
    · simp [LRUCache.remove, hl.find_none hp, List.find?_eq_none.mpr hp]
    · rw [List.eraseP_of_forall_not hp]
      exact ⟨⟨l, hl⟩, hsize⟩
  · obtain ⟨l₁, x, l₂, rfl, h₁, hx, h₂, hfind⟩ := hl.find_some hp hd
    have hunlink := hl.unlink h₁ h₂
    refine ⟨{ c.unlink x with size := c.size - 1 }, ?_, ⟨⟨l₁ ++ l₂, ?_⟩, ?_⟩, rfl⟩
    · simp [LRUCache.remove, hfind, find?_split hp hd, unlink, hx]
    · rw [eraseP_split hp hd]
      exact ⟨hunlink.ring, hunlink.data, hunlink.fresh⟩
    · rw [eraseP_split hp hd, hsize]
      simp only [List.length_append, List.length_cons]
      omega

theorem Holds.leastRecentlyUsed (h : c.Holds ds) : c.leastRecentlyUsed = ds.head? := by
  obtain ⟨⟨l, hl⟩, hsize⟩ := h
  cases ds with
  | nil => simp [LRUCache.leastRecentlyUsed, empty, hsize]
  | cons d ds =>
    obtain ⟨x, l, rfl, hx, -⟩ := List.map_eq_cons_iff.mp hl.data
    simp [LRUCache.leastRecentlyUsed, empty, hsize, hl.ring.next_eq, hx]

theorem Holds.evict (h : c.Holds (d :: ds)) :
    ∃ c', c.evict = some (c', some d) ∧ c'.Holds ds ∧ c'.capacity = c.capacity := by
  obtain ⟨⟨l, hl⟩, hsize⟩ := h
  obtain ⟨x, l, rfl, hx, hds⟩ := List.map_eq_cons_iff.mp hl.data
  have hnext : c.next c.head = x := hl.ring.next_eq
  have hprev : c.prev x = c.head := hl.ring.linked.2.1
  have hne : x ≠ c.head := fun e => hl.ring.notMem (by simp [e])
  have hunlink : (c.unlink x).Nodes ([] ++ l) ([] ++ ds) := Nodes.unlink hl rfl hds
  refine ⟨{ c.unlink x with size := c.size - 1 }, ?_, ⟨⟨l, ?_⟩, by simp [hsize]⟩, rfl⟩
  · simp [LRUCache.evict, unlink, hnext, hprev, hne, hx]
  · exact ⟨hunlink.ring, hunlink.data, hunlink.fresh⟩

theorem Holds.insert_found (h : c.Holds ds) (data_equal : δ → δ → Bool)
    (hd : ∃ e ∈ ds, data_equal e d) :
    ∃ c', c.insert data_equal d = some (c', none) ∧ c'.Holds (touch (data_equal · d) ds) ∧
      c'.capacity = c.capacity := by
  obtain ⟨c', hquery, hc'⟩ := h.query (data_equal · d)
  have hfind : (ds.find? (data_equal · d)).isSome := by simpa using hd
  exact ⟨c', by simp [LRUCache.insert, hquery, hfind], hc'⟩

/-- The second half of an insertion, with room for the new node. -/
theorem Holds.append (h : c.Holds ds) (d : δ) :
    { (c.malloc d).linkBack c.fresh with size := c.size + 1 }.Holds (ds ++ [d]) := by
  obtain ⟨⟨l, hl⟩, hsize⟩ := h
  have hnotMem : c.fresh ∉ c.head :: l := fun hmem => Nat.lt_irrefl _ (hl.fresh _ hmem)
  have hlink := (hl.malloc d).linkBack (x := c.fresh) (d := d) hnotMem (by simp) (by simp)
  exact ⟨⟨_, hlink.ring, hlink.data, hlink.fresh⟩, by simp [hsize]⟩

theorem Holds.insert_room (h : c.Holds ds) (data_equal : δ → δ → Bool)
    (hd : ∀ e ∈ ds, ¬data_equal e d) (hroom : ds.length ≠ c.capacity) :
    ∃ c', c.insert data_equal d = some (c', none) ∧ c'.Holds (ds ++ [d]) ∧
      c'.capacity = c.capacity := by
  obtain ⟨c', hquery, hc', hcap⟩ := h.query (data_equal · d)
  rw [touch_of_none hd] at hc'
  have hnone : ds.find? (data_equal · d) = none := List.find?_eq_none.mpr hd
  have hfull : c'.full = false := by simpa [full, hc'.size, hcap] using hroom
  refine ⟨_, ?_, hc'.append d, hcap⟩
  simp [LRUCache.insert, hquery, hnone, hfull, linkBack]

theorem Holds.insert_full (h : c.Holds (e :: ds)) (data_equal : δ → δ → Bool)
    (hd : ∀ f ∈ e :: ds, ¬data_equal f d) (hfull : (e :: ds).length = c.capacity) :
    ∃ c', c.insert data_equal d = some (c', some e) ∧ c'.Holds (ds ++ [d]) ∧
      c'.capacity = c.capacity := by
  obtain ⟨c₁, hquery, hc₁, hcap₁⟩ := h.query (data_equal · d)
  rw [touch_of_none hd] at hc₁
  have hnone : (e :: ds).find? (data_equal · d) = none := List.find?_eq_none.mpr hd
  have hfull₁ : c₁.full = true := by simpa [full, hc₁.size, hcap₁] using hfull
  obtain ⟨c₂, hevict, hc₂, hcap₂⟩ := hc₁.evict
  refine ⟨_, ?_, hc₂.append d, hcap₂.trans hcap₁⟩
  simp [LRUCache.insert, hquery, hnone, hfull₁, hevict, linkBack]

theorem Holds.clear (h : c.Holds ds) :
    ∃ c', c.clear = some c' ∧ c'.Holds [] ∧ c'.capacity = c.capacity := by
  obtain ⟨⟨l, hl⟩, -⟩ := h
  have hfind := hl.ring.linked.findFrom_eq (p := fun _ => false) hl.ring.notMem
    (length_lt_of_nodup hl.ring.nodup hl.fresh)
  let c₁ := (c.setNext c.head c.head).setPrev c.head c.head
  have hring : IsRing c₁.next c₁.prev c₁.head [] := by
    refine ⟨⟨?_, ?_⟩, by simp⟩
    · simp [c₁]
    · simp [c₁]
  refine ⟨{ c₁ with size := 0 }, ?_, ⟨⟨[], hring, rfl, ?_⟩, rfl⟩, rfl⟩
  · simp only [LRUCache.clear, hfind, Option.bind_eq_bind, Option.bind_some]
    rfl
  · intro x hx
    obtain rfl := List.mem_singleton.mp hx
    exact hl.fresh c.head (by simp)

/-- The most recently used data is in front of the head. -/
theorem Holds.data_prev (h : c.Holds (ds ++ [d])) : c.data (c.prev c.head) = some d := by
  obtain ⟨⟨l, hl⟩, -⟩ := h
  obtain ⟨l₁, l₂, rfl, -, h₂⟩ := List.map_eq_append_iff.mp (hl.data.trans List.map_append)
  obtain ⟨x, l₃, rfl, hx, h₃⟩ := List.map_eq_cons_iff.mp h₂
  obtain rfl : l₃ = [] := List.map_eq_nil_iff.mp h₃
  have hlast : c.prev c.head = x := by
    rw [hl.ring.linked.prev_eq]
    simp
  rw [hlast, hx]

end LRUCache

end Course.Os
