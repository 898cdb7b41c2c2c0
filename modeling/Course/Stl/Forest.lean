import Course.Lib.StrictWeak
import Course.Stl.PriorityQueue
import Mathlib.Tactic.Abel

/-! The lists of trees of a priority queue, and what the queue's loops do to them
apart from the memory they are kept in. -/

open Course.Lib Heap

namespace Course.Stl.PriorityQueue

/-- A list of trees: the first one, with its address and its children, and the others. -/
inductive Forest (T : Type)
  | nil
  | node (a : ℕ) (key : T) (degree : ℕ) (child next : Forest T)

namespace Forest

variable {T : Type} {cmp : T → T → Bool}

def ptr : Forest T → Ptr
  | nil => none
  | node a .. => some a

@[simp] theorem ptr_nil : ptr (T := T) nil = none := rfl

@[simp] theorem ptr_node (a : ℕ) (key : T) (degree : ℕ) (child next : Forest T) :
    (node a key degree child next).ptr = some a := rfl

/-- The nodes in memory. -/
def cells : Forest T → Multiset (ℕ × Node T)
  | nil => 0
  | node a key degree child next =>
    {(a, ⟨key, degree, child.ptr, next.ptr⟩)} + (child.cells + next.cells)

def keys : Forest T → Multiset T
  | nil => 0
  | node _ key _ child next => key ::ₘ (child.keys + next.keys)

@[simp] theorem cells_nil : cells (T := T) nil = 0 := rfl

@[simp] theorem keys_nil : keys (T := T) nil = 0 := rfl

/-- No child exceeds its parent. -/
def Ordered (cmp : T → T → Bool) : Forest T → Prop
  | nil => True
  | node _ key _ child next => Tops cmp key child.keys ∧ child.Ordered cmp ∧ next.Ordered cmp

/-- The number of trees. -/
def width : Forest T → ℕ
  | nil => 0
  | node _ _ _ _ next => next.width + 1

/-! ### Linking -/

def link : Forest T → Forest T → Forest T
  | nil, y => y
  | x, nil => x
  | node a k d c n, node a' k' d' c' n' =>
    if d ≤ d' then node a k d c (link n (node a' k' d' c' n'))
    else node a' k' d' c' (link (node a k d c n) n')

@[simp] theorem link_nil_left (y : Forest T) : link nil y = y := by
  rw [link]

@[simp] theorem link_nil_right (x : Forest T) : link x nil = x := by
  cases x with
  | nil => rw [link]
  | node a k d c n =>
    rw [link]
    exact fun h => Forest.noConfusion rfl (heq_of_eq h)

theorem keys_link (x y : Forest T) : (link x y).keys = x.keys + y.keys := by
  fun_induction link x y with
  | case1 y => simp [keys]
  | case2 x => simp [keys]
  | case3 a k d c n a' k' d' c' n' h ih => simp only [keys, ih, Multiset.cons_add, add_assoc]
  | case4 a k d c n a' k' d' c' n' h ih =>
    simp only [keys, ih, ← Multiset.singleton_add]
    abel

theorem Ordered.link {x y : Forest T} (hx : x.Ordered cmp) (hy : y.Ordered cmp) :
    (link x y).Ordered cmp := by
  fun_induction Forest.link x y with
  | case1 y => exact hy
  | case2 x => exact hx
  | case3 a k d c n a' k' d' c' n' h ih => exact ⟨hx.1, hx.2.1, ih hx.2.2 hy⟩
  | case4 a k d c n a' k' d' c' n' h ih => exact ⟨hy.1, hy.2.1, ih hx hy.2.2⟩

/-! ### Merging trees of one degree -/

/-- Two trees made one, which is followed by `n`. -/
def join (cmp : T → T → Bool) (a : ℕ) (k : T) (d : ℕ) (c : Forest T) (a' : ℕ) (k' : T) (d' : ℕ)
    (c' n : Forest T) : Forest T :=
  if cmp k k' then node a' k' (d' + 1) (node a k d c c') n
  else node a k (d + 1) (node a' k' d' c' c) n

section Join

variable (a : ℕ) (k : T) (d : ℕ) (c : Forest T) (a' : ℕ) (k' : T) (d' : ℕ) (c' n : Forest T)

theorem width_join : (join cmp a k d c a' k' d' c' n).width = n.width + 1 := by
  unfold join
  split <;> rfl

theorem keys_join : (join cmp a k d c a' k' d' c' n).keys =
    k ::ₘ (c.keys + (k' ::ₘ (c'.keys + n.keys))) := by
  unfold join
  split
  all_goals
    simp only [keys, ← Multiset.singleton_add]
    abel

theorem Ordered.join (hcmp : StrictWeak cmp)
    (h : (node a k d c (node a' k' d' c' n)).Ordered cmp) (m : Forest T) (hm : m.Ordered cmp) :
    (Forest.join cmp a k d c a' k' d' c' m).Ordered cmp := by
  obtain ⟨hk, hc, hk', hc', -⟩ := h
  unfold Forest.join
  split
  next hlt =>
    refine ⟨?_, ⟨hk, hc, hc'⟩, hm⟩
    simp only [keys, Tops.cons_iff, Tops.add_iff]
    exact ⟨hcmp.asymm hlt, hk.trans hcmp (hcmp.asymm hlt), hk'⟩
  next hge =>
    refine ⟨?_, ⟨hk', hc', hc⟩, hm⟩
    simp only [keys, Tops.cons_iff, Tops.add_iff]
    have hge := Bool.eq_false_iff.mpr hge
    exact ⟨hge, hk'.trans hcmp hge, hk⟩

end Join

def mergeFront (cmp : T → T → Bool) : Forest T → Forest T
  | node a k d c (node a' k' d' c' n) =>
    if d = d' then mergeFront cmp (join cmp a k d c a' k' d' c' n)
    else node a k d c (node a' k' d' c' n)
  | f => f
termination_by f => f.width
decreasing_by
  rw [width_join]
  exact Nat.lt_succ_self _

/-- The first tree has degree `d`. -/
def Starts (d : ℕ) : Forest T → Prop
  | nil => False
  | node _ _ d' .. => d = d'

instance (d : ℕ) (f : Forest T) : Decidable (Starts d f) :=
  match f with
  | nil => .isFalse id
  | node _ _ d' .. => inferInstanceAs (Decidable (d = d'))

def mergeRest (cmp : T → T → Bool) : Forest T → Forest T
  | node a k d c (node a' k' d' c' n) =>
    if d = d' ∧ ¬n.Starts d' then join cmp a k d c a' k' d' c' (mergeRest cmp n)
    else node a k d c (mergeRest cmp (node a' k' d' c' n))
  | f => f

/-- `mergeRest` behind the first tree. -/
def mergeTail (cmp : T → T → Bool) : Forest T → Forest T
  | nil => nil
  | node a k d c n => node a k d c (mergeRest cmp n)

def mergeTrees (cmp : T → T → Bool) (f : Forest T) : Forest T :=
  mergeTail cmp (mergeFront cmp f)

@[simp] theorem mergeRest_nil : mergeRest cmp nil = nil := by
  simp [mergeRest]

@[simp] theorem mergeTrees_nil : mergeTrees cmp nil = nil := by
  simp [mergeTrees, mergeFront, mergeTail]

@[simp] theorem mergeTrees_single (a : ℕ) (k : T) (d : ℕ) (c : Forest T) :
    mergeTrees cmp (node a k d c nil) = node a k d c nil := by
  simp [mergeTrees, mergeFront, mergeTail]

theorem keys_mergeFront (f : Forest T) : (mergeFront cmp f).keys = f.keys := by
  fun_induction mergeFront cmp f with
  | case1 a k c a' k' d' c' n ih => rw [ih, keys_join]; rfl
  | case2 => rfl
  | case3 => rfl

theorem keys_mergeRest (f : Forest T) : (mergeRest cmp f).keys = f.keys := by
  fun_induction mergeRest cmp f with
  | case1 a k d c a' k' d' c' n h ih => rw [keys_join, ih]; rfl
  | case2 a k d c a' k' d' c' n h ih => rw [keys, ih]; rfl
  | case3 => rfl

theorem keys_mergeTail (f : Forest T) : (mergeTail cmp f).keys = f.keys := by
  cases f with
  | nil => rfl
  | node a k d c n => simp only [mergeTail, keys, keys_mergeRest]

theorem keys_mergeTrees (f : Forest T) : (mergeTrees cmp f).keys = f.keys := by
  rw [mergeTrees, keys_mergeTail, keys_mergeFront]

theorem Ordered.mergeFront (hcmp : StrictWeak cmp) {f : Forest T} (hf : f.Ordered cmp) :
    (mergeFront cmp f).Ordered cmp := by
  fun_induction Forest.mergeFront cmp f with
  | case1 a k c a' k' d' c' n ih => exact ih (hf.join _ _ _ _ _ _ _ _ _ hcmp _ hf.2.2.2.2)
  | case2 => exact hf
  | case3 => exact hf

theorem Ordered.mergeRest (hcmp : StrictWeak cmp) {f : Forest T} (hf : f.Ordered cmp) :
    (mergeRest cmp f).Ordered cmp := by
  fun_induction Forest.mergeRest cmp f with
  | case1 a k d c a' k' d' c' n h ih =>
    exact hf.join _ _ _ _ _ _ _ _ _ hcmp _ (ih hf.2.2.2.2)
  | case2 a k d c a' k' d' c' n h ih => exact ⟨hf.1, hf.2.1, ih hf.2.2⟩
  | case3 => exact hf

theorem Ordered.mergeTail (hcmp : StrictWeak cmp) {f : Forest T} (hf : f.Ordered cmp) :
    (mergeTail cmp f).Ordered cmp := by
  cases f with
  | nil => trivial
  | node a k d c n => exact ⟨hf.1, hf.2.1, hf.2.2.mergeRest hcmp⟩

theorem Ordered.mergeTrees (hcmp : StrictWeak cmp) {f : Forest T} (hf : f.Ordered cmp) :
    (mergeTrees cmp f).Ordered cmp :=
  (hf.mergeFront hcmp).mergeTail hcmp

/-- The trees of the second forest are linked one by one. -/
def adopt (cmp : T → T → Bool) : Forest T → Forest T → Forest T
  | x, nil => x
  | x, node a k d c n => adopt cmp (mergeTrees cmp (link x (node a k d c nil))) n

theorem keys_adopt (x f : Forest T) : (adopt cmp x f).keys = x.keys + f.keys := by
  fun_induction adopt cmp x f with
  | case1 x => simp [keys]
  | case2 x a k d c n ih => simp [ih, keys_mergeTrees, keys_link, keys, add_assoc]

theorem Ordered.adopt (hcmp : StrictWeak cmp) {x f : Forest T} (hx : x.Ordered cmp)
    (hf : f.Ordered cmp) : (adopt cmp x f).Ordered cmp := by
  fun_induction Forest.adopt cmp x f with
  | case1 x => exact hx
  | case2 x a k d c n ih =>
    have hsingle : (node a k d c nil).Ordered cmp := ⟨hf.1, hf.2.1, trivial⟩
    exact ih ((hx.link hsingle).mergeTrees hcmp) hf.2.2

/-! ### Forests at other addresses -/

def forget : Forest T → Forest T
  | nil => nil
  | node _ key degree child next => node 0 key degree child.forget next.forget

@[simp] theorem keys_forget (f : Forest T) : f.forget.keys = f.keys := by
  induction f with
  | nil => rfl
  | node a key degree child next hchild hnext => simp [forget, keys, hchild, hnext]

@[simp] theorem ordered_forget (f : Forest T) : f.forget.Ordered cmp ↔ f.Ordered cmp := by
  induction f with
  | nil => rfl
  | node a key degree child next hchild hnext => simp [forget, Ordered, hchild, hnext]

/-! ### Roots -/

/-- A tree of the list. -/
structure Root (T : Type) where
  addr : ℕ
  key : T
  degree : ℕ
  child : Forest T

/-- The trees of the list, followed by those of a forest. -/
def follow : List (Root T) → Forest T → Forest T
  | [], f => f
  | r :: rs, f => node r.addr r.key r.degree r.child (follow rs f)

abbrev ofRoots (rs : List (Root T)) : Forest T := follow rs nil

theorem ofRoots_nil : ofRoots (T := T) [] = nil := rfl

theorem ofRoots_cons (r : Root T) (rs : List (Root T)) :
    ofRoots (r :: rs) = node r.addr r.key r.degree r.child (ofRoots rs) := rfl

def roots : Forest T → List (Root T)
  | nil => []
  | node a key degree child next => ⟨a, key, degree, child⟩ :: next.roots

theorem ofRoots_roots (f : Forest T) : ofRoots f.roots = f := by
  induction f with
  | nil => rfl
  | node a key degree child next _ hnext => rw [roots, ofRoots, follow, ← ofRoots, hnext]

theorem roots_ofRoots (rs : List (Root T)) : (ofRoots rs).roots = rs := by
  induction rs with
  | nil => rfl
  | cons r rs ih => rw [ofRoots_cons, roots, ih]

theorem exists_eq_ofRoots (f : Forest T) : ∃ rs, f = ofRoots rs :=
  ⟨f.roots, (ofRoots_roots f).symm⟩

theorem follow_append (rs ss : List (Root T)) (f : Forest T) :
    follow (rs ++ ss) f = follow rs (follow ss f) := by
  induction rs with
  | nil => rfl
  | cons r rs ih => simp [follow, ih]

/-- The nodes of the trees of a list before a node `p`. -/
def before (p : Ptr) : List (Root T) → Multiset (ℕ × Node T)
  | [] => 0
  | r :: rs =>
    {(r.addr, ⟨r.key, r.degree, r.child.ptr, (rs.head?.map Root.addr).or p⟩)} +
      (r.child.cells + before p rs)

theorem ptr_follow (rs : List (Root T)) (f : Forest T) :
    (follow rs f).ptr = (rs.head?.map Root.addr).or f.ptr := by
  cases rs with
  | nil => rfl
  | cons r rs => rfl

theorem cells_follow (rs : List (Root T)) (f : Forest T) :
    (follow rs f).cells = before f.ptr rs + f.cells := by
  induction rs with
  | nil => simp [follow, before]
  | cons r rs ih =>
    simp only [follow, cells, before, ih, ptr_follow]
    abel

theorem cells_append (l s : List (Root T)) :
    (ofRoots (l ++ s)).cells = before (ofRoots s).ptr l + (ofRoots s).cells := by
  rw [ofRoots, follow_append, cells_follow]

theorem keys_append (l s : List (Root T)) :
    (ofRoots (l ++ s)).keys = (ofRoots l).keys + (ofRoots s).keys := by
  induction l with
  | nil => simp [ofRoots_nil]
  | cons r l ih => simp [ofRoots_cons, keys, ih, add_assoc]

theorem ordered_append {l s : List (Root T)} :
    (ofRoots (l ++ s)).Ordered cmp ↔ (ofRoots l).Ordered cmp ∧ (ofRoots s).Ordered cmp := by
  induction l with
  | nil => simp [ofRoots_nil, Ordered]
  | cons r l ih => simp [ofRoots_cons, Ordered, ih, and_assoc]

theorem key_mem {rs : List (Root T)} {r : Root T} (hr : r ∈ rs) : r.key ∈ (ofRoots rs).keys := by
  obtain ⟨l, s, rfl⟩ := List.append_of_mem hr
  rw [keys_append, ofRoots_cons, keys]
  simp

theorem mem_cells_of_getElem? {rs : List (Root T)} {i : ℕ} {r : Root T} (hr : rs[i]? = some r) :
    (r.addr, (⟨r.key, r.degree, r.child.ptr, rs[i + 1]?.map Root.addr⟩ : Node T)) ∈
      (ofRoots rs).cells := by
  induction rs generalizing i with
  | nil => simp at hr
  | cons s rs ih =>
    rw [ofRoots, follow, cells, Multiset.mem_add, Multiset.mem_add]
    cases i with
    | zero =>
      obtain rfl : s = r := by simpa using hr
      left
      simp [ptr_follow, List.head?_eq_getElem?]
    | succ i => exact .inr (.inr (ih (by simpa using hr)))

theorem Ordered.tops (hcmp : StrictWeak cmp) {rs : List (Root T)} {k : T}
    (h : (ofRoots rs).Ordered cmp) (hk : ∀ r ∈ rs, cmp k r.key = false) :
    Tops cmp k (ofRoots rs).keys := by
  induction rs with
  | nil => exact Tops.zero
  | cons r rs ih =>
    obtain ⟨hr, -, hrs⟩ := h
    simp only [ofRoots, follow, keys, Tops.cons_iff, Tops.add_iff]
    have hkr := hk r List.mem_cons_self
    exact ⟨hkr, hr.trans hcmp hkr, ih hrs fun s hs => hk s (List.mem_cons_of_mem r hs)⟩

end Forest

end Course.Stl.PriorityQueue
