import Mathlib.Data.List.Sort
import Mathlib.Data.List.TakeWhile
import Course.Lib.Ring
import Course.Lib.Tiling

/-! The free list of Project 7: every free block is a node of two rings around
one base node, by address (`prev`, `next`) and by size (`smaller`, `larger`). -/

open Course.Lib

namespace Course.Os

/-- The contents of one node; `0` is `NULL`. -/
structure FreelistNode where
  address : ℤ
  size : ℕ
  prev : ℕ
  next : ℕ
  smaller : ℕ
  larger : ℕ

/-- The list, and the memory of its nodes as one function for each field.
`fresh` is what `malloc` returns next; `scribble x n` is what is left in node `x`
with contents `n` once `free` has taken it back. -/
structure Freelist where
  address : ℕ → ℤ
  size : ℕ → ℕ
  prev : ℕ → ℕ
  next : ℕ → ℕ
  smaller : ℕ → ℕ
  larger : ℕ → ℕ
  fresh : ℕ
  scribble : ℕ → FreelistNode → FreelistNode
  node : ℕ

namespace Freelist

/-- All fields of node `x` at once. -/
def setNode (s : Freelist) (x : ℕ) (n : FreelistNode) : Freelist :=
  { s with
    address := Function.update s.address x n.address
    size := Function.update s.size x n.size
    prev := Function.update s.prev x n.prev
    next := Function.update s.next x n.next
    smaller := Function.update s.smaller x n.smaller
    larger := Function.update s.larger x n.larger }

def getNode (s : Freelist) (x : ℕ) : FreelistNode where
  address := s.address x
  size := s.size x
  prev := s.prev x
  next := s.next x
  smaller := s.smaller x
  larger := s.larger x

def free (s : Freelist) (x : ℕ) : Freelist := s.setNode x (s.scribble x (s.getNode x))

/-- The base node is node 1, the first block node 2. -/
def create (scribble : ℕ → FreelistNode → FreelistNode) (address : ℤ) (size : ℕ) : Freelist where
  address := fun x => if x = 2 then address else 0
  size := fun x => if x = 2 then size else 0
  prev := fun x => if x = 2 then 1 else 2
  next := fun x => if x = 2 then 1 else 2
  smaller := fun x => if x = 2 then 1 else 2
  larger := fun x => if x = 2 then 1 else 2
  fresh := 3
  scribble := scribble
  node := 1

def internalInsert (s : Freelist) (node newNode : ℕ) : Freelist :=
  let s := { s with prev := Function.update s.prev newNode node }
  let s := { s with next := Function.update s.next newNode (s.next node) }
  let s := { s with prev := Function.update s.prev (s.next node) newNode }
  { s with next := Function.update s.next node newNode }

/-- Takes `node` out of the ring by size, if it is in it. -/
def detach (s : Freelist) (node : ℕ) : Freelist :=
  if s.smaller node ≠ 0 ∧ s.larger node ≠ 0 then
    let s := { s with larger := Function.update s.larger (s.smaller node) (s.larger node) }
    { s with smaller := Function.update s.smaller (s.larger node) (s.smaller node) }
  else s

def internalRemove (s : Freelist) (node : ℕ) : Freelist :=
  let s := { s with next := Function.update s.next (s.prev node) (s.next node) }
  let s := { s with prev := Function.update s.prev (s.next node) (s.prev node) }
  (s.detach node).free node

def internalSort (s : Freelist) (node : ℕ) : Option Freelist := do
  let s := s.detach node
  let current ← seekFrom s.larger s.node (fun x => s.size x < s.size node) s.fresh s.node
  let s := { s with larger := Function.update s.larger node (s.larger current) }
  let s := { s with smaller := Function.update s.smaller node current }
  let s := { s with smaller := Function.update s.smaller (s.larger current) node }
  some { s with larger := Function.update s.larger current node }

def stop (s : Freelist) (x : ℕ) : ℤ := s.address x + s.size x

def grow (s : Freelist) (x n : ℕ) : Freelist :=
  { s with size := Function.update s.size x (s.size x + n) }

def mergePrev : Freelist → ℕ → ℕ → Option (Freelist × ℕ)
  | _, 0, _ => none
  | s, fuel + 1, node =>
    let prev := s.prev node
    if prev ≠ s.node ∧ s.stop prev = s.address node then
      mergePrev ((s.grow prev (s.size node)).internalRemove node) fuel prev
    else some (s, node)

/-- `next` comes out of the node just freed, so it can be anything that `free`
left there; a pointer that `malloc` never returned is not followed. -/
def mergeNext : Freelist → ℕ → ℕ → ℕ → Option Freelist
  | _, 0, _, _ => none
  | s, fuel + 1, node, next =>
    if next = s.node then some s
    else if next = 0 ∨ s.fresh ≤ next then none
    else if s.stop node = s.address next then
      let s := (s.grow node (s.size next)).internalRemove next
      mergeNext s fuel node (s.next next)
    else some s

def internalMerge (s : Freelist) (node : ℕ) : Option Freelist := do
  let (s, node) ← s.mergePrev s.fresh node
  let s ← s.mergeNext s.fresh node (s.next node)
  s.internalSort node

def alloc (s : Freelist) (node size : ℕ) : Option Freelist :=
  if size < s.size node then
    internalSort { s with
      address := Function.update s.address node (s.address node + size)
      size := Function.update s.size node (s.size node - size) } node
  else some (s.internalRemove node)

/-- `malloc` and the four assignments to the new node. -/
def newNode (s : Freelist) (address : ℤ) (size : ℕ) : Freelist :=
  { s with
    address := Function.update s.address s.fresh address
    size := Function.update s.size s.fresh size
    smaller := Function.update s.smaller s.fresh 0
    larger := Function.update s.larger s.fresh 0
    fresh := s.fresh + 1 }

/-- `freelist_free`. -/
def release (s : Freelist) (address : ℤ) (size : ℕ) : Option Freelist := do
  let newNode := s.fresh
  let s := s.newNode address size
  let node ← seekFrom s.next s.node (fun x => s.address x < address) s.fresh s.node
  (s.internalInsert node newNode).internalMerge newNode

/-- The node of the free block that starts at `a`, if there is one. -/
def blockAt (s : Freelist) (a : ℤ) : Option (Option ℕ) :=
  findFrom s.next s.node (fun x => s.address x = a) s.fresh (s.next s.node)

/-! ### Placement policies -/

/-- Takes `size` bytes from `node`, if the search found one. -/
def allocFrom (s : Freelist) (size : ℕ) : Option ℕ → Option (Freelist × ℤ)
  | none => some (s, -1)
  | some node => do
    let t ← s.alloc node size
    some (t, s.address node)

inductive Policy
  | firstFit
  | bestFit
  | worstFit

def firstFit (s : Freelist) (size : ℕ) : Option (Freelist × ℤ) := do
  let found ← findFrom s.next s.node (fun x => size ≤ s.size x) s.fresh (s.next s.node)
  s.allocFrom size found

def bestFit (s : Freelist) (size : ℕ) : Option (Freelist × ℤ) := do
  let found ← findFrom s.larger s.node (fun x => size ≤ s.size x) s.fresh (s.larger s.node)
  s.allocFrom size found

/-- The base node has size 0, so an empty list has nothing for a positive size. -/
def worstFit (s : Freelist) (size : ℕ) : Option (Freelist × ℤ) :=
  let node := s.smaller s.node
  s.allocFrom size (if size ≤ s.size node then some node else none)

def Policy.run : Policy → Freelist → ℕ → Option (Freelist × ℤ)
  | .firstFit => Freelist.firstFit
  | .bestFit => Freelist.bestFit
  | .worstFit => Freelist.worstFit

/-- The free blocks in the order of the list. -/
def blocks (s : Freelist) : Option (List Block) :=
  (nodesFrom s.next s.node s.fresh (s.next s.node)).map fun l =>
    l.map fun x => ⟨s.address x, s.size x⟩

/-- What a policy asks of its block `b`, for `n` bytes and among all `free` blocks. -/
def Policy.Picks (free : List Block) (n : ℕ) (b : Block) : Policy → Prop
  | .firstFit => ∀ c ∈ free, n ≤ c.length → b.start ≤ c.start
  | .bestFit => ∀ c ∈ free, n ≤ c.length → b.length ≤ c.length
  | .worstFit => ∀ c ∈ free, c.length ≤ b.length

/-! ### The two rings -/

variable {s t : Freelist} {l l₁ l₂ ss : List ℕ} {x y : ℕ} {r : Set ℤ} {used : List Block}

structure Rings (s : Freelist) (l ss : List ℕ) : Prop where
  byAddress : IsRing s.next s.prev s.node l
  bySize : IsRing s.larger s.smaller s.node ss
  allocated : ∀ x ∈ s.node :: (l ++ ss), 0 < x ∧ x < s.fresh
  base : s.size s.node = 0

namespace Rings

theorem ne_node (h : s.Rings l ss) (hx : x ∈ l) : x ≠ s.node := fun e =>
  h.byAddress.notMem (e ▸ hx)

/-- In the ring by size a node has neighbours, which are not `NULL`. -/
theorem linked (h : s.Rings l ss) (hx : x ∈ ss) : s.smaller x ≠ 0 ∧ s.larger x ≠ 0 := by
  obtain ⟨hs, hl⟩ := h.bySize.neighbours_mem hx
  have hpos : ∀ y ∈ s.node :: ss, y ≠ 0 := fun y hy =>
    (h.allocated y (by simp only [List.mem_cons, List.mem_append] at hy ⊢; tauto)).1.ne'
  exact ⟨hpos _ hs, hpos _ hl⟩

theorem detach (h : s.Rings l ss) (hx : x ∈ ss ∨ s.smaller x = 0) :
    (s.detach x).Rings l (ss.erase x) := by
  by_cases hmem : x ∈ ss
  · have hring := h.bySize.erase hmem
    have hdetach : s.detach x = { s with
        larger := Function.update s.larger (s.smaller x) (s.larger x)
        smaller := Function.update s.smaller (s.larger x) (s.smaller x) } := by
      simp [Freelist.detach, h.linked hmem, Function.update_apply]
    rw [hdetach]
    refine ⟨h.byAddress, hring, fun y hy => h.allocated y ?_, h.base⟩
    simp only [List.mem_cons, List.mem_append] at hy ⊢
    exact hy.imp_right (Or.imp_right List.mem_of_mem_erase)
  · have hdetach : s.detach x = s := by simp [Freelist.detach, hx.resolve_left hmem]
    rw [hdetach, List.erase_of_not_mem hmem]
    exact h

theorem free (h : s.Rings l ss) (hx : x ∉ s.node :: (l ++ ss)) : (s.free x).Rings l ss := by
  have hne : ∀ y ∈ s.node :: (l ++ ss), y ≠ x := fun y hy e => hx (e ▸ hy)
  have hl : ∀ y ∈ s.node :: l, y ≠ x := fun y hy => hne y (by
    simp only [List.mem_cons, List.mem_append] at hy ⊢; tauto)
  have hss : ∀ y ∈ s.node :: ss, y ≠ x := fun y hy => hne y (by
    simp only [List.mem_cons, List.mem_append] at hy ⊢; tauto)
  refine ⟨h.byAddress.congr (fun y hy => ?_) (fun y hy => ?_),
    h.bySize.congr (fun y hy => ?_) (fun y hy => ?_), h.allocated, ?_⟩
  · exact Function.update_of_ne (hl y hy) ..
  · exact Function.update_of_ne (hl y hy) ..
  · exact Function.update_of_ne (hss y hy) ..
  · exact Function.update_of_ne (hss y hy) ..
  · exact (Function.update_of_ne (hne s.node (by simp)) ..).trans h.base

end Rings

/-- `t` differs from `s` in the links only, and in what node `x` holds. -/
structure SameBlocks (s t : Freelist) (x : ℕ) : Prop where
  address : ∀ y, y ≠ x → t.address y = s.address y
  size : ∀ y, y ≠ x → t.size y = s.size y
  fresh : t.fresh = s.fresh
  scribble : t.scribble = s.scribble
  node : t.node = s.node

theorem detach_fields (s : Freelist) (x : ℕ) :
    (s.detach x).address = s.address ∧ (s.detach x).size = s.size ∧
      (s.detach x).next = s.next ∧ (s.detach x).prev = s.prev ∧
      (s.detach x).fresh = s.fresh ∧ (s.detach x).scribble = s.scribble ∧
      (s.detach x).node = s.node := by
  unfold detach
  split <;> exact ⟨rfl, rfl, rfl, rfl, rfl, rfl, rfl⟩

theorem Rings.detach_smaller (h : s.Rings l ss) (hy : y ∈ l) (hyss : y ∉ ss)
    (hx : x ∈ ss ∨ s.smaller x = 0) : (s.detach x).smaller y = s.smaller y := by
  by_cases hmem : x ∈ ss
  · have hne : y ≠ s.larger x := fun e => by
      have hmem := (h.bySize.neighbours_mem hmem).2
      rw [← e, List.mem_cons] at hmem
      exact hmem.elim (h.ne_node hy) hyss
    simp [Freelist.detach, h.linked hmem, Function.update_apply, hne]
  · simp [Freelist.detach, hx.resolve_left hmem]

/-- Taking a node out of both rings and giving its memory back. -/
theorem Rings.remove (h : s.Rings l ss) (hx : x ∈ l) (hss : x ∈ ss ∨ s.smaller x = 0) :
    (s.internalRemove x).Rings (l.erase x) (ss.erase x) ∧
      s.SameBlocks (s.internalRemove x) x ∧
      (∀ y ∈ l, y ∉ ss → y ≠ x → (s.internalRemove x).smaller y = s.smaller y) ∧
      ∃ n, n.next = s.next x ∧ (s.internalRemove x).next x = (s.scribble x n).next := by
  let u : Freelist := { s with
    next := Function.update s.next (s.prev x) (s.next x)
    prev := Function.update s.prev (s.next x) (s.prev x) }
  have hremove : s.internalRemove x = (u.detach x).free x := by
    simp [internalRemove, u, Function.update_apply]
  have hu : u.Rings (l.erase x) ss := by
    refine ⟨h.byAddress.erase hx, h.bySize, fun y hy => h.allocated y ?_, h.base⟩
    simp only [List.mem_cons, List.mem_append] at hy ⊢
    exact hy.imp_right (Or.imp_left List.mem_of_mem_erase)
  have hl : x ∉ l.erase x := fun hmem =>
    ((List.nodup_cons.mp h.byAddress.nodup).2.mem_erase_iff.mp hmem).1 rfl
  have hss' : x ∉ ss.erase x := fun hmem =>
    ((List.nodup_cons.mp h.bySize.nodup).2.mem_erase_iff.mp hmem).1 rfl
  obtain ⟨haddress, hsize, hnext, hprev, hfresh, hscribble, hnode⟩ := detach_fields u x
  have hxnode : x ≠ s.node := h.ne_node hx
  rw [hremove]
  refine ⟨(hu.detach hss).free ?_, ⟨fun y hy => ?_, fun y hy => ?_, hfresh, hscribble, hnode⟩,
    fun y hy hyss hyx => ?_, (u.detach x).getNode x, ?_, ?_⟩
  · rw [hnode]
    simp only [List.mem_cons, List.mem_append]
    tauto
  · simp [Freelist.free, setNode, hy, haddress, u]
  · simp [Freelist.free, setNode, hy, hsize, u]
  · have hy' : y ∈ l.erase x := List.mem_erase_of_ne hyx |>.mpr hy
    simpa [Freelist.free, setNode, hyx] using hu.detach_smaller hy' hyss hss
  · rw [getNode, hnext]
    by_cases e : x = s.prev x
    · simp [u, ← e]
    · simp [u, e]
  · simp [Freelist.free, setNode, hscribble, u]

def block (s : Freelist) (x : ℕ) : Block := ⟨s.address x, s.size x⟩

@[simp] theorem block_start (s : Freelist) (x : ℕ) : (s.block x).start = s.address x := rfl

@[simp] theorem block_length (s : Freelist) (x : ℕ) : (s.block x).length = s.size x := rfl

@[simp] theorem block_stop (s : Freelist) (x : ℕ) : (s.block x).stop = s.stop x := rfl

/-- The order of the ring by size. -/
def Smaller (s : Freelist) (x y : ℕ) : Prop := s.size x ≤ s.size y

instance (s : Freelist) : DecidableRel s.Smaller :=
  fun x y => inferInstanceAs (Decidable (s.size x ≤ s.size y))

instance (s : Freelist) : Std.Total s.Smaller := ⟨fun x y => Nat.le_total (s.size x) (s.size y)⟩

instance (s : Freelist) : IsTrans ℕ s.Smaller := ⟨fun _ _ _ => Nat.le_trans⟩

/-- Both rings run through the same nodes, but `x` need not be in its place by
size, or in that ring at all. -/
structure Loose (s : Freelist) (l ss : List ℕ) (x : ℕ) : Prop extends Rings s l ss where
  mem : x ∈ l
  detached : x ∈ ss ∨ s.smaller x = 0
  perm : (ss.erase x).Perm (l.erase x)
  sorted : (ss.erase x).Pairwise s.Smaller

/-- Both rings run through the same nodes, each in its order. -/
structure InStep (s : Freelist) (l ss : List ℕ) : Prop extends Rings s l ss where
  perm : ss.Perm l
  sorted : ss.Pairwise s.Smaller

theorem InStep.loose (h : s.InStep l ss) (hx : x ∈ l) : s.Loose l ss x where
  toRings := h.toRings
  mem := hx
  detached := .inl (h.perm.mem_iff.mpr hx)
  perm := h.perm.erase x
  sorted := h.sorted.sublist List.erase_sublist

theorem Rings.length_lt (h : s.Rings l ss) : l.length < s.fresh ∧ ss.length < s.fresh := by
  refine ⟨length_lt_of_nodup h.byAddress.nodup fun y hy => (h.allocated y ?_).2,
    length_lt_of_nodup h.bySize.nodup fun y hy => (h.allocated y ?_).2⟩ <;>
  · simp only [List.mem_cons, List.mem_append] at hy ⊢
    tauto

/-- Sorting puts `x` in its place, whatever that was before. -/
theorem Loose.sort (h : s.Loose l ss x) :
    ∃ t ss', s.internalSort x = some t ∧ t.InStep l ss' ∧ t.address = s.address ∧
      t.size = s.size ∧ t.fresh = s.fresh ∧ t.scribble = s.scribble ∧ t.node = s.node := by
  obtain ⟨haddress, hsize, hnext, hprev, hfresh, hscribble, hnode⟩ := detach_fields s x
  have hd := h.toRings.detach h.detached
  set d := s.detach x
  have hx : x ∉ d.node :: ss.erase x := by
    rw [hnode, List.mem_cons]
    exact not_or.mpr ⟨h.ne_node h.mem,
      fun hmem => ((List.nodup_cons.mp h.bySize.nodup).2.mem_erase_iff.mp hmem).1 rfl⟩
  let p : ℕ → Bool := fun y => d.size y < d.size x
  have hseek := hd.bySize.linked.seekFrom_eq (p := p) hd.bySize.notMem hd.length_lt.2
  have hring := hd.bySize
  rw [← List.takeWhile_append_dropWhile (p := p) (l := ss.erase x)] at hring hx
  have hlink := hring.link hx rfl
  have horder : (ss.erase x).takeWhile p ++ x :: (ss.erase x).dropWhile p =
      (ss.erase x).orderedInsert s.Smaller x := by
    have hp : p = fun y => decide ¬s.Smaller x y := by
      funext y
      simp [p, Smaller, hsize]
    rw [List.orderedInsert_eq_take_drop, hp]
  rw [horder] at hlink
  have hperm : ((ss.erase x).orderedInsert s.Smaller x).Perm l :=
    (List.perm_orderedInsert _ _ _).trans
      ((h.perm.cons x).trans (List.perm_cons_erase h.mem).symm)
  set current := (d.node :: (ss.erase x).takeWhile p).getLast (by simp)
  have hcx : current ≠ x := fun e => hx (by
    have hmem := List.getLast_mem (l := d.node :: (ss.erase x).takeWhile p) (by simp)
    rw [show (d.node :: (ss.erase x).takeWhile p).getLast (by simp) = x from e] at hmem
    rw [List.mem_cons, List.mem_append]
    exact (List.mem_cons.mp hmem).imp_right .inl)
  have halloc : ∀ y ∈ d.node :: (l ++ (ss.erase x).orderedInsert s.Smaller x),
      0 < y ∧ y < d.fresh := fun y hy => by
    refine hfresh ▸ h.allocated y ?_
    simp only [List.mem_cons, List.mem_append, hperm.mem_iff, or_self] at hy ⊢
    exact hnode ▸ hy.imp_right .inl
  refine ⟨{ d with
    larger := Function.update (Function.update d.larger x (d.larger current)) current x
    smaller := Function.update (Function.update d.smaller x current) (d.larger current) x },
    _, ?_, ⟨⟨hd.byAddress, hlink, halloc, hd.base⟩, hperm, ?_⟩, haddress, hsize, hfresh,
    hscribble, hnode⟩
  · change (seekFrom d.larger d.node p d.fresh d.node).bind _ = _
    rw [hseek]
    simp only [Option.bind_some, Function.update_of_ne hcx]
    rfl
  · have hsorted := List.Pairwise.orderedInsert x _ h.sorted
    refine hsorted.imp fun {y z} hyz => ?_
    change d.size y ≤ d.size z
    rwa [hsize]

/-- Putting a node outside the rings behind the last one of `s.node :: l₁`. -/
theorem InStep.insert (h : s.InStep (l₁ ++ l₂) ss) (hx : x ∉ s.node :: (l₁ ++ l₂))
    (hpos : 0 < x ∧ x < s.fresh) (hsmaller : s.smaller x = 0) {p : ℕ}
    (hp : p = (s.node :: l₁).getLast (by simp)) :
    (s.internalInsert p x).Loose (l₁ ++ x :: l₂) ss x := by
  have hpx : p ≠ x := fun e => hx (by
    have hmem := List.getLast_mem (l := s.node :: l₁) (by simp)
    rw [← hp, e] at hmem
    rw [List.mem_cons, List.mem_append]
    exact (List.mem_cons.mp hmem).imp_right .inl)
  have hss : x ∉ ss := fun hmem => hx (List.mem_cons_of_mem _ (h.perm.mem_iff.mp hmem))
  have hl₁ : x ∉ l₁ := fun hmem => hx (by simp [hmem])
  have hring := h.byAddress.link hx hp
  refine ⟨⟨?_, h.bySize, fun y hy => ?_, h.base⟩, by simp, .inr hsmaller, ?_, ?_⟩
  · simpa [internalInsert, Function.update_of_ne hpx] using hring
  · simp only [List.mem_cons, List.mem_append] at hy
    have hold := h.allocated y
    simp only [List.mem_cons, List.mem_append] at hold
    obtain hy | (hy | rfl | hy) | hy := hy
    · exact hold (.inl hy)
    · exact hold (.inr (.inl (.inl hy)))
    · exact hpos
    · exact hold (.inr (.inl (.inr hy)))
    · exact hold (.inr (.inr hy))
  · rw [List.erase_of_not_mem hss, List.erase_append_right _ hl₁, List.erase_cons_head]
    exact h.perm
  · rw [List.erase_of_not_mem hss]
    exact h.sorted

theorem erase_middle (h : (l₁ ++ x :: l₂).Nodup) : (l₁ ++ x :: l₂).erase x = l₁ ++ l₂ := by
  have hx : x ∉ l₁ := fun hmem => by
    rw [List.nodup_append] at h
    exact h.2.2 x hmem x (by simp) rfl
  rw [List.erase_append_right _ hx, List.erase_cons_head]

/-- Growing one node and taking another one out, as both merges do. -/
theorem Loose.merge (h : s.Loose l ss x) (hy : y ∈ l) (hz : z ∈ l) (hyz : z ≠ y)
    (hx : x = y ∨ x = z) (n : ℕ) :
    ((s.grow z n).internalRemove y).Loose (l.erase y) (ss.erase y) z ∧
      (s.grow z n).SameBlocks ((s.grow z n).internalRemove y) y ∧
      ∃ m, m.next = s.next y ∧
        ((s.grow z n).internalRemove y).next y = (s.scribble y m).next := by
  have hgrow : (s.grow z n).Rings l ss := ⟨h.byAddress, h.bySize, h.allocated,
    (Function.update_of_ne (h.ne_node hz).symm ..).trans h.base⟩
  have hmem : ∀ v ∈ l, v ≠ x → v ∈ ss := fun v hv hvx =>
    List.mem_of_mem_erase (h.perm.mem_iff.mpr ((List.mem_erase_of_ne hvx).mpr hv))
  have hyss : y ∈ ss ∨ (s.grow z n).smaller y = 0 := by
    by_cases hyx : y = x
    · exact hyx ▸ h.detached
    · exact .inl (hmem y hy hyx)
  obtain ⟨hrings, hsame, hsmaller, hnext⟩ := hgrow.remove hy hyss
  refine ⟨⟨hrings, (List.mem_erase_of_ne hyz).mpr hz, ?_, ?_, ?_⟩, hsame, hnext⟩
  · by_cases hzss : z ∈ ss
    · exact .inl ((List.mem_erase_of_ne hyz).mpr hzss)
    · rw [hsmaller z hz hzss hyz]
      have hzx : z = x := by
        by_contra hne
        exact hzss (hmem z hz hne)
      exact .inr (h.detached.resolve_left (hzx ▸ hzss) |> (hzx ▸ ·))
  · obtain rfl | rfl := hx
    · exact h.perm.erase z
    · rw [List.erase_comm, List.erase_comm (l := l)]
      exact h.perm.erase y
  · have hsub : ((ss.erase y).erase z).Sublist (ss.erase x) := by
      obtain rfl | rfl := hx
      · exact List.erase_sublist
      · rw [List.erase_comm]
        exact List.erase_sublist
    have hnodup := (List.nodup_cons.mp h.bySize.nodup).2
    refine (h.sorted.sublist hsub).imp_of_mem fun {v w} hv hw hvw => ?_
    have hne : ∀ v ∈ (ss.erase y).erase z, v ≠ y ∧ v ≠ z := fun v hv => by
      rw [(hnodup.erase y).mem_erase_iff, hnodup.mem_erase_iff] at hv
      exact ⟨hv.2.1, hv.1⟩
    have hsize : ∀ v ∈ (ss.erase y).erase z,
        ((s.grow z n).internalRemove y).size v = s.size v := fun v hv => by
      rw [hsame.size v (hne v hv).1]
      simp [grow, (hne v hv).2]
    rw [Smaller, hsize v hv, hsize w hw]
    exact hvw

theorem SameBlocks.block (h : (s.grow z n).SameBlocks t y) (hzy : z ≠ y) :
    t.block z = ⟨s.address z, s.size z + n⟩ ∧ ∀ v, v ≠ y → v ≠ z → t.block v = s.block v := by
  refine ⟨?_, fun v hvy hvz => ?_⟩
  · simp [Freelist.block, h.address z hzy, h.size z hzy, grow]
  · simp [Freelist.block, h.address v hvy, h.size v hvy, grow, hvz]

/-- The fields no operation changes. -/
structure SameList (s t : Freelist) : Prop where
  fresh : t.fresh = s.fresh
  scribble : t.scribble = s.scribble
  node : t.node = s.node

theorem ne_of_nodup_append (h : (l₁ ++ x :: l₂).Nodup) (hv : v ∈ l₁ ++ l₂) : v ≠ x := fun e => by
  have hcons := List.nodup_cons.mp (List.perm_middle.nodup_iff.mp h)
  exact hcons.1 (e ▸ hv)

theorem Rings.prev_append (h : s.Rings (l₁ ++ x :: l₂) ss) :
    s.prev x = (s.node :: l₁).getLast (by simp) :=
  (Linked.append_iff.mp h.byAddress.linked).1.prev_eq

theorem Rings.next_append (h : s.Rings (l₁ ++ x :: l₂) ss) : s.next x = l₂.headD s.node := by
  obtain ⟨-, h₂⟩ := Linked.append_iff.mp h.byAddress.linked
  cases l₂ with
  | nil => exact h₂.1
  | cons y l₂ => exact h₂.1

theorem Rings.mergePrev_stop (h : s.Rings (l₁ ++ x :: l₂) ss)
    (hne : ∀ y ∈ l₁.getLast?, s.stop y ≠ s.address x) : s.mergePrev (fuel + 1) x = some (s, x) := by
  have hcond : ¬(s.prev x ≠ s.node ∧ s.stop (s.prev x) = s.address x) := by
    rintro ⟨hnode, hstop⟩
    rw [h.prev_append] at hnode hstop
    obtain rfl | ⟨l, y, rfl⟩ := List.eq_nil_or_concat' l₁
    · exact hnode rfl
    · exact hne y (by simp) (by simpa using hstop)
  rw [Freelist.mergePrev, if_neg hcond]

theorem Rings.mergeNext_stop (h : s.Rings (l₁ ++ x :: l₂) ss)
    (hne : ∀ y ∈ l₂.head?, s.stop x ≠ s.address y) :
    s.mergeNext (fuel + 1) x (l₂.headD s.node) = some s := by
  cases l₂ with
  | nil => simp [Freelist.mergeNext]
  | cons y l₂ =>
    have hy : y ∈ l₁ ++ x :: y :: l₂ := by simp
    obtain ⟨hpos, hlt⟩ := h.allocated y (by simp)
    have hnull : ¬(y = 0 ∨ s.fresh ≤ y) := by omega
    simp [Freelist.mergeNext, h.ne_node hy, hnull, hne y (by simp)]

/-- Merging to the left: at most once, as the blocks there have gaps. -/
theorem Loose.mergePrev (h : s.Loose (l₁ ++ x :: l₂) ss x) (fuel : ℕ)
    (hgaps : Gaps (l₁.map s.block)) :
    ∃ t l₁' x' ss', s.mergePrev (fuel + 2) x = some (t, x') ∧ t.Loose (l₁' ++ x' :: l₂) ss' x' ∧
      s.SameList t ∧
      ((t = s ∧ l₁' = l₁ ∧ x' = x ∧ ∀ y ∈ l₁.getLast?, s.stop y ≠ s.address x) ∨
        (l₁ = l₁' ++ [x'] ∧ s.stop x' = s.address x ∧
          t.block x' = ⟨s.address x', s.size x' + s.size x⟩ ∧
          ∀ v ∈ l₁' ++ l₂, t.block v = s.block v)) := by
  by_cases hne : ∀ y ∈ l₁.getLast?, s.stop y ≠ s.address x
  · exact ⟨s, l₁, x, ss, h.toRings.mergePrev_stop hne, h, ⟨rfl, rfl, rfl⟩,
      .inl ⟨rfl, rfl, rfl, hne⟩⟩
  · push Not at hne
    obtain ⟨p, hp, hstop⟩ := hne
    obtain ⟨l, rfl⟩ := List.getLast?_eq_some_iff.mp hp
    have hnodup := (List.nodup_cons.mp h.byAddress.nodup).2
    have hpx : p ≠ x := ne_of_nodup_append hnodup (by simp)
    have hprev : s.prev x = p := by simp [h.prev_append]
    obtain ⟨hloose, hsame, -⟩ := h.merge h.mem (z := p) (by simp) hpx (.inl rfl) (s.size x)
    rw [erase_middle hnodup, List.append_assoc, List.singleton_append] at hloose
    obtain ⟨hblock, hblocks⟩ := hsame.block hpx
    set t := (s.grow p (s.size x)).internalRemove x
    have hothers : ∀ v ∈ l ++ l₂, t.block v = s.block v := fun v hv => by
      refine hblocks v (ne_of_nodup_append hnodup ?_)
        (ne_of_nodup_append (List.nodup_cons.mp hloose.byAddress.nodup).2 hv)
      simp only [List.mem_append] at hv ⊢
      tauto
    refine ⟨t, l, p, ss.erase x, ?_, hloose, ⟨hsame.fresh, hsame.scribble, hsame.node⟩,
      .inr ⟨rfl, hstop, hblock, hothers⟩⟩
    have hcond : s.prev x ≠ s.node ∧ s.stop (s.prev x) = s.address x := by
      rw [hprev]
      exact ⟨h.ne_node (by simp), hstop⟩
    rw [Freelist.mergePrev, if_pos hcond, hprev]
    refine hloose.toRings.mergePrev_stop fun y hy => ?_
    have hyl : y ∈ l := List.mem_of_mem_getLast? hy
    have hlt : (s.block y).stop < (s.block p).start := by
      rw [Gaps, List.map_append, List.pairwise_append] at hgaps
      exact hgaps.2.2 _ (List.mem_map_of_mem hyl) _ (by simp)
    have hy' : t.stop y = s.stop y := congrArg Block.stop (hothers y (by simp [hyl]))
    have hp' : t.address p = s.address p := congrArg Block.start hblock
    rw [hy', hp']
    exact hlt.ne

/-- Merging to the right: at most once, and only if the link survives in the
node given back. -/
theorem Loose.mergeNext (h : s.Loose (l₁ ++ x :: l₂) ss x) (fuel : ℕ)
    (hgaps : Gaps (l₂.map s.block))
    (hintact : ∀ y ∈ l₂.head?, s.stop x = s.address y → ∀ n, (s.scribble y n).next = n.next) :
    ∃ t l₂' ss', s.mergeNext (fuel + 2) x (s.next x) = some t ∧
      t.Loose (l₁ ++ x :: l₂') ss' x ∧ s.SameList t ∧
      ((t = s ∧ l₂' = l₂ ∧ ∀ y ∈ l₂.head?, s.stop x ≠ s.address y) ∨
        (∃ y, l₂ = y :: l₂' ∧ s.stop x = s.address y ∧
          t.block x = ⟨s.address x, s.size x + s.size y⟩ ∧
          ∀ v ∈ l₁ ++ l₂', t.block v = s.block v)) := by
  rw [h.next_append]
  by_cases hne : ∀ y ∈ l₂.head?, s.stop x ≠ s.address y
  · exact ⟨s, l₂, ss, h.toRings.mergeNext_stop hne, h, ⟨rfl, rfl, rfl⟩, .inl ⟨rfl, rfl, hne⟩⟩
  · push Not at hne
    obtain ⟨y, hy, hstop⟩ := hne
    obtain ⟨l, rfl⟩ : ∃ l, l₂ = y :: l := ⟨l₂.tail, (List.cons_head?_tail hy).symm⟩
    have hsplit : l₁ ++ x :: y :: l = (l₁ ++ [x]) ++ y :: l := by simp
    have hnodup := (List.nodup_cons.mp h.byAddress.nodup).2
    have hnodup' := hsplit ▸ hnodup
    have hxy : x ≠ y := ne_of_nodup_append hnodup' (by simp)
    obtain ⟨hloose, hsame, n, hn, hnext⟩ :=
      h.merge (y := y) (by simp) h.mem hxy (.inr rfl) (s.size y)
    rw [hsplit, erase_middle hnodup', List.append_assoc, List.singleton_append] at hloose
    obtain ⟨hblock, hblocks⟩ := hsame.block hxy
    set t := (s.grow x (s.size y)).internalRemove y
    have hothers : ∀ v ∈ l₁ ++ l, t.block v = s.block v := fun v hv => by
      refine hblocks v (ne_of_nodup_append hnodup' ?_)
        (ne_of_nodup_append (List.nodup_cons.mp hloose.byAddress.nodup).2 hv)
      simp only [List.mem_append] at hv ⊢
      tauto
    refine ⟨t, l, ss.erase y, ?_, hloose, ⟨hsame.fresh, hsame.scribble, hsame.node⟩,
      .inr ⟨y, rfl, hstop, hblock, hothers⟩⟩
    have hynode : y ≠ s.node := h.ne_node (by simp)
    obtain ⟨hpos, hlt⟩ := h.allocated y (by simp)
    have hnull : ¬(y = 0 ∨ s.fresh ≤ y) := by omega
    have hfollow : t.next y = l.headD t.node := by
      have hs : s.Rings ((l₁ ++ [x]) ++ y :: l) ss := hsplit ▸ h.toRings
      rw [hnext, hintact y (by simp) hstop, hn, hs.next_append, hsame.node]
      rfl
    rw [List.headD_cons, Freelist.mergeNext, if_neg hynode, if_neg hnull, if_pos hstop]
    change t.mergeNext (fuel + 1) x (t.next y) = _
    rw [hfollow]
    refine hloose.toRings.mergeNext_stop fun z hz => ?_
    have hzl : z ∈ l := List.mem_of_mem_head? hz
    have hgap : (s.block y).stop < (s.block z).start :=
      (List.pairwise_cons.mp hgaps).1 _ (List.mem_map_of_mem hzl)
    have hz' : t.address z = s.address z := congrArg Block.start (hothers z (by simp [hzl]))
    have hx' : t.stop x = s.stop y := by
      have hxstop : (t.block x).stop = s.address x + (s.size x + s.size y : ℕ) := by
        rw [hblock]
        rfl
      rw [block_stop] at hxstop
      rw [hxstop]
      simp only [stop] at hstop ⊢
      omega
    rw [hx', hz']
    exact hgap.ne

theorem Loose.mergePrev_hole (h : s.Loose (l₁ ++ x :: l₂) ss x) (fuel : ℕ)
    (hole : Hole r used (l₁.map s.block) (s.block x) (l₂.map s.block)) :
    ∃ t l₁' x' ss', s.mergePrev (fuel + 2) x = some (t, x') ∧ t.Loose (l₁' ++ x' :: l₂) ss' x' ∧
      s.SameList t ∧ Hole r used (l₁'.map t.block) (t.block x') (l₂.map t.block) ∧
      (∀ c ∈ (l₁'.map t.block).getLast?, c.stop ≠ (t.block x').start) ∧
      t.stop x' = s.stop x ∧ l₂.map t.block = l₂.map s.block := by
  obtain ⟨t, l, x', ss', hrun, hloose, hsame, hcase⟩ := h.mergePrev fuel hole.gapsLeft
  obtain ⟨rfl, rfl, rfl, hne⟩ | ⟨rfl, hstop, hblock, hothers⟩ := hcase
  · exact ⟨t, l, x', ss', hrun, hloose, hsame, hole, by simpa using hne, rfl, rfl⟩
  · have hl : l.map t.block = l.map s.block :=
      List.map_congr_left fun v hv => hothers v (by simp [hv])
    have hl₂ : l₂.map t.block = l₂.map s.block :=
      List.map_congr_left fun v hv => hothers v (by simp [hv])
    rw [List.map_append, List.map_singleton] at hole
    obtain ⟨hole', hne⟩ := hole.joinLeft hstop
    have hend : t.stop x' = s.stop x := by
      rw [← block_stop, hblock]
      simp only [Block.stop, stop] at hstop ⊢
      omega
    refine ⟨t, l, x', ss', hrun, hloose, hsame, ?_, ?_, hend, hl₂⟩
    · rw [hl, hl₂, hblock]
      exact hole'
    · rw [hl, hblock]
      exact hne

theorem Loose.mergeNext_hole (h : s.Loose (l₁ ++ x :: l₂) ss x) (fuel : ℕ)
    (hole : Hole r used (l₁.map s.block) (s.block x) (l₂.map s.block))
    (hleft : ∀ c ∈ (l₁.map s.block).getLast?, c.stop ≠ (s.block x).start)
    (hintact : ∀ y ∈ l₂.head?, s.stop x = s.address y → ∀ n, (s.scribble y n).next = n.next) :
    ∃ t l₂' ss', s.mergeNext (fuel + 2) x (s.next x) = some t ∧
      t.Loose (l₁ ++ x :: l₂') ss' x ∧ s.SameList t ∧
      Hole r used (l₁.map t.block) (t.block x) (l₂'.map t.block) ∧
      Gaps ((l₁ ++ x :: l₂').map t.block) := by
  obtain ⟨t, l, ss', hrun, hloose, hsame, hcase⟩ :=
    h.mergeNext fuel hole.gapsRight hintact
  obtain ⟨rfl, rfl, hne⟩ | ⟨y, rfl, hstop, hblock, hothers⟩ := hcase
  · refine ⟨t, l, ss', hrun, hloose, hsame, hole, ?_⟩
    rw [List.map_append]
    exact hole.gaps hleft (by simpa using hne)
  · have hl₁ : l₁.map t.block = l₁.map s.block :=
      List.map_congr_left fun v hv => hothers v (by simp [hv])
    have hl : l.map t.block = l.map s.block :=
      List.map_congr_left fun v hv => hothers v (by simp [hv])
    rw [List.map_cons] at hole
    obtain ⟨hole', hne⟩ := hole.joinRight hstop
    refine ⟨t, l, ss', hrun, hloose, hsame, ?_, ?_⟩
    · rw [hl₁, hl, hblock]
      exact hole'
    · rw [List.map_append, List.map_cons, hl₁, hl, hblock]
      exact hole'.gaps hleft hne

theorem InStep.newNode (h : s.InStep l ss) (a : ℤ) (n : ℕ) :
    (s.newNode a n).InStep l ss ∧ l.map (s.newNode a n).block = l.map s.block := by
  have hne : ∀ y ∈ s.node :: (l ++ ss), y ≠ s.fresh := fun y hy => (h.allocated y hy).2.ne
  have hss : ∀ y ∈ s.node :: ss, y ≠ s.fresh := fun y hy => hne y (by
    simp only [List.mem_cons, List.mem_append] at hy ⊢; tauto)
  refine ⟨⟨⟨h.byAddress, h.bySize.congr (fun y hy => ?_) (fun y hy => ?_), fun y hy => ?_, ?_⟩,
    h.perm, h.sorted.imp_of_mem fun {y z} hy hz hyz => ?_⟩, List.map_congr_left fun y hy => ?_⟩
  · exact Function.update_of_ne (hss y hy) ..
  · exact Function.update_of_ne (hss y hy) ..
  · exact (h.allocated y hy).imp_right Nat.lt_succ_of_lt
  · exact (Function.update_of_ne (hne s.node (by simp)) ..).trans h.base
  · have hy := hss y (List.mem_cons_of_mem _ hy)
    have hz := hss z (List.mem_cons_of_mem _ hz)
    simpa [Smaller, Freelist.newNode, hy, hz] using hyz
  · have hy := hne y (by simp [hy])
    simp [Freelist.block, Freelist.newNode, hy]

theorem not_of_mem_dropWhile {p : ℕ → Bool} (h : l.Pairwise fun y z => p z → p y)
    (hy : y ∈ l.dropWhile p) : ¬p y := by
  induction l with
  | nil => simp at hy
  | cons z l ih =>
    obtain ⟨hz, hl⟩ := List.pairwise_cons.mp h
    by_cases hpz : p z
    · rw [List.dropWhile_cons_of_pos hpz] at hy
      exact ih hl hy
    · rw [List.dropWhile_cons_of_neg hpz] at hy
      obtain rfl | hy := List.mem_cons.mp hy
      · exact hpz
      · exact fun hpy => hpz (hz y hy hpy)

/-- Where a block that starts at `a` goes among the free ones. -/
theorem InStep.seek (h : s.InStep l ss) (hgaps : Gaps (l.map s.block)) (a : ℤ) :
    ∃ l₁ l₂, l = l₁ ++ l₂ ∧ (∀ y ∈ l₁, s.address y < a) ∧ (∀ y ∈ l₂, a ≤ s.address y) ∧
      seekFrom s.next s.node (fun x => s.address x < a) s.fresh s.node =
        some ((s.node :: l₁).getLast (by simp)) := by
  let p : ℕ → Bool := fun y => s.address y < a
  have hsorted : l.Pairwise fun y z => p z → p y := by
    have hstart := List.pairwise_map.mp hgaps.sorted
    exact hstart.imp fun {y z} hyz hz => by
      simp only [p, decide_eq_true_eq] at hz ⊢
      exact hyz.trans hz
  refine ⟨l.takeWhile p, l.dropWhile p, List.takeWhile_append_dropWhile.symm, fun y hy => ?_,
    fun y hy => ?_, h.byAddress.linked.seekFrom_eq h.byAddress.notMem h.length_lt.1⟩
  · simpa [p] using List.mem_takeWhile_imp hy
  · simpa [p] using not_of_mem_dropWhile hsorted hy

/-- A loose block is joined with both neighbours, and then put in its place by size. -/
theorem Loose.internalMerge (h : s.Loose (l₁ ++ x :: l₂) ss x) (hfresh : 2 ≤ s.fresh)
    (hole : Hole r used (l₁.map s.block) (s.block x) (l₂.map s.block))
    (hintact : ∀ y ∈ l₂.head?, s.stop x = s.address y → ∀ m, (s.scribble y m).next = m.next) :
    ∃ t l' ss', s.internalMerge x = some t ∧ t.InStep l' ss' ∧ t.scribble = s.scribble ∧
      Tiles r (l'.map t.block ++ used) ∧ Gaps (l'.map t.block) ∧
      ∀ b ∈ l'.map t.block, 0 < b.length := by
  obtain ⟨k, hk⟩ : ∃ k, s.fresh = k + 2 := ⟨s.fresh - 2, by omega⟩
  obtain ⟨s₁, l₁', x', ss₁, hprev, hloose₁, hsame₁, hole₁, hne₁, hstop₁, hblocks₁⟩ :=
    h.mergePrev_hole k hole
  have hintact₁ : ∀ y ∈ l₂.head?, s₁.stop x' = s₁.address y →
      ∀ m, (s₁.scribble y m).next = m.next := fun y hy he m => by
    have haddress : s₁.address y = s.address y :=
      congrArg Block.start (List.map_inj_left.mp hblocks₁ y (List.mem_of_mem_head? hy))
    rw [hsame₁.scribble]
    exact hintact y hy (by rw [← hstop₁, he, haddress]) m
  obtain ⟨s₂, l₂', ss₂, hnext, hloose₂, hsame₂, hole₂, hgaps₂⟩ :=
    hloose₁.mergeNext_hole k hole₁ hne₁ hintact₁
  obtain ⟨t, ss', hsort, hstep, haddress, hsize, -, hscribble, -⟩ := hloose₂.sort
  have hblock : t.block = s₂.block := by
    funext y
    simp [Freelist.block, haddress, hsize]
  refine ⟨t, l₁' ++ x' :: l₂', ss', ?_, hstep, ?_, ?_, ?_, ?_⟩
  · change (s.mergePrev s.fresh x).bind _ = _
    rw [hk, hprev, Option.bind_some]
    change (s₁.mergeNext s₁.fresh x' (s₁.next x')).bind _ = _
    rw [hsame₁.fresh, hk, hnext, Option.bind_some, hsort]
  · rw [hscribble, hsame₂.scribble, hsame₁.scribble]
  · rw [hblock]
    refine hole₂.tiles.perm ?_
    simpa using (List.perm_middle.symm : (s₂.block x' :: (l₁'.map s₂.block ++
      (l₂'.map s₂.block ++ used))).Perm _)
  · rw [hblock]
    exact hgaps₂
  · rw [hblock]
    intro b hb
    refine hole₂.positive b ?_
    simp only [List.map_append, List.map_cons, List.mem_append, List.mem_cons] at hb ⊢
    tauto

/-- `freelist_free` puts a block among the free ones and joins it with both
neighbours. -/
theorem InStep.release (h : s.InStep l ss) {a : ℤ} {n : ℕ}
    (htiles : Tiles r (⟨a, n⟩ :: (l.map s.block ++ used))) (hgaps : Gaps (l.map s.block))
    (hpos : ∀ b ∈ (⟨a, n⟩ : Block) :: l.map s.block, 0 < b.length)
    (hintact : ∀ y ∈ l, s.address y = a + n → ∀ m, (s.scribble y m).next = m.next) :
    ∃ t l' ss', s.release a n = some t ∧ t.InStep l' ss' ∧ t.scribble = s.scribble ∧
      Tiles r (l'.map t.block ++ used) ∧ Gaps (l'.map t.block) ∧
      ∀ b ∈ l'.map t.block, 0 < b.length := by
  obtain ⟨h₁, hblocks⟩ := h.newNode a n
  set s₁ := s.newNode a n with hs₁
  have haddress : ∀ y ∈ l, s₁.address y = s.address y := fun y hy =>
    congrArg Block.start (List.map_inj_left.mp hblocks y hy)
  have hnew : s₁.block s.fresh = ⟨a, n⟩ := by simp [s₁, Freelist.block, Freelist.newNode]
  have hfresh : s.fresh ∉ s₁.node :: l := fun hmem =>
    Nat.lt_irrefl _ (h.allocated s.fresh (by
      rw [List.mem_cons] at hmem
      simp only [List.mem_cons, List.mem_append]
      exact hmem.imp_right .inl)).2
  have hpos' := h.allocated s.node (by simp)
  rw [← hblocks] at htiles hgaps hpos
  obtain ⟨l₁, l₂, rfl, hleft, hright, hseek⟩ := h₁.seek hgaps a
  have hole : Hole r used (l₁.map s₁.block) ⟨a, n⟩ (l₂.map s₁.block) := by
    rw [List.map_append] at htiles hgaps hpos
    refine Hole.of_sorted htiles hgaps hpos (fun c hc => ?_) (fun c hc => ?_)
    · obtain ⟨y, hy, rfl⟩ := List.mem_map.mp hc
      exact hleft y hy
    · obtain ⟨y, hy, rfl⟩ := List.mem_map.mp hc
      exact hright y hy
  have hloose := h₁.insert (x := s.fresh) hfresh ⟨by omega, Nat.lt_succ_self _⟩
    (by simp [s₁, Freelist.newNode]) rfl
  set s₂ := s₁.internalInsert ((s₁.node :: l₁).getLast (by simp)) s.fresh
  have hintact₂ : ∀ y ∈ l₂.head?, s₂.stop s.fresh = s₂.address y →
      ∀ m, (s₂.scribble y m).next = m.next := fun y hy he => by
    have hyl : y ∈ l₁ ++ l₂ := List.mem_append_right _ (List.mem_of_mem_head? hy)
    have hend : s₂.stop s.fresh = a + n := congrArg Block.stop hnew
    exact hintact y hyl (by rw [← haddress y hyl, ← hend, he]; rfl)
  have hfresh₂ : s₂.fresh = s.fresh + 1 := rfl
  obtain ⟨t, l', ss', hmerge, hstep, hscribble, hrest⟩ :=
    hloose.internalMerge (by omega) (hnew ▸ hole) hintact₂
  refine ⟨t, l', ss', ?_, hstep, hscribble, hrest⟩
  change (seekFrom s₁.next s₁.node (fun x => s₁.address x < a) s₁.fresh s₁.node).bind
    (fun node => (s₁.internalInsert node s.fresh).internalMerge s.fresh) = some t
  rw [hseek, Option.bind_some, hmerge]

/-- `freelist_alloc` takes the front of a block. -/
theorem InStep.alloc (h : s.InStep (l₁ ++ x :: l₂) ss) (n : ℕ) :
    ∃ t l' ss', s.alloc x n = some t ∧ t.InStep l' ss' ∧ t.scribble = s.scribble ∧
      l'.map t.block = l₁.map s.block ++ (s.block x).rest n ++ l₂.map s.block := by
  have hnodup := (List.nodup_cons.mp h.byAddress.nodup).2
  by_cases hlt : n < s.size x
  · let u : Freelist := { s with
      address := Function.update s.address x (s.address x + n)
      size := Function.update s.size x (s.size x - n) }
    have hloose := h.loose (x := x) (by simp)
    have hu : u.Loose (l₁ ++ x :: l₂) ss x := by
      refine ⟨⟨h.byAddress, h.bySize, h.allocated, ?_⟩, hloose.mem, hloose.detached, hloose.perm,
        hloose.sorted.imp_of_mem fun {y z} hy hz hyz => ?_⟩
      · exact (Function.update_of_ne (h.ne_node hloose.mem).symm ..).trans h.base
      · have hss := (List.nodup_cons.mp h.bySize.nodup).2
        have hy := (hss.mem_erase_iff.mp hy).1
        have hz := (hss.mem_erase_iff.mp hz).1
        simpa [Smaller, u, hy, hz] using hyz
    obtain ⟨t, ss', hsort, hstep, haddress, hsize, -, hscribble, -⟩ := hu.sort
    have hblock : ∀ v, v ≠ x → t.block v = s.block v := fun v hv => by
      simp [Freelist.block, haddress, hsize, u, hv]
    refine ⟨t, _, ss', ?_, hstep, hscribble, ?_⟩
    · rw [Freelist.alloc, if_pos hlt]
      exact hsort
    · have hrest : (s.block x).rest n = [⟨s.address x + n, s.size x - n⟩] := if_pos hlt
      rw [hrest, List.map_append, List.map_cons, List.append_assoc, List.singleton_append]
      congr 1
      · exact List.map_congr_left fun v hv => hblock v (ne_of_nodup_append hnodup (by simp [hv]))
      · congr 1
        · simp [Freelist.block, haddress, hsize, u]
        · exact List.map_congr_left fun v hv =>
            hblock v (ne_of_nodup_append hnodup (by simp [hv]))
  · have hx : x ∈ l₁ ++ x :: l₂ := by simp
    obtain ⟨hrings, hsame, -, -⟩ := h.toRings.remove hx (h.loose hx).detached
    rw [erase_middle hnodup] at hrings
    set t := s.internalRemove x
    have hblock : ∀ v ∈ l₁ ++ l₂, t.block v = s.block v := fun v hv => by
      have hv := ne_of_nodup_append hnodup hv
      simp [Freelist.block, hsame.address v hv, hsame.size v hv]
    have hss := (List.nodup_cons.mp h.bySize.nodup).2
    refine ⟨t, l₁ ++ l₂, ss.erase x, ?_, ⟨hrings, ?_, ?_⟩, hsame.scribble, ?_⟩
    · rw [Freelist.alloc, if_neg hlt]
    · exact erase_middle hnodup ▸ h.perm.erase x
    · refine (h.sorted.sublist List.erase_sublist).imp_of_mem fun {y z} hy hz hyz => ?_
      have hy := (hss.mem_erase_iff.mp hy).1
      have hz := (hss.mem_erase_iff.mp hz).1
      rw [Smaller, hsame.size y hy, hsame.size z hz]
      exact hyz
    · have hrest : (s.block x).rest n = [] := if_neg hlt
      rw [hrest, List.append_nil, ← List.map_append]
      exact List.map_congr_left hblock

theorem InStep.blocks (h : s.InStep l ss) : s.blocks = some (l.map s.block) := by
  rw [Freelist.blocks, h.byAddress.linked.nodesFrom_eq h.byAddress.notMem h.length_lt.1]
  rfl

/-- What `find?` returns comes first among those that satisfy `p`. -/
theorem find?_first {p : ℕ → Bool} {r : ℕ → ℕ → Prop} (h : l.Pairwise r) (hx : l.find? p = some x)
    (hy : y ∈ l) (hp : p y) (hyx : y ≠ x) : r x y := by
  obtain ⟨-, l₁, l₂, rfl, hl₁⟩ := List.find?_eq_some_iff_append.mp hx
  have hcons := (List.pairwise_append.mp h).2.1
  obtain hy | hy := List.mem_append.mp hy
  · exact absurd hp (by simpa using hl₁ y hy)
  · exact (List.pairwise_cons.mp hcons).1 y ((List.mem_cons.mp hy).resolve_left hyx)

/-- The last node by size is a largest one. -/
theorem InStep.size_le (h : s.InStep l ss) (hy : y ∈ l) : s.size y ≤ s.size (s.smaller s.node) := by
  have hyss : y ∈ ss := h.perm.mem_iff.mpr hy
  have hlast : s.smaller s.node = ss.getLast (List.ne_nil_of_mem hyss) := by
    rw [h.bySize.prev_eq, List.getLast_cons (List.ne_nil_of_mem hyss)]
  rw [hlast]
  obtain ⟨l₁, x, rfl⟩ := (List.eq_nil_or_concat' ss).resolve_left (List.ne_nil_of_mem hyss)
  rw [List.getLast_append_singleton]
  obtain hy | hy := List.mem_append.mp hyss
  · exact (List.pairwise_append.mp h.sorted).2.2 y hy x (by simp)
  · rw [List.mem_singleton.mp hy]

/-- A policy takes from the block it is for, and finds none only where none is large
enough. -/
theorem InStep.policy (h : s.InStep l ss) (hgaps : Gaps (l.map s.block)) (policy : Policy) {n : ℕ}
    (hn : 0 < n) :
    ((∀ x ∈ l, s.size x < n) ∧ policy.run s n = some (s, -1)) ∨
      ∃ x ∈ l, n ≤ s.size x ∧ policy.Picks (l.map s.block) n (s.block x) ∧
        policy.run s n = (s.alloc x n).map fun t => (t, s.address x) := by
  have hfrom (x : ℕ) : s.allocFrom n (some x) = (s.alloc x n).map fun t => (t, s.address x) := by
    simp [allocFrom, Option.map_eq_bind]
  cases policy with
  | firstFit =>
    have hfind := h.byAddress.linked.findFrom_eq (p := fun x => decide (n ≤ s.size x))
      h.byAddress.notMem h.length_lt.1
    cases hx : l.find? fun x => decide (n ≤ s.size x) with
    | none =>
      refine .inl ⟨fun x hxl => ?_, by simp [Policy.run, firstFit, hfind, hx, allocFrom]⟩
      simpa using List.find?_eq_none.mp hx x hxl
    | some x =>
      refine .inr ⟨x, List.mem_of_find?_eq_some hx, by simpa using List.find?_some hx, ?_, ?_⟩
      · intro c hc hle
        obtain ⟨y, hy, rfl⟩ := List.mem_map.mp hc
        by_cases hyx : y = x
        · rw [hyx]
        · have hstart := List.pairwise_map.mp hgaps.sorted
          exact (find?_first hstart hx hy (by simpa using hle) hyx).le
      · simp [Policy.run, firstFit, hfind, hx, hfrom]
  | bestFit =>
    have hfind := h.bySize.linked.findFrom_eq (p := fun x => decide (n ≤ s.size x))
      h.bySize.notMem h.length_lt.2
    cases hx : ss.find? fun x => decide (n ≤ s.size x) with
    | none =>
      refine .inl ⟨fun x hxl => ?_, by simp [Policy.run, bestFit, hfind, hx, allocFrom]⟩
      simpa using List.find?_eq_none.mp hx x (h.perm.mem_iff.mpr hxl)
    | some x =>
      refine .inr ⟨x, h.perm.mem_iff.mp (List.mem_of_find?_eq_some hx),
        by simpa using List.find?_some hx, ?_, ?_⟩
      · intro c hc hle
        obtain ⟨y, hy, rfl⟩ := List.mem_map.mp hc
        by_cases hyx : y = x
        · rw [hyx]
        · exact find?_first (r := s.Smaller) h.sorted hx (h.perm.mem_iff.mpr hy)
            (by simpa using hle) hyx
      · simp [Policy.run, bestFit, hfind, hx, hfrom]
  | worstFit =>
    by_cases hle : n ≤ s.size (s.smaller s.node)
    · have hmem : s.smaller s.node ∈ ss := by
        have hmem := h.bySize.linked.prev_mem
        refine (List.mem_cons.mp hmem).resolve_left fun e => ?_
        rw [e, h.base] at hle
        omega
      refine .inr ⟨s.smaller s.node, h.perm.mem_iff.mp hmem, hle, ?_, ?_⟩
      · intro c hc
        obtain ⟨y, hy, rfl⟩ := List.mem_map.mp hc
        exact h.size_le hy
      · simp [Policy.run, worstFit, hle, hfrom]
    · refine .inl ⟨fun x hx => (h.size_le hx).trans_lt (not_le.mp hle), ?_⟩
      simp [Policy.run, worstFit, hle, allocFrom]

theorem InStep.blockAt (h : s.InStep l ss) (hgaps : Gaps (l.map s.block)) (hy : y ∈ l) :
    s.blockAt (s.address y) = some (some y) := by
  rw [Freelist.blockAt, h.byAddress.linked.findFrom_eq h.byAddress.notMem h.length_lt.1]
  obtain ⟨z, hz⟩ := Option.isSome_iff_exists.mp
    (List.find?_isSome.mpr ⟨y, hy, by simp⟩ :
      (l.find? fun x => decide (s.address x = s.address y)).isSome)
  have hzy : s.address z = s.address y := by simpa using List.find?_some hz
  have hne := List.pairwise_map.mp hgaps.sorted
  obtain ⟨l₁, l₂, rfl⟩ := List.append_of_mem (List.mem_of_find?_eq_some hz)
  obtain ⟨-, hcons, hl₁⟩ := List.pairwise_append.mp hne
  have hl₂ := (List.pairwise_cons.mp hcons).1
  rw [hz]
  obtain hy | hy := List.mem_append.mp hy
  · exact absurd hzy.symm (hl₁ y hy z (by simp)).ne
  · obtain rfl | hy := List.mem_cons.mp hy
    · rfl
    · exact absurd hzy (hl₂ y hy).ne

theorem create_inStep (scribble : ℕ → FreelistNode → FreelistNode) (a : ℤ) (n : ℕ) :
    (create scribble a n).InStep [2] [2] ∧ [2].map (create scribble a n).block = [⟨a, n⟩] := by
  refine ⟨⟨⟨⟨⟨rfl, rfl, rfl, rfl⟩, by simp [create]⟩, ⟨⟨rfl, rfl, rfl, rfl⟩, by simp [create]⟩,
    by simp [create], rfl⟩, List.Perm.refl _, List.pairwise_singleton _ _⟩, rfl⟩

end Freelist

end Course.Os
