import Course.Lib.LazySegmentTree
import Course.Lib.TrueRuns

/-! `OJ1528.cpp`: the rooms of a hotel, given to groups that want neighbouring ones, in a segment
tree whose nodes know how many neighbouring rooms are vacant. -/

open Course.Lib

namespace Course.Oj.Rooms

/-- `lazy` is 1 when all rooms below are vacant, 0 when none is, and 2 when that is not known. -/
structure Node where
  leftVacant : ℕ := 0
  rightVacant : ℕ := 0
  maxVacant : ℕ := 0
  left : ℕ := 0
  right : ℕ := 0
  lazy : ℕ := 1

def maxN : ℕ := 50005

structure Hotel where
  tree : ℕ → Node := fun _ => {}
  buildCnt : ℕ := 1

namespace Hotel

def set (h : Hotel) (n : ℕ) (v : Node) : Hotel := { h with tree := Function.update h.tree n v }

def pushup (h : Hotel) (n left right : ℕ) : Hotel :=
  let mid := (left + right) / 2
  let v := h.tree n
  let x := h.tree v.left
  let y := h.tree v.right
  h.set n { v with
    leftVacant :=
      if x.leftVacant = mid - left + 1 then x.leftVacant + y.leftVacant else x.leftVacant
    rightVacant :=
      if y.rightVacant = right - mid then y.rightVacant + x.rightVacant else y.rightVacant
    maxVacant := max (max x.maxVacant y.maxVacant) (y.leftVacant + x.rightVacant)
    lazy := if x.lazy ||| y.lazy = 2 ∨ x.lazy ≠ y.lazy then 2 else v.lazy }

/-- `vacant` rooms from the left, from the right and in a row. -/
def fill (h : Hotel) (n vacant lazy : ℕ) : Hotel :=
  h.set n { h.tree n with
    leftVacant := vacant
    rightVacant := vacant
    maxVacant := vacant
    lazy := lazy }

/-- The children of a leaf are both the node at 0, which says nothing. -/
def pushdown (h : Hotel) (n left right : ℕ) : Hotel :=
  let mid := (left + right) / 2
  let v := h.tree n
  if v.lazy = 1 then (h.fill v.left (mid - left + 1) 1).fill v.right (right - mid) 1
  else if v.lazy = 0 then (h.fill v.left 0 0).fill v.right 0 0
  else h

/-- The children of `n` get the next two places. -/
def branch (h : Hotel) (n : ℕ) : Hotel :=
  { h.set n { h.tree n with left := h.buildCnt + 1, right := h.buildCnt + 2 } with
    buildCnt := h.buildCnt + 2 }

/-- There are `maxN << 2` places. -/
def build : ℕ → Hotel → ℕ → ℕ → ℕ → Option Hotel
  | 0, _, _, _, _ => none
  | fuel + 1, h, n, left, right =>
    if maxN * 4 ≤ n then none
    else if left = right then
      some (h.set n { h.tree n with leftVacant := 1, maxVacant := 1, rightVacant := 1 })
    else do
      let mid := (left + right) / 2
      let h := h.branch n
      let h ← build fuel h (h.tree n).left left mid
      let h ← build fuel h (h.tree n).right (mid + 1) right
      return h.pushup n left right

def change (changLeft changeRight : ℕ) (op : Bool) : ℕ → Hotel → ℕ → ℕ → ℕ → Option Hotel
  | 0, _, _, _, _ => none
  | fuel + 1, h, n, left, right =>
    let h := h.pushdown n left right
    if changLeft ≤ left ∧ right ≤ changeRight then
      some (h.fill n (if op then right - left + 1 else 0) op.toNat)
    else if changeRight < left ∨ right < changLeft then some h
    else do
      let mid := (left + right) / 2
      let h ← change changLeft changeRight op fuel h (h.tree n).left left mid
      let h ← change changLeft changeRight op fuel h (h.tree n).right (mid + 1) right
      return h.pushup n left right

/-- `none` stands for -1. -/
def query (len : ℕ) : ℕ → Hotel → ℕ → ℕ → ℕ → Option (Option ℕ × Hotel)
  | 0, _, _, _, _ => none
  | fuel + 1, h, n, left, right =>
    let h := h.pushdown n left right
    if (h.tree n).maxVacant < len then some (none, h)
    else if len ≤ (h.tree n).leftVacant then some (some left, h)
    else do
      let mid := (left + right) / 2
      let (leftQuery, h) ← query len fuel h (h.tree n).left left mid
      if leftQuery.isSome then return (leftQuery, h)
      else if len ≤ (h.tree (h.tree n).left).rightVacant + (h.tree (h.tree n).right).leftVacant then
        return (some (mid - (h.tree (h.tree n).left).rightVacant + 1), h)
      else query len fuel h (h.tree n).right (mid + 1) right

end Hotel

/-- The operations of the input; others are ignored. -/
inductive Op
  | checkIn (D : ℕ)
  | checkOut (X D : ℕ)
  | other

/-- `while (M--)`: the lines of the output. -/
def serve (N : ℕ) : List Op → Hotel → Option (List ℕ)
  | [], _ => some []
  | .checkIn D :: ops, h => do
    match ← h.query D N 1 1 N with
    | (some res, h) => return res :: (← serve N ops (← h.change res (res + D - 1) false N 1 1 N))
    | (none, h) => return 0 :: (← serve N ops h)
  | .checkOut X D :: ops, h =>
    if 2 ^ 31 ≤ X + D then none
    else do serve N ops (← h.change X (X + D - 1) true N 1 1 N)
  | .other :: ops, h => serve N ops h

/-- The recursion is never deeper than `N`. -/
def main (N : ℕ) (ops : List Op) : Option (List ℕ) := do
  serve N ops (← Hotel.build N {} 1 1 N)

/-! ### What the nodes say -/

/-- What all rooms below are, if that is known. -/
def Node.kept (v : Node) : Option Bool :=
  if v.lazy = 1 then some true else if v.lazy = 0 then some false else none

structure Node.Tells (v : Node) (xs : List Bool) : Prop where
  leftVacant : v.leftVacant = lead xs
  rightVacant : v.rightVacant = trail xs
  maxVacant : v.maxVacant = longest xs
  lazy : v.lazy ≤ 2
  kept : ∀ c, v.kept = some c → ∀ x ∈ xs, x = c

def meaning : NodeMeaning Node Bool where
  Describes := Node.Tells
  pending v b := v.kept.getD b

/-- `v` after `fill` with the number of rooms, or with 0. -/
def Node.filled (v : Node) (len : ℕ) (c : Bool) : Node :=
  { v with
    leftVacant := if c then len else 0
    rightVacant := if c then len else 0
    maxVacant := if c then len else 0
    lazy := c.toNat }

namespace Node

variable {v x y : Node} {xs ys : List Bool} {c : Bool} {len : ℕ}

@[simp]
theorem kept_filled : (v.filled len c).kept = some c := by
  cases c <;> rfl

theorem filled_tells (hxs : ∀ x ∈ xs, x = c) : (v.filled xs.length c).Tells xs where
  leftVacant := (lead_of_forall hxs).symm
  rightVacant := (trail_of_forall hxs).symm
  maxVacant := (longest_of_forall hxs).symm
  lazy := (Bool.toNat_le c).trans (Nat.le_succ 1)
  kept d hd x hx := by
    rw [kept_filled, Option.some_inj] at hd
    rw [hxs x hx, hd]

theorem Tells.pending (h : v.Tells xs) {b : Bool} (hb : b ∈ xs) : meaning.pending v b = b := by
  cases hk : v.kept with
  | none => simp [meaning, hk]
  | some c => simp [meaning, hk, h.kept c hk b hb]

/-- What `pushup` makes of a node that is for `lx` rooms on the left and `ly` on the right. -/
def pulled (v x y : Node) (lx ly : ℕ) : Node :=
  { v with
    leftVacant := if x.leftVacant = lx then x.leftVacant + y.leftVacant else x.leftVacant
    rightVacant := if y.rightVacant = ly then y.rightVacant + x.rightVacant else y.rightVacant
    maxVacant := max (max x.maxVacant y.maxVacant) (y.leftVacant + x.rightVacant)
    lazy := if x.lazy ||| y.lazy = 2 ∨ x.lazy ≠ y.lazy then 2 else v.lazy }

/-- A node keeps what it has kept when both children say the same of their rooms. -/
theorem kept_pulled {lx ly : ℕ} (hx : x.lazy ≤ 2) (hc : (v.pulled x y lx ly).kept = some c) :
    v.kept = some c ∧ ∃ d, x.kept = some d ∧ y.kept = some d := by
  have hlazy : (v.pulled x y lx ly).lazy =
    if x.lazy ||| y.lazy = 2 ∨ x.lazy ≠ y.lazy then 2 else v.lazy := rfl
  split at hlazy
  · rw [kept, hlazy] at hc
    exact absurd hc (by simp)
  next hsame =>
    rw [not_or, not_not] at hsame
    obtain ⟨hor, heq⟩ := hsame
    rw [← heq, Nat.or_self] at hor
    refine ⟨by rwa [kept, hlazy] at hc, ?_⟩
    have hcases : x.lazy = 0 ∨ x.lazy = 1 := by omega
    rcases hcases with h | h
    · exact ⟨false, by rw [kept, h]; rfl, by rw [kept, ← heq, h]; rfl⟩
    · exact ⟨true, by rw [kept, h]; rfl, by rw [kept, ← heq, h]; rfl⟩

/-- The children say what their parent needs to know, if it has kept nothing that is wrong. -/
theorem Tells.pulled (hx : x.Tells xs) (hy : y.Tells ys) (hv : v.lazy ≤ 2)
    (hkept : ∀ c, v.kept = some c → c ∈ xs ++ ys) :
    (v.pulled x y xs.length ys.length).Tells (xs ++ ys) where
  leftVacant := by
    rw [lead_append, ← hx.leftVacant, ← hy.leftVacant]
    rfl
  rightVacant := by
    rw [trail_append, ← hx.rightVacant, ← hy.rightVacant]
    rfl
  maxVacant := by
    rw [longest_append, ← hx.maxVacant, ← hy.maxVacant, ← hx.rightVacant, ← hy.leftVacant]
    rfl
  lazy := by
    change (if _ then 2 else v.lazy) ≤ 2
    split
    · exact le_rfl
    · exact hv
  kept c hc := by
    obtain ⟨hvc, d, hxd, hyd⟩ := kept_pulled hx.lazy hc
    have hall : ∀ z ∈ xs ++ ys, z = d := by
      intro z hz
      rcases List.mem_append.mp hz with hz | hz
      · exact hx.kept d hxd z hz
      · exact hy.kept d hyd z hz
    rw [hall c (hkept c hvc)]
    exact hall

end Node

/-! ### The tree -/

open SegmentShape NodeMeaning

/-- The nodes know where their children are; those of a leaf are both at 0. -/
def Linked (t : ℕ → Node) : SegmentShape → Prop
  | leaf n => (t n).left = 0 ∧ (t n).right = 0
  | node n x y => (t n).left = x.root ∧ (t n).right = y.root ∧ Linked t x ∧ Linked t y

theorem Hotel.set_self (h : Hotel) (n : ℕ) (v : Node) : (h.set n v).tree n = v :=
  Function.update_self _ _ _

theorem Hotel.set_of_ne (h : Hotel) {n j : ℕ} (hj : j ≠ n) (v : Node) :
    (h.set n v).tree j = h.tree j :=
  Function.update_of_ne hj _ _

theorem Hotel.branch_self (h : Hotel) (n : ℕ) : (h.branch n).tree n =
    { h.tree n with left := h.buildCnt + 1, right := h.buildCnt + 2 } :=
  h.set_self n _

theorem Hotel.branch_of_ne (h : Hotel) {n j : ℕ} (hj : j ≠ n) :
    (h.branch n).tree j = h.tree j :=
  h.set_of_ne hj _

/-- `h'` has come from `h` by changes at the places of `s`, and at 0. -/
structure Changes (s : SegmentShape) (h h' : Hotel) : Prop where
  frame : ∀ j ∉ s.places, j ≠ 0 → h'.tree j = h.tree j
  links : ∀ j, (h'.tree j).left = (h.tree j).left ∧ (h'.tree j).right = (h.tree j).right

variable {h h' h'' : Hotel} {s x y : SegmentShape} {n left right : ℕ} {a : ℕ → Bool}

theorem Linked.congr {t t' : ℕ → Node} (hl : Linked t s)
    (ht : ∀ j, (t' j).left = (t j).left ∧ (t' j).right = (t j).right) : Linked t' s := by
  induction s with
  | leaf n =>
    rw [Linked, (ht n).1, (ht n).2]
    exact hl
  | node n x y ihx ihy =>
    obtain ⟨hx, hy, hlx, hly⟩ := hl
    rw [Linked, (ht n).1, (ht n).2]
    exact ⟨hx, hy, ihx hlx, ihy hly⟩

theorem Linked.frame {t t' : ℕ → Node} (hl : Linked t s) (ht : ∀ j ∈ s.places, t' j = t j) :
    Linked t' s := by
  induction s with
  | leaf n =>
    rw [Linked, ht n (List.mem_singleton_self n)]
    exact hl
  | node n x y ihx ihy =>
    obtain ⟨hx, hy, hlx, hly⟩ := hl
    rw [Linked, ht n List.mem_cons_self]
    exact ⟨hx, hy, ihx hlx fun j hj => ht j (places_left hj),
      ihy hly fun j hj => ht j (places_right hj)⟩

namespace Changes

theorem refl (s : SegmentShape) (h : Hotel) : Changes s h h :=
  ⟨fun _ _ _ => rfl, fun _ => ⟨rfl, rfl⟩⟩

theorem trans (hc : Changes s h h') (hc' : Changes s h' h'') : Changes s h h'' where
  frame j hj h0 := (hc'.frame j hj h0).trans (hc.frame j hj h0)
  links j := ⟨(hc'.links j).1.trans (hc.links j).1, (hc'.links j).2.trans (hc.links j).2⟩

theorem mono {s' : SegmentShape} (hc : Changes s h h') (hs : ∀ j ∈ s.places, j ∈ s'.places) :
    Changes s' h h' where
  frame j hj h0 := hc.frame j (fun hjs => hj (hs j hjs)) h0
  links := hc.links

/-- A tree in other places does not see the changes. -/
theorem holds (hc : Changes s h h') {s' : SegmentShape} (hh : meaning.Holds h.tree s' left right a)
    (hs : ∀ j ∈ s'.places, j ∉ s.places) (h0 : 0 ∉ s'.places) :
    meaning.Holds h'.tree s' left right a :=
  hh.frame fun j hj => hc.frame j (hs j hj) fun hj0 => h0 (hj0 ▸ hj)

/-- A node has changed nothing but what it tells. -/
theorem set {v : Node} (hn : n ∈ s.places ∨ n = 0) (hl : v.left = (h.tree n).left)
    (hr : v.right = (h.tree n).right) : Changes s h (h.set n v) where
  frame j hj h0 := by
    refine Function.update_of_ne ?_ _ _
    rintro rfl
    exact hn.elim hj h0
  links j := by
    by_cases hj : j = n
    · rw [hj, Hotel.set_self]
      exact ⟨hl, hr⟩
    · rw [Hotel.set_of_ne _ hj]
      exact ⟨rfl, rfl⟩

theorem fill {vacant lazy : ℕ} (hn : n ∈ s.places ∨ n = 0) :
    Changes s h (h.fill n vacant lazy) :=
  set hn rfl rfl

end Changes

namespace Hotel

theorem fill_eq (len : ℕ) (c : Bool) :
    h.fill n (if c then len else 0) c.toNat = h.set n ((h.tree n).filled len c) := rfl

theorem pushup_eq : h.pushup n left right = h.set n ((h.tree n).pulled (h.tree (h.tree n).left)
    (h.tree (h.tree n).right) ((left + right) / 2 - left + 1) (right - (left + right) / 2)) := rfl

/-- The children take what has been kept back. -/
theorem pushdown_of_kept {c : Bool} (hc : (h.tree n).kept = some c) :
    h.pushdown n left right =
      (h.fill (h.tree n).left (if c then (left + right) / 2 - left + 1 else 0) c.toNat).fill
        (h.tree n).right (if c then right - (left + right) / 2 else 0) c.toNat := by
  rw [Node.kept] at hc
  rw [pushdown]
  split at hc
  next h1 =>
    obtain rfl : true = c := Option.some_inj.mp hc
    exact if_pos h1
  next h1 =>
    split at hc
    next h0 =>
      obtain rfl : false = c := Option.some_inj.mp hc
      exact (if_neg h1).trans (if_pos h0)
    next => exact absurd hc (Option.some_ne_none c).symm

theorem pushdown_of_none (hc : (h.tree n).kept = none) : h.pushdown n left right = h := by
  rw [Node.kept] at hc
  rw [pushdown]
  split_ifs at hc ⊢ with h1 h0
  rfl

theorem pushdown_of_ne {j : ℕ} (hl : j ≠ (h.tree n).left) (hr : j ≠ (h.tree n).right) :
    (h.pushdown n left right).tree j = h.tree j := by
  cases hk : (h.tree n).kept with
  | none => rw [pushdown_of_none hk]
  | some c =>
    rw [pushdown_of_kept hk, fill, set_of_ne _ hr, fill, set_of_ne _ hl]

/-- The children of `n` are places of `s`, or both of them are 0. -/
theorem pushdown_changes (hl : (h.tree n).left ∈ s.places ∨ (h.tree n).left = 0)
    (hr : (h.tree n).right ∈ s.places ∨ (h.tree n).right = 0) :
    Changes s h (h.pushdown n left right) := by
  cases hk : (h.tree n).kept with
  | none =>
    rw [pushdown_of_none hk]
    exact Changes.refl s h
  | some c =>
    rw [pushdown_of_kept hk]
    exact (Changes.fill hl).trans (Changes.fill hr)

end Hotel

/-- The tree of a hotel at `s`, with the vacant rooms `a` from `left` to `right`. -/
structure Keeps (h : Hotel) (s : SegmentShape) (left right : ℕ) (a : ℕ → Bool) : Prop where
  holds : meaning.Holds h.tree s left right a
  linked : Linked h.tree s

/-- The places of a tree in a hotel. -/
structure Proper (s : SegmentShape) : Prop where
  nodup : s.places.Nodup
  pos : 0 ∉ s.places

namespace Keeps

theorem tells (hk : Keeps h s left right a) : (h.tree s.root).Tells (stretch a left (right + 1)) :=
  hk.holds.describes

theorem congr (hk : Keeps h s left right a) {b : ℕ → Bool}
    (hab : ∀ i, left ≤ i → i ≤ right → a i = b i) : Keeps h s left right b :=
  ⟨hk.holds.congr hab, hk.linked⟩

/-- What happens in a tree in other places is not seen. -/
theorem frame (hk : Keeps h s left right a) {s' : SegmentShape} (hc : Changes s' h h')
    (hs : ∀ j ∈ s.places, j ∉ s'.places) (h0 : 0 ∉ s.places) : Keeps h' s left right a :=
  ⟨hc.holds hk.holds hs h0, hk.linked.congr hc.links⟩

end Keeps

theorem Proper.leftChild (hs : Proper (node n x y)) : Proper x where
  nodup := (nodup_node.mp hs.nodup).2.1
  pos h0 := hs.pos (places_left h0)

theorem Proper.rightChild (hs : Proper (node n x y)) : Proper y where
  nodup := (nodup_node.mp hs.nodup).2.2
  pos h0 := hs.pos (places_right h0)

theorem Proper.apart (hs : Proper (node n x y)) : Apart n x y := (nodup_node.mp hs.nodup).1

/-- The values of a stretch that is not empty, at its two ends. -/
theorem mem_stretch {i : ℕ} (hi : left ≤ i) (hi' : i ≤ right) : a i ∈ stretch a left (right + 1) :=
  List.mem_map_of_mem (List.mem_range'_1.mpr ⟨hi, by omega⟩)

/-- A node that has kept nothing passes nothing on. -/
theorem held_of_none (hs : (node n x y).places.Nodup)
    (hheld : meaning.Holds h.tree (node n x y) left right a) (hc : (h.tree n).kept = none) :
    meaning.Holds (h.pushdown n left right).tree x left ((left + right) / 2) a ∧
      meaning.Holds (h.pushdown n left right).tree y ((left + right) / 2 + 1) right a := by
  have hid : meaning.pending (h.tree n) = id := by
    funext b
    exact congrArg (Option.getD · b) hc
  rw [Hotel.pushdown_of_none hc]
  refine hheld.push hs (fun _ _ _ _ => rfl) (fun xs _ hx => ?_) (fun ys _ hy => ?_)
    (fun z => ?_) fun z => ?_
  · rwa [hid, List.map_id]
  · rwa [hid, List.map_id]
  · rw [hid]
    rfl
  · rw [hid]
    rfl

theorem Node.filled_const (v : Node) {len : ℕ} (c : Bool) {xs : List Bool}
    (hlen : xs.length = len) :
    (v.filled len c).Tells (xs.map fun _ => c) := by
  rw [← hlen, ← List.length_map (fun _ => c)]
  refine Node.filled_tells fun z hz => ?_
  obtain ⟨-, -, rfl⟩ := List.mem_map.mp hz
  rfl

theorem Node.pending_filled (v : Node) (len : ℕ) (c z : Bool) :
    meaning.pending (v.filled len c) z = c :=
  congrArg (Option.getD · z) kept_filled

/-- Both children of a node that has kept `c` are filled with it. -/
theorem held_of_kept {c : Bool} (hs : (node n x y).places.Nodup) (hlt : left < right)
    (hl : (h.tree n).left = x.root) (hr : (h.tree n).right = y.root)
    (hheld : meaning.Holds h.tree (node n x y) left right a) (hc : (h.tree n).kept = some c) :
    meaning.Holds (h.pushdown n left right).tree x left ((left + right) / 2) a ∧
      meaning.Holds (h.pushdown n left right).tree y ((left + right) / 2 + 1) right a := by
  have hxy : x.root ≠ y.root := fun heq =>
    (nodup_node.mp hs).1.disjoint _ x.root_mem (heq ▸ y.root_mem)
  have hconst : meaning.pending (h.tree n) = fun _ => c := by
    funext b
    exact congrArg (Option.getD · b) hc
  have hx' : (h.pushdown n left right).tree x.root =
      (h.tree x.root).filled ((left + right) / 2 - left + 1) c := by
    rw [Hotel.pushdown_of_kept hc, Hotel.fill_eq, Hotel.fill_eq, hl, hr,
      Hotel.set_of_ne _ hxy, Hotel.set_self]
  have hy' : (h.pushdown n left right).tree y.root =
      (h.tree y.root).filled (right - (left + right) / 2) c := by
    rw [Hotel.pushdown_of_kept hc, Hotel.fill_eq, Hotel.fill_eq, hl, hr, Hotel.set_self,
      Hotel.set_of_ne _ hxy.symm]
  refine hheld.push hs (fun j _ hjx hjy => Hotel.pushdown_of_ne (hl ▸ hjx) (hr ▸ hjy))
    (fun xs hxs _ => ?_) (fun ys hys _ => ?_) (fun z => ?_) fun z => ?_
  · rw [hx', hconst]
    exact Node.filled_const _ c (by omega)
  · rw [hy', hconst]
    exact Node.filled_const _ c hys
  · rw [hx', hconst]
    exact Node.pending_filled _ _ c z
  · rw [hy', hconst]
    exact Node.pending_filled _ _ c z

/-- `pushdown` at a node that has children. -/
theorem pushdown_spec (hs : Proper (node n x y)) (hlt : left < right)
    (hk : Keeps h (node n x y) left right a) :
    Keeps (h.pushdown n left right) x left ((left + right) / 2) a ∧
      Keeps (h.pushdown n left right) y ((left + right) / 2 + 1) right a ∧
      (h.pushdown n left right).tree n = h.tree n ∧
      Changes (node n x y) h (h.pushdown n left right) := by
  obtain ⟨hl, hr, hlx, hly⟩ := hk.linked
  have hap := hs.apart
  have hnx : n ≠ x.root := fun hn => hap.left (hn ▸ x.root_mem)
  have hny : n ≠ y.root := fun hn => hap.right (hn ▸ y.root_mem)
  have hchanges : Changes (node n x y) h (h.pushdown n left right) :=
    Hotel.pushdown_changes (.inl (hl ▸ places_left x.root_mem))
      (.inl (hr ▸ places_right y.root_mem))
  have hheld : meaning.Holds (h.pushdown n left right).tree x left ((left + right) / 2) a ∧
      meaning.Holds (h.pushdown n left right).tree y ((left + right) / 2 + 1) right a := by
    cases hc : (h.tree n).kept with
    | none => exact held_of_none hs.nodup hk.holds hc
    | some c => exact held_of_kept hs.nodup hlt hl hr hk.holds hc
  exact ⟨⟨hheld.1, hlx.congr hchanges.links⟩, ⟨hheld.2, hly.congr hchanges.links⟩,
    Hotel.pushdown_of_ne (hl ▸ hnx) (hr ▸ hny), hchanges⟩

/-- A node that is as it was, over children that have the rooms it knew. -/
theorem Keeps.pull (hk : Keeps h (node n x y) left right a)
    (hx : Keeps h' x left ((left + right) / 2) a)
    (hy : Keeps h' y ((left + right) / 2 + 1) right a) (hn : h'.tree n = h.tree n) :
    Keeps h' (node n x y) left right a := by
  have htells : (h.tree n).Tells _ := hk.tells
  obtain ⟨hl, hr, -, -⟩ := hk.linked
  refine ⟨hx.holds.pull hy.holds ?_ fun i hi hi' => ?_, ?_⟩
  · rw [hn]
    exact htells
  · rw [hn]
    exact htells.pending (mem_stretch hi hi')
  · rw [Linked, hn]
    exact ⟨hl, hr, hx.linked, hy.linked⟩

/-- `pushup` at a node whose children know their rooms. -/
theorem pushup_spec (hs : Proper (node n x y)) (hlt : left < right)
    (hl : (h.tree n).left = x.root) (hr : (h.tree n).right = y.root)
    (hx : Keeps h x left ((left + right) / 2) a) (hy : Keeps h y ((left + right) / 2 + 1) right a)
    (hlazy : (h.tree n).lazy ≤ 2)
    (hkept : ∀ c, (h.tree n).kept = some c → c ∈ stretch a left (right + 1)) :
    Keeps (h.pushup n left right) (node n x y) left right a ∧
      Changes (node n x y) h (h.pushup n left right) := by
  have hap := hs.apart
  have hsplit : stretch a left (right + 1) =
      stretch a left ((left + right) / 2 + 1) ++ stretch a ((left + right) / 2 + 1) (right + 1) :=
    (stretch_append (by omega) (by omega)).symm
  rw [Hotel.pushup_eq, hl, hr]
  have hchanges : Changes (node n x y) h (h.set n ((h.tree n).pulled (h.tree x.root)
      (h.tree y.root) ((left + right) / 2 - left + 1) (right - (left + right) / 2))) :=
    Changes.set (.inl List.mem_cons_self) rfl rfl
  have htells := hx.tells.pulled hy.tells hlazy (hsplit ▸ hkept)
  rw [length_stretch, length_stretch, ← hsplit,
    show (left + right) / 2 + 1 - left = (left + right) / 2 - left + 1 by omega,
    show right + 1 - ((left + right) / 2 + 1) = right - (left + right) / 2 by omega] at htells
  refine ⟨⟨?_, ?_⟩, hchanges⟩
  · refine Holds.pull (hx.holds.frame fun j hj => Hotel.set_of_ne _ ?_ _)
      (hy.holds.frame fun j hj => Hotel.set_of_ne _ ?_ _) ?_ fun i hi hi' => ?_
    · rintro rfl
      exact hap.left hj
    · rintro rfl
      exact hap.right hj
    · rw [Hotel.set_self]
      exact htells
    · rw [Hotel.set_self]
      exact htells.pending (mem_stretch hi hi')
  · rw [Linked, (hchanges.links n).1, (hchanges.links n).2]
    exact ⟨hl, hr, hx.linked.congr hchanges.links, hy.linked.congr hchanges.links⟩

/-- `pushdown` at a leaf only writes to 0. -/
theorem pushdown_leaf (hs : Proper (leaf n)) (hk : Keeps h (leaf n) left right a) :
    Keeps (h.pushdown n left right) (leaf n) left right a ∧
      Changes (leaf n) h (h.pushdown n left right) := by
  obtain ⟨hl, hr⟩ := hk.linked
  have hn : n ≠ 0 := fun h0 => hs.pos (h0 ▸ List.mem_singleton_self n)
  have hchanges : Changes (leaf n) h (h.pushdown n left right) :=
    Hotel.pushdown_changes (.inr hl) (.inr hr)
  refine ⟨⟨hk.holds.frame fun j hj => ?_, hk.linked.congr hchanges.links⟩, hchanges⟩
  obtain rfl := List.mem_singleton.mp hj
  exact Hotel.pushdown_of_ne (hl ▸ hn) (hr ▸ hn)

/-! ### Changes of stretches -/

variable {lo hi fuel : ℕ}

theorem fill_spec (op : Bool) (hs : Proper s) (hk : Keeps h s left right a) (hle : left ≤ right)
    (hlo : lo ≤ left) (hhi : right ≤ hi) :
    Keeps (h.fill s.root (if op then right - left + 1 else 0) op.toNat) s left right
        (onRange (fun _ => op) lo hi a) ∧
      Changes s h (h.fill s.root (if op then right - left + 1 else 0) op.toNat) := by
  have hchanges : Changes s h (h.fill s.root (if op then right - left + 1 else 0) op.toNat) :=
    Changes.fill (.inl s.root_mem)
  refine ⟨⟨?_, hk.linked.congr hchanges.links⟩, hchanges⟩
  have hcovered : meaning.Holds (h.fill s.root (if op then right - left + 1 else 0) op.toNat).tree
      s left right ((fun _ => op) ∘ a) := by
    rw [Hotel.fill_eq]
    refine hk.holds.cover hs.nodup (fun j hj => Hotel.set_of_ne _ hj _) ?_ fun z => ?_
    · rw [Hotel.set_self]
      exact Node.filled_const _ op (by rw [length_stretch]; omega)
    · rw [Hotel.set_self]
      exact Node.pending_filled _ _ op z
  exact hcovered.congr fun i hi hi' => (if_pos ⟨hlo.trans hi, hi'.trans hhi⟩).symm

theorem change_leaf (lo hi : ℕ) (op : Bool) (hs : Proper (leaf n))
    (hk : Keeps h (leaf n) left left a) :
    ∃ h', h.change lo hi op (fuel + 1) n left left = some h' ∧
      Keeps h' (leaf n) left left (onRange (fun _ => op) lo hi a) ∧ Changes (leaf n) h h' := by
  obtain ⟨hk₁, hc₁⟩ := pushdown_leaf hs hk
  rw [Hotel.change]
  by_cases hcov : lo ≤ left ∧ left ≤ hi
  · rw [if_pos hcov]
    obtain ⟨hk₂, hc₂⟩ := fill_spec op hs hk₁ le_rfl hcov.1 hcov.2
    exact ⟨_, rfl, hk₂, hc₁.trans hc₂⟩
  · rw [if_neg hcov, if_pos (by omega)]
    refine ⟨_, rfl, hk₁.congr fun i hi hi' => (if_neg ?_).symm, hc₁⟩
    omega

/-- A change makes the rooms of its stretch vacant, or none of them. -/
theorem change_spec (lo hi : ℕ) (op : Bool) (hs : Proper s) (hspans : s.Spans left right)
    (hfuel : right - left < fuel) (hk : Keeps h s left right a) :
    ∃ h', h.change lo hi op fuel s.root left right = some h' ∧
      Keeps h' s left right (onRange (fun _ => op) lo hi a) ∧ Changes s h h' := by
  induction s generalizing h left right fuel with
  | leaf n =>
    obtain ⟨fuel, rfl⟩ := Nat.exists_eq_succ_of_ne_zero (Nat.ne_zero_of_lt hfuel)
    obtain rfl : left = right := hspans
    exact change_leaf lo hi op hs hk
  | node n x y ihx ihy =>
    obtain ⟨fuel, rfl⟩ := Nat.exists_eq_succ_of_ne_zero (Nat.ne_zero_of_lt hfuel)
    obtain ⟨hlt, hsx, hsy⟩ := hspans
    have hap := hs.apart
    have hn0 : n ≠ 0 := fun h0 => hs.pos (h0 ▸ List.mem_cons_self)
    obtain ⟨hkx, hky, hn, hc₁⟩ := pushdown_spec hs hlt hk
    obtain ⟨hl, hr, -, -⟩ := hk.linked
    have htells := hk.tells
    have hpull := hk.pull hkx hky hn
    rw [root, Hotel.change]
    by_cases hcov : lo ≤ left ∧ right ≤ hi
    · rw [if_pos hcov]
      obtain ⟨hk₂, hc₂⟩ := fill_spec op hs hpull hlt.le hcov.1 hcov.2
      exact ⟨_, rfl, hk₂, hc₁.trans hc₂⟩
    · rw [if_neg hcov]
      by_cases hout : hi < left ∨ right < lo
      · rw [if_pos hout]
        refine ⟨_, rfl, hpull.congr fun i hi hi' => (if_neg ?_).symm, hc₁⟩
        omega
      · rw [if_neg hout]
        obtain ⟨h₂, hh₂, hx₂, hc₂⟩ := ihx hs.leftChild hsx
          (show (left + right) / 2 - left < fuel by omega) hkx
        obtain ⟨h₃, hh₃, hy₃, hc₃⟩ := ihy hs.rightChild hsy
          (show right - ((left + right) / 2 + 1) < fuel by omega)
          (hky.frame hc₂ (fun j hj hjx => hap.disjoint j hjx hj) hs.rightChild.pos)
        have hx₃ := hx₂.frame hc₃ hap.disjoint hs.leftChild.pos
        have hn₂ : h₂.tree n = h.tree n := (hc₂.frame n hap.left hn0).trans hn
        have hn₃ : h₃.tree n = h.tree n := (hc₃.frame n hap.right hn0).trans hn₂
        -- a room that the change leaves out is what the node has kept
        have hkept : ∀ c, (h₃.tree n).kept = some c →
            c ∈ stretch (onRange (fun _ => op) lo hi a) left (right + 1) := by
          intro c hc
          rw [hn₃] at hc
          have hout : ∀ i, left ≤ i → i ≤ right → ¬(lo ≤ i ∧ i ≤ hi) →
              c ∈ stretch (onRange (fun _ => op) lo hi a) left (right + 1) := by
            intro i hil hir hni
            have hsame : onRange (fun _ => op) lo hi a i = a i := if_neg hni
            rw [← htells.kept c hc _ (mem_stretch hil hir), ← hsame]
            exact mem_stretch hil hir
          by_cases hlo : lo ≤ left
          · exact hout right hlt.le le_rfl (by omega)
          · exact hout left le_rfl hlt.le (by omega)
        obtain ⟨hk₄, hc₄⟩ := pushup_spec hs hlt (by rw [hn₃, hl]) (by rw [hn₃, hr]) hx₃ hy₃
          (by rw [hn₃]; exact htells.lazy) hkept
        refine ⟨_, ?_, hk₄, ((hc₁.trans (hc₂.mono fun j hj => places_left hj)).trans
          (hc₃.mono fun j hj => places_right hj)).trans hc₄⟩
        dsimp only
        rw [hn, hl, hh₂]
        simp only [Option.bind_eq_bind, Option.bind_some]
        rw [hn₂, hr, hh₃]
        rfl

/-! ### Queries -/

theorem query_leaf (len : ℕ) (hs : Proper (leaf n)) (hk : Keeps h (leaf n) left left a) :
    ∃ h', h.query len (fuel + 1) n left left =
        some ((firstFit len (stretch a left (left + 1))).map (· + left), h') ∧
      Keeps h' (leaf n) left left a ∧ Changes (leaf n) h h' := by
  obtain ⟨hk₁, hc₁⟩ := pushdown_leaf hs hk
  have htells := hk₁.tells
  rw [root] at htells
  have hone : stretch a left (left + 1) = [a left] := by
    rw [stretch_succ le_rfl, stretch_self]
    rfl
  rw [hone] at htells ⊢
  refine ⟨h.pushdown n left left, ?_, hk₁, hc₁⟩
  rw [Hotel.query]
  dsimp only
  rw [htells.maxVacant, htells.leftVacant]
  have hlongest : longest [a left] = lead [a left] := Nat.max_zero _
  by_cases hfit : len ≤ lead [a left]
  · rw [if_neg (by omega), if_pos hfit, firstFit, if_pos hfit, Option.map_some, Nat.zero_add]
  · rw [if_pos (by omega), firstFit, if_neg hfit]
    rfl

/-- A query finds the first rooms, and changes nothing but what the nodes keep back. -/
theorem query_spec (len : ℕ) (hs : Proper s) (hspans : s.Spans left right) (hpos : 0 < left)
    (hfuel : right - left < fuel) (hk : Keeps h s left right a) :
    ∃ h', h.query len fuel s.root left right =
        some ((firstFit len (stretch a left (right + 1))).map (· + left), h') ∧
      Keeps h' s left right a ∧ Changes s h h' := by
  induction s generalizing h left right fuel with
  | leaf n =>
    obtain ⟨fuel, rfl⟩ := Nat.exists_eq_succ_of_ne_zero (Nat.ne_zero_of_lt hfuel)
    obtain rfl : left = right := hspans
    exact query_leaf len hs hk
  | node n x y ihx ihy =>
    obtain ⟨fuel, rfl⟩ := Nat.exists_eq_succ_of_ne_zero (Nat.ne_zero_of_lt hfuel)
    obtain ⟨hlt, hsx, hsy⟩ := hspans
    have hap := hs.apart
    have hn0 : n ≠ 0 := fun h0 => hs.pos (h0 ▸ List.mem_cons_self)
    obtain ⟨hkx, hky, hn, hc₁⟩ := pushdown_spec hs hlt hk
    obtain ⟨hl, hr, -, -⟩ := hk.linked
    have htells : (h.tree n).Tells _ := hk.tells
    rw [root, Hotel.query]
    dsimp only
    rw [hn, htells.maxVacant, htells.leftVacant]
    by_cases hnone : longest (stretch a left (right + 1)) < len
    · rw [if_pos hnone, (firstFit_eq_none (by omega)).mpr hnone]
      exact ⟨_, rfl, hk.pull hkx hky hn, hc₁⟩
    rw [if_neg hnone]
    by_cases hfit : len ≤ lead (stretch a left (right + 1))
    · have hne : stretch a left (right + 1) ≠ [] := by
        rw [stretch_cons (by omega)]
        exact List.cons_ne_nil _ _
      rw [if_pos hfit, firstFit_of_le_lead hfit hne, Option.map_some, Nat.zero_add]
      exact ⟨_, rfl, hk.pull hkx hky hn, hc₁⟩
    rw [if_neg hfit]
    obtain ⟨h₂, hh₂, hx₂, hc₂⟩ := ihx hs.leftChild hsx hpos
      (show (left + right) / 2 - left < fuel by omega) hkx
    have hy₂ := hky.frame hc₂ (fun j hj hjx => hap.disjoint j hjx hj) hs.rightChild.pos
    have hn₂ : h₂.tree n = h.tree n := (hc₂.frame n hap.left hn0).trans hn
    have hc : Changes (node n x y) h h₂ := hc₁.trans (hc₂.mono fun j hj => places_left hj)
    have htrail := trail_le (stretch a left ((left + right) / 2 + 1))
    have hsplit : stretch a left (right + 1) =
        stretch a left ((left + right) / 2 + 1) ++ stretch a ((left + right) / 2 + 1) (right + 1) :=
      (stretch_append (by omega) (by omega)).symm
    rw [hl, hh₂]
    simp only [Option.bind_eq_bind, Option.bind_some]
    rw [hn₂, hl, hr, hx₂.tells.rightVacant, hy₂.tells.leftVacant, hsplit,
      firstFit_append (by omega), length_stretch]
    rw [length_stretch] at htrail
    cases hff : firstFit len (stretch a left ((left + right) / 2 + 1)) with
    | some k => exact ⟨h₂, rfl, hk.pull hx₂ hy₂ hn₂, hc⟩
    | none =>
      rw [Option.map_none, if_neg (by simp), Option.none_or]
      by_cases hover : len ≤ trail (stretch a left ((left + right) / 2 + 1)) +
          lead (stretch a ((left + right) / 2 + 1) (right + 1))
      · rw [if_pos hover, if_pos hover, Option.map_some]
        refine ⟨h₂, ?_, hk.pull hx₂ hy₂ hn₂, hc⟩
        rw [show (left + right) / 2 + 1 - left - trail (stretch a left ((left + right) / 2 + 1)) +
          left = (left + right) / 2 - trail (stretch a left ((left + right) / 2 + 1)) + 1 by omega]
        rfl
      · rw [if_neg hover, if_neg hover, Option.map_map]
        obtain ⟨h₃, hh₃, hy₃, hc₃⟩ := ihy hs.rightChild hsy (Nat.succ_pos _)
          (show right - ((left + right) / 2 + 1) < fuel by omega) hy₂
        refine ⟨h₃, ?_, hk.pull (hx₂.frame hc₃ hap.disjoint hs.leftChild.pos) hy₃
          ((hc₃.frame n hap.right hn0).trans hn₂), hc.trans (hc₃.mono fun j hj => places_right hj)⟩
        rw [hh₃]
        refine congrArg (fun f => some (Option.map f _, h₃)) ?_
        funext k
        rw [Function.comp_apply]
        omega

/-! ### The empty hotel -/

/-- `h'` has come from `h` by building a tree at `n`, with places that were free in `h`. -/
structure Built (h h' : Hotel) (n : ℕ) (s : SegmentShape) (left right : ℕ) : Prop where
  root : s.root = n
  spans : s.Spans left right
  proper : Proper s
  places : ∀ j ∈ s.places, j = n ∨ h.buildCnt < j ∧ j ≤ h'.buildCnt
  le : h.buildCnt ≤ h'.buildCnt
  bound : h'.buildCnt ≤ h.buildCnt + 2 * (right - left)
  keeps : Keeps h' s left right fun _ => true
  frame : ∀ j ∉ s.places, h'.tree j = h.tree j

theorem built_leaf (hn : 0 < n) (hnew : h.tree n = {}) :
    Built h (h.set n { h.tree n with leftVacant := 1, maxVacant := 1, rightVacant := 1 }) n (leaf n)
      left left where
  root := rfl
  spans := rfl
  proper := ⟨List.nodup_singleton n, fun h0 => hn.ne (List.mem_singleton.mp h0)⟩
  places j hj := .inl (List.mem_singleton.mp hj)
  le := le_rfl
  bound := Nat.le_add_right _ _
  keeps := by
    have hone : stretch (fun _ => true) left (left + 1) = [true] := by
      rw [stretch_succ le_rfl, stretch_self]
      rfl
    constructor
    · rw [Holds, Hotel.set_self, hnew, hone]
      exact ⟨rfl, rfl, rfl, Nat.le_succ 1, fun c hc x hx =>
        (List.mem_singleton.mp hx).trans (Option.some_inj.mp hc)⟩
    · rw [Linked, Hotel.set_self, hnew]
      exact ⟨rfl, rfl⟩
  frame j hj := Hotel.set_of_ne _ (fun hjn => hj (List.mem_singleton.mpr hjn)) _

theorem Built.not_mem (hb : Built h h' n s left right) {j : ℕ} (hj : j ≠ n)
    (hout : j ≤ h.buildCnt ∨ h'.buildCnt < j) : j ∉ s.places := by
  intro hmem
  have := hb.places j hmem
  omega

/-- A node over two trees that are built one after the other. -/
theorem Built.node {h₂ h₃ : Hotel} (hlt : left < right) (hn : 0 < n) (hcnt : n ≤ h.buildCnt)
    (hnew : h.tree n = {})
    (hx : Built (h.branch n) h₂ (h.buildCnt + 1) x left ((left + right) / 2))
    (hy : Built h₂ h₃ (h.buildCnt + 2) y ((left + right) / 2 + 1) right) :
    Built h (h₃.pushup n left right) n (.node n x y) left right := by
  have hcnt₁ : (h.branch n).buildCnt = h.buildCnt + 2 := rfl
  have hxle := hx.le
  have hyle := hy.le
  have hnx : n ∉ x.places := hx.not_mem (by omega) (by omega)
  have hny : n ∉ y.places := hy.not_mem (by omega) (by omega)
  have hdisj : ∀ j ∈ x.places, j ∉ y.places := by
    intro j hj
    have := hx.places j hj
    exact hy.not_mem (by omega) (by omega)
  have hn₃ : h₃.tree n = { left := h.buildCnt + 1, right := h.buildCnt + 2 } := by
    rw [hy.frame n hny, hx.frame n hnx, h.branch_self, hnew]
  have hs : Proper (.node n x y) := by
    refine ⟨nodup_node.mpr ⟨⟨hnx, hny, hdisj⟩, hx.proper.nodup, hy.proper.nodup⟩, fun h0 => ?_⟩
    rcases List.mem_cons.mp h0 with h0 | h0
    · omega
    · exact (List.mem_append.mp h0).elim hx.proper.pos hy.proper.pos
  have hkx : Keeps h₃ x left ((left + right) / 2) fun _ => true :=
    ⟨hx.keeps.holds.frame fun j hj => hy.frame j (hdisj j hj),
      hx.keeps.linked.frame fun j hj => hy.frame j (hdisj j hj)⟩
  obtain ⟨hk, -⟩ := pushup_spec hs hlt (by rw [hn₃, hx.root]) (by rw [hn₃, hy.root]) hkx hy.keeps
    (by rw [hn₃]; exact Nat.le_succ 1) fun c hc => by
      rw [hn₃] at hc
      obtain rfl : true = c := Option.some_inj.mp hc
      exact mem_stretch (a := fun _ => true) le_rfl hlt.le
  have hcnt' : (h₃.pushup n left right).buildCnt = h₃.buildCnt := rfl
  have hxbound := hx.bound
  have hybound := hy.bound
  refine ⟨rfl, ⟨hlt, hx.spans, hy.spans⟩, hs, fun j hj => ?_, by omega, by omega, hk,
    fun j hj => ?_⟩
  · rcases List.mem_cons.mp hj with hj | hj
    · exact .inl hj
    · rcases List.mem_append.mp hj with hj | hj
      · have := hx.places j hj
        omega
      · have := hy.places j hj
        omega
  · rw [SegmentShape.places, List.mem_cons, List.mem_append, not_or, not_or] at hj
    rw [Hotel.pushup_eq, Hotel.set_of_ne _ hj.1, hy.frame j hj.2.2, hx.frame j hj.2.1,
      h.branch_of_ne hj.1]

theorem build_spec (hle : left ≤ right) (hfuel : right - left < fuel)
    (hroom : h.buildCnt + 2 * (right - left) < maxN * 4) (hn : 0 < n) (hcnt : n ≤ h.buildCnt)
    (hnew : h.tree n = {}) (hfree : ∀ j, h.buildCnt < j → h.tree j = {}) :
    ∃ h' s, Hotel.build fuel h n left right = some h' ∧ Built h h' n s left right := by
  induction fuel generalizing h n left right with
  | zero => exact absurd hfuel (Nat.not_lt_zero _)
  | succ fuel ih =>
    rw [Hotel.build, if_neg (by omega)]
    rcases Nat.eq_or_lt_of_le hle with rfl | hlt
    · rw [if_pos rfl]
      exact ⟨_, leaf n, rfl, built_leaf hn hnew⟩
    rw [if_neg hlt.ne]
    have hcnt₁ : (h.branch n).buildCnt = h.buildCnt + 2 := rfl
    have hfree₁ : ∀ j, h.buildCnt < j → (h.branch n).tree j = {} := fun j hj =>
      (h.branch_of_ne (by omega)).trans (hfree j hj)
    -- the left child is at the next place, and the right one behind it
    obtain ⟨h₂, x, hh₂, hx⟩ := ih (h := h.branch n) (n := h.buildCnt + 1)
      (show left ≤ (left + right) / 2 by omega) (by omega) (by omega) (by omega) (by omega)
      (hfree₁ _ (by omega)) fun j hj => hfree₁ j (by omega)
    have hxle := hx.le
    have hxbound := hx.bound
    have hfree₂ : ∀ j, j = h.buildCnt + 2 ∨ h₂.buildCnt < j → h₂.tree j = {} := fun j hj =>
      (hx.frame j (hx.not_mem (by omega) (by omega))).trans (hfree₁ j (by omega))
    obtain ⟨h₃, y, hh₃, hy⟩ := ih (h := h₂) (n := h.buildCnt + 2)
      (show (left + right) / 2 + 1 ≤ right by omega) (by omega) (by omega) (by omega) (by omega)
      (hfree₂ _ (.inl rfl)) fun j hj => hfree₂ j (.inr hj)
    have hn₂ : h₂.tree n = (h.branch n).tree n :=
      hx.frame n (hx.not_mem (by omega) (by omega))
    refine ⟨h₃.pushup n left right, .node n x y, ?_, Built.node hlt hn hcnt hnew hx hy⟩
    dsimp only
    rw [h.branch_self, hh₂]
    simp only [Option.bind_eq_bind, Option.bind_some]
    rw [hn₂, h.branch_self, hh₃]
    rfl

/-! ### Runs -/

/-- The lines of the output, by the vacant rooms alone. -/
def answers (N : ℕ) : List Op → (ℕ → Bool) → List ℕ
  | [], _ => []
  | .checkIn D :: ops, vacant =>
    match (List.range' 1 N).find? (fitsAt vacant (N + 1) D) with
    | some res => res :: answers N ops (onRange (fun _ => false) res (res + D - 1) vacant)
    | none => 0 :: answers N ops vacant
  | .checkOut X D :: ops, vacant => answers N ops (onRange (fun _ => true) X (X + D - 1) vacant)
  | .other :: ops, vacant => answers N ops vacant

/-- No `int` overflows. -/
def Op.Fits : Op → Prop
  | .checkOut X D => X + D < 2 ^ 31
  | _ => True

theorem serve_spec {N : ℕ} (hs : Proper s) (hspans : s.Spans 1 N) (hroot : s.root = 1)
    {ops : List Op} (hops : ∀ op ∈ ops, op.Fits) (hk : Keeps h s 1 N a) :
    serve N ops h = some (answers N ops a) := by
  have hN := hspans.le
  have hchange : ∀ (h : Hotel) (a : ℕ → Bool) (lo hi : ℕ) (op : Bool), Keeps h s 1 N a →
      ∃ h', h.change lo hi op N 1 1 N = some h' ∧
        Keeps h' s 1 N (onRange (fun _ => op) lo hi a) := by
    intro h a lo hi op hk
    obtain ⟨h', hh', hk', -⟩ := change_spec lo hi op hs hspans (show N - 1 < N by omega) hk
    rw [hroot] at hh'
    exact ⟨h', hh', hk'⟩
  induction ops generalizing h a with
  | nil => rfl
  | cons op ops ih =>
    have hop := hops op List.mem_cons_self
    have hrest : ∀ op ∈ ops, op.Fits := fun op ho => hops op (List.mem_cons_of_mem _ ho)
    cases op with
    | checkIn D =>
      obtain ⟨h₁, hh₁, hk₁, -⟩ := query_spec D hs hspans Nat.one_pos
        (show N - 1 < N by omega) hk
      rw [hroot, firstFit_stretch (by omega), Nat.add_sub_cancel] at hh₁
      rw [serve, answers, hh₁]
      simp only [Option.bind_eq_bind, Option.bind_some]
      cases (List.range' 1 N).find? (fitsAt a (N + 1) D) with
      | none =>
        dsimp only
        rw [ih hrest hk₁]
        rfl
      | some res =>
        obtain ⟨h₂, hh₂, hk₂⟩ := hchange h₁ a res (res + D - 1) false hk₁
        dsimp only
        rw [hh₂, Option.bind_some, ih hrest hk₂]
        rfl
    | checkOut X D =>
      obtain ⟨h₁, hh₁, hk₁⟩ := hchange h a X (X + D - 1) true hk
      rw [serve, answers, if_neg (Nat.not_le.mpr hop), hh₁]
      exact ih hrest hk₁
    | other => exact ih hrest hk

/-- In every run a group gets the first neighbouring rooms that are vacant, and 0 when there are
none. -/
theorem rooms_answers {N : ℕ} {ops : List Op} (hN : 0 < N) (hroom : 2 * N ≤ maxN * 4)
    (hops : ∀ op ∈ ops, op.Fits) : main N ops = some (answers N ops fun _ => true) := by
  obtain ⟨h, s, hh, hb⟩ := build_spec (h := {}) (n := 1) (show 1 ≤ N from hN)
    (show N - 1 < N by omega) (show 1 + 2 * (N - 1) < maxN * 4 by omega) Nat.one_pos le_rfl rfl
    fun _ _ => rfl
  rw [main, hh]
  exact serve_spec hb.proper hb.spans hb.root hops hb.keeps

theorem rooms_answers_sixRooms :
    main 6 [.checkIn 3, .checkIn 2, .checkOut 2 2, .checkIn 2, .checkIn 2] =
      some [1, 4, 2, 0] :=
  @rooms_answers 6 [.checkIn 3, .checkIn 2, .checkOut 2 2, .checkIn 2, .checkIn 2] (by decide)
    (by decide) fun op ho => by
      simp only [List.mem_cons, List.not_mem_nil, or_false] at ho
      rcases ho with rfl | rfl | rfl | rfl | rfl
      · trivial
      · trivial
      · exact (by decide : 2 + 2 < 2 ^ 31)
      · trivial
      · trivial

end Course.Oj.Rooms
