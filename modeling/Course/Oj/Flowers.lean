import Mathlib.Algebra.BigOperators.Ring.Finset
import Mathlib.Data.ZMod.Basic
import Mathlib.Tactic.Ring
import Course.Lib.LazySegmentTree

/-! `OJ1865.cpp`: a row of numbers of flowers under additions to and multiplications of stretches,
in a segment tree that keeps both back, and the sums over stretches modulo `mod`. -/

open Course.Lib

namespace Course.Oj.Flowers

/-- The value of an expression of type `long long`, as long as nothing overflows. -/
structure LongLong where
  val : Option ℤ

namespace LongLong

/-- The value, if the type has it. -/
def ofInt (x : ℤ) : LongLong := ⟨if -2 ^ 63 ≤ x ∧ x < 2 ^ 63 then some x else none⟩

instance : Coe ℤ LongLong := ⟨fun x => ⟨some x⟩⟩

instance : Mul LongLong := ⟨fun x y => ⟨do (ofInt ((← x.val) * (← y.val))).val⟩⟩

instance : Add LongLong := ⟨fun x y => ⟨do (ofInt ((← x.val) + (← y.val))).val⟩⟩

/-- The remainder has the sign of the dividend. -/
instance : Mod LongLong :=
  ⟨fun x y => ⟨do if (← y.val) = 0 then none else return (← x.val).tmod (← y.val)⟩⟩

end LongLong

structure Node where
  flower : ℤ := 0
  lazyAdd : ℤ := 0
  lazyMult : ℤ := 1

def maxN : ℕ := 100005

/-- There are `maxN << 2` places. -/
abbrev Tree := ℕ → Node

/-- What `pushdown` makes of a child of `p` that is for `len` values. -/
def Node.passOn (mod : ℤ) (p : Node) (len : ℕ) (c : Node) : Option Node := do
  let flower ← (((c.flower : LongLong) * p.lazyMult + p.lazyAdd * (len : ℤ)) % mod).val
  let lazyAdd ← (((c.lazyAdd : LongLong) * p.lazyMult + p.lazyAdd) % mod).val
  let lazyMult ← (((c.lazyMult : LongLong) * p.lazyMult) % mod).val
  return ⟨flower, lazyAdd, lazyMult⟩

def pushdown (mod : ℤ) (t : Tree) (n left right : ℕ) : Option Tree :=
  if left = right then some t
  else if maxN * 4 ≤ 2 * n + 1 then none
  else do
    let mid := (left + right) / 2
    let t := Function.update t (2 * n) (← (t n).passOn mod (mid - left + 1) (t (2 * n)))
    let t := Function.update t (2 * n + 1) (← (t n).passOn mod (right - mid) (t (2 * n + 1)))
    return Function.update t n { t n with lazyAdd := 0, lazyMult := 1 }

/-- `(tree[n << 1].flower + tree[n << 1 | 1].flower) % mod` -/
def childrenFlower (mod : ℤ) (t : Tree) (n : ℕ) : Option ℤ :=
  if maxN * 4 ≤ 2 * n + 1 then none
  else (((t (2 * n)).flower + (t (2 * n + 1)).flower : LongLong) % mod).val

/-- `add` and `mult`, which differ in what they do at a node that is covered. -/
def update (mod : ℤ) (cover : ℕ → Node → Option Node) (lo hi : ℕ) :
    ℕ → Tree → ℕ → ℕ → ℕ → Option Tree
  | 0, _, _, _, _ => none
  | fuel + 1, t, n, left, right => do
    let t ← if maxN * 4 ≤ n then none else pushdown mod t n left right
    if lo ≤ left ∧ right ≤ hi then
      return Function.update t n (← cover (right - left + 1) (t n))
    else
      let mid := (left + right) / 2
      let t ← (if lo ≤ mid then update mod cover lo hi fuel t (2 * n) left mid else some t)
      let t ← (if mid < hi then update mod cover lo hi fuel t (2 * n + 1) (mid + 1) right
        else some t)
      let flower ← childrenFlower mod t n
      return Function.update t n { t n with flower := flower }

def addNode (mod val : ℤ) (len : ℕ) (v : Node) : Option Node := do
  let flower ← ((v.flower + ((len : ℤ) : LongLong) * val) % mod).val
  let lazyAdd ← (((v.lazyAdd : LongLong) + val) % mod).val
  return { v with flower := flower, lazyAdd := lazyAdd }

def multNode (mod val : ℤ) (v : Node) : Option Node := do
  let flower ← (((v.flower : LongLong) * val) % mod).val
  let lazyAdd ← (((v.lazyAdd : LongLong) * val) % mod).val
  let lazyMult ← (((v.lazyMult : LongLong) * val) % mod).val
  return ⟨flower, lazyAdd, lazyMult⟩

def add (mod : ℤ) (fuel : ℕ) (t : Tree) (n left right addLeft addRight : ℕ) (val : ℤ) :
    Option Tree :=
  update mod (addNode mod val) addLeft addRight fuel t n left right

def mult (mod : ℤ) (fuel : ℕ) (t : Tree) (n left right multLeft multRight : ℕ) (val : ℤ) :
    Option Tree :=
  update mod (fun _ => multNode mod val) multLeft multRight fuel t n left right

def query_sum (mod : ℤ) (lo hi : ℕ) : ℕ → Tree → ℕ → ℕ → ℕ → Option (ℤ × Tree)
  | 0, _, _, _, _ => none
  | fuel + 1, t, n, left, right => do
    let t ← if maxN * 4 ≤ n then none else pushdown mod t n left right
    if lo ≤ left ∧ right ≤ hi then
      return ((t n).flower, t)
    else
      let mid := (left + right) / 2
      if hi ≤ mid then query_sum mod lo hi fuel t (2 * n) left mid
      else if mid < lo then query_sum mod lo hi fuel t (2 * n + 1) (mid + 1) right
      else
        let (x, t) ← query_sum mod lo hi fuel t (2 * n) left mid
        let (y, t) ← query_sum mod lo hi fuel t (2 * n + 1) (mid + 1) right
        return (← (((x : LongLong) + y) % mod).val, t)

/-- The operations of the input; others are ignored. -/
inductive Op
  | mult (left right : ℕ) (updateVal : ℤ)
  | add (left right : ℕ) (updateVal : ℤ)
  | query (left right : ℕ)
  | other

/-- `for (int i = 1; i <= N; i++)`, where `flower` is an `int`. -/
def plant (N : ℕ) (mod : ℤ) : ℕ → List ℤ → Tree → Option Tree
  | _, [], t => some t
  | i, flower :: flowers, t =>
    if flower < -2 ^ 31 ∨ 2 ^ 31 ≤ flower then none
    else do plant N mod (i + 1) flowers (← add mod N t 1 1 N i i flower)

/-- `while (Q--)`: the lines of the output. -/
def serve (N : ℕ) (mod : ℤ) : List Op → Tree → Option (List ℤ)
  | [], _ => some []
  | .mult left right updateVal :: ops, t => do
    serve N mod ops (← mult mod N t 1 1 N left right updateVal)
  | .add left right updateVal :: ops, t => do
    serve N mod ops (← add mod N t 1 1 N left right updateVal)
  | .query left right :: ops, t => do
    let (sum, t) ← query_sum mod left right N t 1 1 N
    return sum :: (← serve N mod ops t)
  | .other :: ops, t => serve N mod ops t

/-- The recursion is never deeper than `N`. -/
def main (N : ℕ) (mod : ℤ) (flowers : List ℤ) (ops : List Op) : Option (List ℤ) := do
  serve N mod ops (← plant N mod 1 flowers fun _ => {})

/-! ### Arithmetic without overflow -/

namespace LongLong

variable {x y : ℤ}

theorem ofInt_of_lt (h : 0 ≤ x) (h' : x < 2 ^ 63) : ofInt x = x := by
  rw [ofInt, if_pos ⟨by omega, h'⟩]

theorem mul_coe (h : 0 ≤ x * y) (h' : x * y < 2 ^ 63) :
    (x : LongLong) * y = ((x * y : ℤ) : LongLong) :=
  ofInt_of_lt h h'

theorem add_coe (h : 0 ≤ x + y) (h' : x + y < 2 ^ 63) :
    (x : LongLong) + y = ((x + y : ℤ) : LongLong) :=
  ofInt_of_lt h h'

theorem mod_coe (h : 0 ≤ x) (hy : 0 < y) : (x : LongLong) % y = ((x % y : ℤ) : LongLong) := by
  have hne : y ≠ 0 := by omega
  have hmod : x.tmod y = x % y := Int.tmod_eq_emod_of_nonneg h
  rw [← hmod]
  exact congrArg LongLong.mk (if_neg hne)

/-- `(x * k + z) % mod` -/
theorem mul_add_mod {k z mod : ℤ} (hx : 0 ≤ x) (hk : 0 ≤ k) (hz : 0 ≤ z) (hmod : 0 < mod)
    (h : x * k + z < 2 ^ 63) : (((x : LongLong) * k + z) % mod).val = some ((x * k + z) % mod) := by
  have hxk : 0 ≤ x * k := Int.mul_nonneg hx hk
  rw [mul_coe hxk (by omega), add_coe (by omega) h, mod_coe (by omega) hmod]

theorem mul_mod {k mod : ℤ} (hx : 0 ≤ x) (hk : 0 ≤ k) (hmod : 0 < mod) (h : x * k < 2 ^ 63) :
    (((x : LongLong) * k) % mod).val = some (x * k % mod) := by
  have hxk : 0 ≤ x * k := Int.mul_nonneg hx hk
  rw [mul_coe hxk h, mod_coe hxk hmod]

theorem add_mod {mod : ℤ} (hx : 0 ≤ x) (hy : 0 ≤ y) (hmod : 0 < mod) (h : x + y < 2 ^ 63) :
    (((x : LongLong) + y) % mod).val = some ((x + y) % mod) := by
  rw [add_coe (by omega) h, mod_coe (by omega) hmod]

end LongLong

/-! ### The nodes -/

structure Node.Sound (m : ℕ) (v : Node) : Prop where
  flower : 0 ≤ v.flower ∧ v.flower < m
  lazyAdd : 0 ≤ v.lazyAdd ∧ v.lazyAdd < m
  lazyMult : 0 ≤ v.lazyMult ∧ v.lazyMult ≤ m

/-- A node has the sum of the values, and keeps a multiplication and then an addition back. -/
def meaning (m : ℕ) : NodeMeaning Node (ZMod m) where
  Describes v xs := v.Sound m ∧ (v.flower : ZMod m) = xs.sum
  pending v z := v.lazyMult * z + v.lazyAdd

/-- Nothing overflows in a tree for `N` values. -/
structure Fits (m N : ℕ) : Prop where
  pos : 0 < m
  le : (m : ℤ) * (m + N) ≤ 2 ^ 63

structure FitsVal (m N : ℕ) (val : ℤ) : Prop where
  nonneg : 0 ≤ val
  le : val * (m + N) + m ≤ 2 ^ 63

variable {m N : ℕ} {val : ℤ} {v p c : Node} {xs : List (ZMod m)} {len : ℕ}

theorem sum_map_affine (k d : ZMod m) (xs : List (ZMod m)) :
    (xs.map fun z => k * z + d).sum = k * xs.sum + d * xs.length := by
  induction xs with
  | nil => simp
  | cons z xs ih =>
    rw [List.map_cons, List.sum_cons, ih, List.sum_cons, List.length_cons]
    push_cast
    ring

theorem mod_range (x : ℤ) (hm : 0 < m) : 0 ≤ x % m ∧ x % m < m :=
  ⟨Int.emod_nonneg _ (by omega), Int.emod_lt_of_pos _ (by omega)⟩

theorem passOn_eq (hfits : Fits m N) (hp : p.Sound m) (hc : c.Sound m) (hlen : 0 < len)
    (hle : len ≤ N) :
    p.passOn m len c = some ⟨(c.flower * p.lazyMult + p.lazyAdd * len) % m,
      (c.lazyAdd * p.lazyMult + p.lazyAdd) % m, c.lazyMult * p.lazyMult % m⟩ := by
  obtain ⟨hpos, hfit⟩ := hfits
  obtain ⟨-, ⟨hpa, hpa'⟩, hpm, hpm'⟩ := hp
  obtain ⟨⟨hcf, hcf'⟩, ⟨hca, hca'⟩, hcm, hcm'⟩ := hc
  have hm : (0 : ℤ) < m := by omega
  have hflower : c.flower * p.lazyMult ≤ (m - 1) * m :=
    Int.mul_le_mul (by omega) hpm' hpm (by omega)
  have hadd : c.lazyAdd * p.lazyMult ≤ (m - 1) * m :=
    Int.mul_le_mul (by omega) hpm' hpm (by omega)
  have hmult : c.lazyMult * p.lazyMult ≤ m * m := Int.mul_le_mul hcm' hpm' hpm (by omega)
  have hlast : p.lazyAdd * len ≤ (m - 1) * N :=
    Int.mul_le_mul (by omega) (by omega) (by omega) (by omega)
  have hN : (m : ℤ) ≤ m * N := by
    have := Int.mul_le_mul_of_nonneg_left (show (1 : ℤ) ≤ N by omega) hm.le
    omega
  have hsquare : 0 < (m : ℤ) * m := Int.mul_pos hm hm
  have hlast0 : 0 ≤ p.lazyAdd * (len : ℤ) := Int.mul_nonneg hpa (by omega)
  rw [Int.sub_mul, Int.one_mul] at hflower hadd hlast
  rw [Int.mul_add] at hfit
  rw [Node.passOn, LongLong.mul_coe hlast0 (by omega),
    LongLong.mul_add_mod hcf hpm hlast0 hm (by omega),
    LongLong.mul_add_mod hca hpm hpa hm (by omega), LongLong.mul_mod hcm hpm hm (by omega)]
  rfl

/-- A child takes what its parent has kept back. -/
theorem passOn_spec (hfits : Fits m N) (hp : p.Sound m) (hc : c.Sound m) (hlen : 0 < len)
    (hle : len ≤ N) :
    ∃ c', p.passOn m len c = some c' ∧
      (∀ xs, xs.length = len → (meaning m).Describes c xs →
        (meaning m).Describes c' (xs.map ((meaning m).pending p))) ∧
      ∀ z, (meaning m).pending c' z = (meaning m).pending p ((meaning m).pending c z) := by
  have hm := hfits.pos
  refine ⟨_, passOn_eq hfits hp hc hlen hle, fun xs hxs ⟨_, hsum⟩ =>
    ⟨⟨mod_range _ hm, mod_range _ hm, ?_⟩, ?_⟩, fun z => ?_⟩
  · have := mod_range (c.lazyMult * p.lazyMult) hm
    exact ⟨this.1, this.2.le⟩
  · simp only [meaning, sum_map_affine, ZMod.intCast_mod, ← hsum, hxs]
    push_cast
    ring
  · simp only [meaning, ZMod.intCast_mod]
    push_cast
    ring

/-- What an update does at a node that is covered. -/
def Covers (m N : ℕ) (cover : ℕ → Node → Option Node) (f : ZMod m → ZMod m) : Prop :=
  ∀ len v xs, 0 < len → len ≤ N → xs.length = len → (meaning m).Describes v xs →
    ∃ v', cover len v = some v' ∧ (meaning m).Describes v' (xs.map f) ∧
      ∀ z, (meaning m).pending v' z = f ((meaning m).pending v z)

theorem addNode_covers (hfits : Fits m N) (hval : FitsVal m N val) :
    Covers m N (addNode m val) fun z => z + val := by
  intro len v xs hlen hle hxs ⟨⟨⟨hf, hf'⟩, ⟨ha, ha'⟩, hmult⟩, hsum⟩
  obtain ⟨hv, hvle⟩ := hval
  have hpos := hfits.pos
  have hm : (0 : ℤ) < m := by omega
  have hprod0 : 0 ≤ (len : ℤ) * val := Int.mul_nonneg (by omega) hv
  have hprod : (len : ℤ) * val ≤ val * (m + N) := by
    rw [Int.mul_comm]
    exact Int.mul_le_mul_of_nonneg_left (by omega) hv
  have hone : val ≤ val * (m + N) := by
    have := Int.mul_le_mul_of_nonneg_left (show (1 : ℤ) ≤ m + N by omega) hv
    omega
  refine ⟨⟨(v.flower + len * val) % m, (v.lazyAdd + val) % m, v.lazyMult⟩, ?_,
    ⟨⟨mod_range _ hpos, mod_range _ hpos, hmult⟩, ?_⟩, fun z => ?_⟩
  · rw [addNode, LongLong.mul_coe hprod0 (by omega), LongLong.add_mod hf hprod0 hm (by omega),
      LongLong.add_mod ha hv hm (by omega)]
    rfl
  · have hmap := sum_map_affine 1 (val : ZMod m) xs
    simp only [one_mul] at hmap
    rw [hmap, ZMod.intCast_mod, ← hsum, hxs]
    push_cast
    ring
  · simp only [meaning, ZMod.intCast_mod]
    push_cast
    ring

theorem multNode_covers (hfits : Fits m N) (hval : FitsVal m N val) :
    Covers m N (fun _ => multNode m val) fun z => z * val := by
  intro len v xs hlen hle hxs ⟨⟨⟨hf, hf'⟩, ⟨ha, ha'⟩, hmu, hmu'⟩, hsum⟩
  obtain ⟨hv, hvle⟩ := hval
  have hpos := hfits.pos
  have hm : (0 : ℤ) < m := by omega
  have hbound : ∀ x : ℤ, 0 ≤ x → x ≤ m → x * val < 2 ^ 63 := by
    intro x hx hxm
    have hxv : x * val ≤ (m + N) * val := Int.mul_le_mul (by omega) le_rfl hv (by omega)
    rw [Int.mul_comm ((m : ℤ) + N) val] at hxv
    omega
  refine ⟨⟨v.flower * val % m, v.lazyAdd * val % m, v.lazyMult * val % m⟩, ?_,
    ⟨⟨mod_range _ hpos, mod_range _ hpos, ?_⟩, ?_⟩, fun z => ?_⟩
  · change multNode m val v = _
    rw [multNode, LongLong.mul_mod hf hv hm (hbound _ hf hf'.le),
      LongLong.mul_mod ha hv hm (hbound _ ha ha'.le),
      LongLong.mul_mod hmu hv hm (hbound _ hmu hmu')]
    rfl
  · have := mod_range (v.lazyMult * val) hpos
    exact ⟨this.1, this.2.le⟩
  · have hmap := sum_map_affine (val : ZMod m) 0 xs
    simp only [add_zero, zero_mul] at hmap
    simp only [mul_comm _ (val : ZMod m)]
    rw [hmap, ZMod.intCast_mod, ← hsum]
    push_cast
    ring
  · simp only [meaning, ZMod.intCast_mod]
    push_cast
    ring

/-! ### The tree -/

open SegmentShape NodeMeaning

variable {t : Tree} {s x y : SegmentShape} {n left right lo hi fuel : ℕ} {a : ℕ → ZMod m}

/-- The nodes lie inside the array. -/
def InArray (s : SegmentShape) : Prop := ∀ j ∈ s.places, j < maxN * 4

namespace InArray

theorem root_lt (h : InArray s) (hheap : s.Heap n) : n < maxN * 4 :=
  hheap.root_eq ▸ h s.root s.root_mem

theorem leftChild (h : InArray (node n x y)) : InArray x := fun j hj => h j (places_left hj)

theorem rightChild (h : InArray (node n x y)) : InArray y := fun j hj => h j (places_right hj)

theorem children_lt (h : InArray (node n x y)) (hheap : (node n x y).Heap n) :
    2 * n + 1 < maxN * 4 :=
  h.rightChild.root_lt hheap.2.2

end InArray

theorem pushdown_eq {c d : Node} (hlt : left < right) (hn : 0 < n) (hroom : 2 * n + 1 < maxN * 4)
    (hc : (t n).passOn m ((left + right) / 2 - left + 1) (t (2 * n)) = some c)
    (hd : (t n).passOn m (right - (left + right) / 2) (t (2 * n + 1)) = some d) :
    pushdown m t n left right = some (Function.update (Function.update (Function.update t (2 * n) c)
      (2 * n + 1) d) n { t n with lazyAdd := 0, lazyMult := 1 }) := by
  rw [pushdown, if_neg (by omega), if_neg (Nat.not_le.mpr hroom)]
  dsimp only
  rw [hc]
  simp only [Option.bind_eq_bind, Option.bind_some]
  rw [Function.update_of_ne (show n ≠ 2 * n by omega),
    Function.update_of_ne (show 2 * n + 1 ≠ 2 * n by omega), hd, Option.bind_some,
    Function.update_of_ne (show n ≠ 2 * n + 1 by omega),
    Function.update_of_ne (show n ≠ 2 * n by omega)]
  rfl

theorem pushdown_spec (hfits : Fits m N) (hs : (node n x y).Spans left right)
    (hle : right - left < N) (hheap : (node n x y).Heap n) (hroom : InArray (node n x y))
    (hn : 0 < n) (h : (meaning m).Holds t (node n x y) left right a) :
    ∃ t', pushdown m t n left right = some t' ∧
      (meaning m).Holds t' x left ((left + right) / 2) a ∧
      (meaning m).Holds t' y ((left + right) / 2 + 1) right a ∧
      (meaning m).Describes (t' n) (stretch a left (right + 1)) ∧
      (∀ z, (meaning m).pending (t' n) z = z) ∧ ∀ j ∉ (node n x y).places, t' j = t j := by
  obtain ⟨hlt, -, -⟩ := hs
  have hnodup := hheap.nodup hn
  have hchildren := hroom.children_lt hheap
  obtain ⟨-, hx, hy⟩ := hheap
  have hxr := hx.root_eq
  have hyr := hy.root_eq
  have hdesc : (meaning m).Describes (t n) _ := h.describes
  have hp := hdesc.1
  obtain ⟨b, hbx, hby, -⟩ := h.2
  have hcx := hbx.describes.1
  have hcy := hby.describes.1
  rw [hxr] at hcx
  rw [hyr] at hcy
  obtain ⟨c, hc, hcdesc, hcpending⟩ := passOn_spec hfits hp hcx
    (show 0 < (left + right) / 2 - left + 1 by omega) (by omega)
  obtain ⟨d, hd, hddesc, hdpending⟩ := passOn_spec hfits hp hcy
    (show 0 < right - (left + right) / 2 by omega) (by omega)
  obtain ⟨t', ht'⟩ : ∃ t', t' = Function.update (Function.update (Function.update t (2 * n) c)
      (2 * n + 1) d) n { t n with lazyAdd := 0, lazyMult := 1 } := ⟨_, rfl⟩
  have hn' : t' n = { t n with lazyAdd := 0, lazyMult := 1 } := by
    rw [ht', Function.update_self]
  have hx' : t' (2 * n) = c := by
    rw [ht', Function.update_of_ne (by omega), Function.update_of_ne (by omega),
      Function.update_self]
  have hy' : t' (2 * n + 1) = d := by
    rw [ht', Function.update_of_ne (by omega), Function.update_self]
  have hframe : ∀ j, j ≠ n → j ≠ 2 * n → j ≠ 2 * n + 1 → t' j = t j := by
    intro j hj hjx hjy
    rw [ht', Function.update_of_ne hj, Function.update_of_ne hjy, Function.update_of_ne hjx]
  obtain ⟨hpx, hpy⟩ : (meaning m).Holds t' x left ((left + right) / 2) a ∧
      (meaning m).Holds t' y ((left + right) / 2 + 1) right a := h.push hnodup
    (by rw [hxr, hyr]; exact hframe)
    (fun xs hxs hdx => by rw [hxr] at hdx ⊢; rw [hx']; exact hcdesc xs (by omega) hdx)
    (fun ys hys hdy => by rw [hyr] at hdy ⊢; rw [hy']; exact hddesc ys hys hdy)
    (fun z => by rw [hxr, hx']; exact hcpending z) (fun z => by rw [hyr, hy']; exact hdpending z)
  refine ⟨t', ?_, hpx, hpy, ?_, fun z => ?_, fun j hj => hframe j ?_ ?_ ?_⟩
  · rw [ht', pushdown_eq hlt hn hchildren hc hd]
  · rw [hn']
    have hm := hfits.pos
    exact ⟨⟨hp.flower, ⟨le_rfl, by dsimp only; omega⟩, ⟨zero_le_one, by dsimp only; omega⟩⟩,
      hdesc.2⟩
  · rw [hn']
    simp [meaning]
  · rintro rfl
    exact hj List.mem_cons_self
  · rintro rfl
    exact hj (places_left (hxr ▸ x.root_mem))
  · rintro rfl
    exact hj (places_right (hyr ▸ y.root_mem))

variable {cover : ℕ → Node → Option Node} {f : ZMod m → ZMod m}

theorem cover_spec (hcover : Covers m N cover f) (hle : right - left < N) (hheap : s.Heap n)
    (hn : 0 < n) (hlo : lo ≤ left) (hhi : right ≤ hi) (h : (meaning m).Holds t s left right a)
    (hs : left ≤ right) :
    ∃ v, cover (right - left + 1) (t n) = some v ∧
      (meaning m).Holds (Function.update t n v) s left right (onRange f lo hi a) := by
  have hroot := hheap.root_eq
  have hdesc := h.describes
  rw [hroot] at hdesc
  obtain ⟨v, hv, hvdesc, hvpending⟩ := hcover (right - left + 1) _ _ (by omega) (by omega)
    (by rw [length_stretch]; omega) hdesc
  refine ⟨v, hv, ?_⟩
  have hcovered : (meaning m).Holds (Function.update t n v) s left right (f ∘ a) :=
    h.cover (hheap.nodup hn) (fun j hj => Function.update_of_ne (by rwa [← hroot]) _ _)
      (by rwa [hroot, Function.update_self])
      (fun z => by rw [hroot, Function.update_self, hvpending])
  exact hcovered.congr fun i hi hi' => (if_pos ⟨hlo.trans hi, hi'.trans hhi⟩).symm

/-- A node takes the sum of its children. -/
theorem pull_spec (hfits : Fits m N) (hN : 0 < N) (hs : (node n x y).Spans left right)
    (hheap : (node n x y).Heap n) (hroom : InArray (node n x y)) (hn : 0 < n)
    (hx : (meaning m).Holds t x left ((left + right) / 2) a)
    (hy : (meaning m).Holds t y ((left + right) / 2 + 1) right a) (hsound : (t n).Sound m)
    (hpending : ∀ z, (meaning m).pending (t n) z = z) :
    ∃ flower, childrenFlower m t n = some flower ∧
      (meaning m).Holds (Function.update t n { t n with flower := flower }) (node n x y)
        left right a := by
  obtain ⟨hap, -, -⟩ := nodup_node.mp (hheap.nodup hn)
  have hchildren := hroom.children_lt hheap
  obtain ⟨-, hhx, hhy⟩ := hheap
  obtain ⟨hpos, hfit⟩ := hfits
  have hlt := hs.1
  have hdx := hx.describes
  have hdy := hy.describes
  rw [hhx.root_eq] at hdx
  rw [hhy.root_eq] at hdy
  obtain ⟨⟨⟨hfx, hfx'⟩, -, -⟩, hsumx⟩ := hdx
  obtain ⟨⟨⟨hfy, hfy'⟩, -, -⟩, hsumy⟩ := hdy
  have hbound : (m : ℤ) * 2 ≤ m * (m + N) := Int.mul_le_mul_of_nonneg_left (by omega) (by omega)
  have hsum := LongLong.add_mod hfx hfy (show (0 : ℤ) < m by omega) (by omega)
  refine ⟨_, (if_neg (Nat.not_le.mpr hchildren)).trans hsum, ?_⟩
  have hframe : ∀ z : SegmentShape, n ∉ z.places → ∀ v, ∀ j ∈ z.places,
      Function.update t n v j = t j := by
    intro z hz v j hj
    rw [Function.update_of_ne]
    rintro rfl
    exact hz hj
  refine (hx.frame (hframe x hap.left _)).pull (hy.frame (hframe y hap.right _)) ?_ fun i _ _ => ?_
  · rw [Function.update_self]
    refine ⟨⟨mod_range _ hpos, hsound.lazyAdd, hsound.lazyMult⟩, ?_⟩
    dsimp only
    rw [ZMod.intCast_mod, Int.cast_add, hsumx, hsumy, ← List.sum_append,
      stretch_append (by omega) (by omega)]
  · rw [Function.update_self]
    exact hpending _

theorem update_leaf {k : ℕ} (hcover : Covers m N cover f) (hN : 0 < N) (hheap : (leaf k).Heap n)
    (hroom : InArray (leaf k)) (hn : 0 < n) (hlo : lo ≤ left) (hhi : left ≤ hi)
    (h : (meaning m).Holds t (leaf k) left left a) :
    ∃ t', update m cover lo hi (fuel + 1) t n left left = some t' ∧
      (meaning m).Holds t' (leaf k) left left (onRange f lo hi a) ∧
      ∀ j ∉ (leaf k).places, t' j = t j := by
  obtain ⟨v, hv, hcovered⟩ := cover_spec hcover (by omega) hheap hn hlo hhi h le_rfl
  refine ⟨_, ?_, hcovered, fun j hj => Function.update_of_ne ?_ _ _⟩
  · rw [update, if_neg (Nat.not_le.mpr (hroom.root_lt hheap)), pushdown, if_pos rfl]
    simp only [Option.bind_eq_bind, Option.bind_some]
    rw [if_pos ⟨hlo, hhi⟩, hv]
    rfl
  · rintro rfl
    exact hj (hheap.root_eq ▸ root_mem _)

/-- An update reaches the values of its stretch, and nothing but the nodes above them. -/
theorem update_spec (hfits : Fits m N) (hcover : Covers m N cover f) (hs : s.Spans left right)
    (hle : right - left < N) (hheap : s.Heap n) (hroom : InArray s) (hn : 0 < n) (hlo : lo ≤ right)
    (hhi : left ≤ hi) (hfuel : right - left < fuel) (h : (meaning m).Holds t s left right a) :
    ∃ t', update m cover lo hi fuel t n left right = some t' ∧
      (meaning m).Holds t' s left right (onRange f lo hi a) ∧ ∀ j ∉ s.places, t' j = t j := by
  induction s generalizing t n left right fuel with
  | leaf k =>
    obtain ⟨fuel, rfl⟩ := Nat.exists_eq_succ_of_ne_zero (Nat.ne_zero_of_lt hfuel)
    obtain rfl : left = right := hs
    exact update_leaf hcover (by omega) hheap hroom hn hlo hhi h
  | node k x y ihx ihy =>
    obtain ⟨fuel, rfl⟩ := Nat.exists_eq_succ_of_ne_zero (Nat.ne_zero_of_lt hfuel)
    obtain rfl : k = n := hheap.1
    have hnodup := hheap.nodup hn
    obtain ⟨hap, -, -⟩ := nodup_node.mp hnodup
    have hplace := Nat.not_le.mpr (hroom.root_lt hheap)
    obtain ⟨t₁, ht₁, hpx, hpy, hdesc, hpending, hframe⟩ :=
      pushdown_spec hfits hs hle hheap hroom hn h
    obtain ⟨-, hx, hy⟩ := id hheap
    obtain ⟨hlt, hsx, hsy⟩ := id hs
    by_cases hcov : lo ≤ left ∧ right ≤ hi
    · obtain ⟨v, hv, hcovered⟩ := cover_spec hcover hle hheap hn hcov.1 hcov.2
        (hpx.pull hpy hdesc fun i _ _ => hpending _) hlt.le
      refine ⟨_, ?_, hcovered, fun j hj => ?_⟩
      · rw [update, if_neg hplace, ht₁]
        simp only [Option.bind_eq_bind, Option.bind_some]
        rw [if_pos hcov, hv]
        rfl
      · rw [Function.update_of_ne, hframe j hj]
        rintro rfl
        exact hj List.mem_cons_self
    · have hleft : ∃ t₂, (if lo ≤ (left + right) / 2 then
          update m cover lo hi fuel t₁ (2 * k) left ((left + right) / 2) else some t₁) = some t₂ ∧
          (meaning m).Holds t₂ x left ((left + right) / 2) (onRange f lo hi a) ∧
          ∀ j ∉ x.places, t₂ j = t₁ j := by
        split
        next hmid => exact ihx hsx (by omega) hx hroom.leftChild (by omega) hmid hhi (by omega) hpx
        next hmid =>
          refine ⟨t₁, rfl, hpx.congr fun i hi hi' => (if_neg ?_).symm, fun j _ => rfl⟩
          omega
      obtain ⟨t₂, ht₂, hx₂, hframe₂⟩ := hleft
      have hright : ∃ t₃, (if (left + right) / 2 < hi then
          update m cover lo hi fuel t₂ (2 * k + 1) ((left + right) / 2 + 1) right else some t₂) =
            some t₃ ∧
          (meaning m).Holds t₃ y ((left + right) / 2 + 1) right (onRange f lo hi a) ∧
          ∀ j ∉ y.places, t₃ j = t₂ j := by
        have hpy₂ := hpy.frame fun j hj => hframe₂ j fun hjx => hap.disjoint j hjx hj
        split
        next hmid =>
          exact ihy hsy (by omega) hy hroom.rightChild (by omega) hlo hmid (by omega) hpy₂
        next hmid =>
          refine ⟨t₂, rfl, hpy₂.congr fun i hi hi' => (if_neg ?_).symm, fun j _ => rfl⟩
          omega
      obtain ⟨t₃, ht₃, hy₃, hframe₃⟩ := hright
      have hx₃ := hx₂.frame fun j hj => hframe₃ j (hap.disjoint j hj)
      have hk : t₃ k = t₁ k := by rw [hframe₃ k hap.right, hframe₂ k hap.left]
      obtain ⟨flower, hflower, hpulled⟩ := pull_spec hfits (by omega) hs hheap hroom hn hx₃ hy₃
        (by rw [hk]; exact hdesc.1) (by rw [hk]; exact hpending)
      refine ⟨_, ?_, hpulled, fun j hj => ?_⟩
      · rw [update, if_neg hplace, ht₁]
        simp only [Option.bind_eq_bind, Option.bind_some]
        rw [if_neg hcov, ht₂, Option.bind_some, ht₃, Option.bind_some, hflower]
        rfl
      · rw [Function.update_of_ne, hframe₃ j fun hjy => hj (places_right hjy),
          hframe₂ j fun hjx => hj (places_left hjx), hframe j hj]
        rintro rfl
        exact hj List.mem_cons_self

theorem query_leaf {k : ℕ} (hheap : (leaf k).Heap n) (hroom : InArray (leaf k))
    (hlo : lo ≤ left) (hhi : left ≤ hi) (h : (meaning m).Holds t (leaf k) left left a) :
    ∃ sum t', query_sum m lo hi (fuel + 1) t n left left = some (sum, t') ∧ (0 ≤ sum ∧ sum < m) ∧
      (sum : ZMod m) = (stretch a (max left lo) (min left hi + 1)).sum ∧
      (meaning m).Holds t' (leaf k) left left a ∧ ∀ j ∉ (leaf k).places, t' j = t j := by
  have hdesc := h.describes
  rw [hheap.root_eq] at hdesc
  refine ⟨_, t, ?_, hdesc.1.flower, ?_, h, fun j _ => rfl⟩
  · rw [query_sum, if_neg (Nat.not_le.mpr (hroom.root_lt hheap)), pushdown, if_pos rfl]
    simp only [Option.bind_eq_bind, Option.bind_some]
    rw [if_pos ⟨hlo, hhi⟩]
    rfl
  · rw [Nat.max_eq_left hlo, Nat.min_eq_left hhi]
    exact hdesc.2

/-- `query_sum` after its `pushdown`. -/
theorem query_sum_of_pushdown {t₁ : Tree} (hn : ¬ maxN * 4 ≤ n)
    (ht₁ : pushdown m t n left right = some t₁) :
    query_sum m lo hi (fuel + 1) t n left right =
      if lo ≤ left ∧ right ≤ hi then some ((t₁ n).flower, t₁)
      else if hi ≤ (left + right) / 2 then
        query_sum m lo hi fuel t₁ (2 * n) left ((left + right) / 2)
      else if (left + right) / 2 < lo then
        query_sum m lo hi fuel t₁ (2 * n + 1) ((left + right) / 2 + 1) right
      else (query_sum m lo hi fuel t₁ (2 * n) left ((left + right) / 2)).bind fun p =>
        (query_sum m lo hi fuel p.2 (2 * n + 1) ((left + right) / 2 + 1) right).bind fun q =>
          ((((p.1 : LongLong) + q.1) % (m : ℤ)).val).map fun sum => (sum, q.2) := by
  rw [query_sum, if_neg hn, ht₁]
  simp only [Option.bind_eq_bind, Option.bind_some, Option.map_eq_bind]
  rfl

/-- A query changes what the nodes keep back, and not the values. -/
theorem query_spec (hfits : Fits m N) (hlohi : lo ≤ hi) (hs : s.Spans left right)
    (hle : right - left < N) (hheap : s.Heap n) (hroom : InArray s) (hn : 0 < n) (hlo : lo ≤ right)
    (hhi : left ≤ hi) (hfuel : right - left < fuel) (h : (meaning m).Holds t s left right a) :
    ∃ sum t', query_sum m lo hi fuel t n left right = some (sum, t') ∧ (0 ≤ sum ∧ sum < m) ∧
      (sum : ZMod m) = (stretch a (max left lo) (min right hi + 1)).sum ∧
      (meaning m).Holds t' s left right a ∧ ∀ j ∉ s.places, t' j = t j := by
  induction s generalizing t n left right fuel with
  | leaf k =>
    obtain ⟨fuel, rfl⟩ := Nat.exists_eq_succ_of_ne_zero (Nat.ne_zero_of_lt hfuel)
    obtain rfl : left = right := hs
    exact query_leaf hheap hroom hlo hhi h
  | node k x y ihx ihy =>
    obtain ⟨fuel, rfl⟩ := Nat.exists_eq_succ_of_ne_zero (Nat.ne_zero_of_lt hfuel)
    obtain rfl : k = n := hheap.1
    obtain ⟨hap, -, -⟩ := nodup_node.mp (hheap.nodup hn)
    have hplace := Nat.not_le.mpr (hroom.root_lt hheap)
    obtain ⟨t₁, ht₁, hpx, hpy, hdesc, hpending, hframe⟩ :=
      pushdown_spec hfits hs hle hheap hroom hn h
    obtain ⟨-, hx, hy⟩ := id hheap
    obtain ⟨hlt, hsx, hsy⟩ := id hs
    have hpull : ∀ t', (meaning m).Holds t' x left ((left + right) / 2) a →
        (meaning m).Holds t' y ((left + right) / 2 + 1) right a → t' k = t₁ k →
        (meaning m).Holds t' (node k x y) left right a := fun t' hx' hy' hk =>
      hx'.pull hy' (by rw [hk]; exact hdesc) fun i _ _ => by rw [hk]; exact hpending _
    rw [query_sum_of_pushdown hplace ht₁]
    split_ifs with hcov hmid hmid'
    · refine ⟨_, t₁, rfl, hdesc.1.flower, ?_, hpull t₁ hpx hpy rfl, hframe⟩
      rw [Nat.max_eq_left hcov.1, Nat.min_eq_left hcov.2]
      exact hdesc.2
    · obtain ⟨sum, t₂, ht₂, hrange, hsum, hx₂, hframe₂⟩ :=
        ihx hsx (by omega) hx hroom.leftChild (by omega) (by omega) hhi
          (show (left + right) / 2 - left < fuel by omega) hpx
      refine ⟨sum, t₂, ht₂, hrange, ?_, hpull t₂ hx₂ (hpy.frame fun j hj =>
        hframe₂ j fun hjx => hap.disjoint j hjx hj) (hframe₂ k hap.left), fun j hj => ?_⟩
      · rw [hsum, Nat.min_eq_right hmid, Nat.min_eq_right (by omega)]
      · rw [hframe₂ j fun hjx => hj (places_left hjx), hframe j hj]
    · obtain ⟨sum, t₂, ht₂, hrange, hsum, hy₂, hframe₂⟩ :=
        ihy hsy (by omega) hy hroom.rightChild (by omega) hlo (by omega)
          (show right - ((left + right) / 2 + 1) < fuel by omega) hpy
      refine ⟨sum, t₂, ht₂, hrange, ?_, hpull t₂ (hpx.frame fun j hj =>
        hframe₂ j (hap.disjoint j hj)) hy₂ (hframe₂ k hap.right), fun j hj => ?_⟩
      · rw [hsum, Nat.max_eq_right (by omega), Nat.max_eq_right (by omega)]
      · rw [hframe₂ j fun hjy => hj (places_right hjy), hframe j hj]
    · obtain ⟨u, t₂, ht₂, ⟨hu, hu'⟩, hsumu, hx₂, hframe₂⟩ :=
        ihx hsx (by omega) hx hroom.leftChild (by omega) (by omega) hhi
          (show (left + right) / 2 - left < fuel by omega) hpx
      obtain ⟨w, t₃, ht₃, ⟨hw, hw'⟩, hsumw, hy₃, hframe₃⟩ :=
        ihy hsy (by omega) hy hroom.rightChild (by omega) hlo (by omega)
          (show right - ((left + right) / 2 + 1) < fuel by omega)
          (hpy.frame fun j hj => hframe₂ j fun hjx => hap.disjoint j hjx hj)
      have hbound : (m : ℤ) * 2 ≤ m * (m + N) :=
        Int.mul_le_mul_of_nonneg_left (by omega) (by omega)
      have hfit := hfits.le
      have hpos := hfits.pos
      refine ⟨(u + w) % m, t₃, ?_, mod_range _ hpos, ?_, hpull t₃
        (hx₂.frame fun j hj => hframe₃ j (hap.disjoint j hj)) hy₃ ?_, fun j hj => ?_⟩
      · rw [ht₂, Option.bind_some, ht₃, Option.bind_some,
          LongLong.add_mod hu hw (by omega) (by omega)]
        rfl
      · rw [ZMod.intCast_mod, Int.cast_add, hsumu, hsumw, ← List.sum_append,
          Nat.min_eq_left (show (left + right) / 2 ≤ hi by omega),
          Nat.max_eq_left (show lo ≤ (left + right) / 2 + 1 by omega),
          stretch_append (by omega) (by omega)]
      · rw [hframe₃ k hap.right, hframe₂ k hap.left]
      · rw [hframe₃ j fun hjy => hj (places_right hjy), hframe₂ j fun hjx => hj (places_left hjx),
          hframe j hj]

/-! ### Runs -/

/-- The lines of the output, by the numbers of flowers alone. -/
def answers (m : ℕ) : List Op → (ℕ → ℤ) → List ℤ
  | [], _ => []
  | .mult left right updateVal :: ops, g => answers m ops (onRange (· * updateVal) left right g)
  | .add left right updateVal :: ops, g => answers m ops (onRange (· + updateVal) left right g)
  | .query left right :: ops, g => (stretch g left (right + 1)).sum % m :: answers m ops g
  | .other :: ops, g => answers m ops g

/-- A stretch of the row, and a value with which nothing overflows. -/
def Op.Valid (m N : ℕ) : Op → Prop
  | .mult left right updateVal => (1 ≤ left ∧ left ≤ right ∧ right ≤ N) ∧ FitsVal m N updateVal
  | .add left right updateVal => (1 ≤ left ∧ left ≤ right ∧ right ≤ N) ∧ FitsVal m N updateVal
  | .query left right => 1 ≤ left ∧ left ≤ right ∧ right ≤ N
  | .other => True

variable {g : ℕ → ℤ}

/-- The tree holds the numbers modulo `m`. -/
def Keeps (m N : ℕ) (s : SegmentShape) (t : Tree) (g : ℕ → ℤ) : Prop :=
  (meaning m).Holds t s 1 N fun i => (g i : ZMod m)

theorem Keeps.add (h : Keeps m N s t g) (hfits : Fits m N) (hval : FitsVal m N val)
    (hs : s.Spans 1 N) (hheap : s.Heap 1) (hroom : InArray s) (hlo : lo ≤ N) (hhi : 1 ≤ hi) :
    ∃ t', add m N t 1 1 N lo hi val = some t' ∧ Keeps m N s t' (onRange (· + val) lo hi g) := by
  have hN := hs.le
  obtain ⟨t', ht', h', -⟩ := update_spec hfits (addNode_covers hfits hval) hs (by omega) hheap
    hroom Nat.one_pos hlo hhi (show N - 1 < N by omega) h
  refine ⟨t', ht', h'.congr fun i _ _ => ?_⟩
  simp only [onRange]
  split <;> push_cast <;> rfl

theorem Keeps.mult (h : Keeps m N s t g) (hfits : Fits m N) (hval : FitsVal m N val)
    (hs : s.Spans 1 N) (hheap : s.Heap 1) (hroom : InArray s) (hlo : lo ≤ N) (hhi : 1 ≤ hi) :
    ∃ t', mult m N t 1 1 N lo hi val = some t' ∧ Keeps m N s t' (onRange (· * val) lo hi g) := by
  have hN := hs.le
  obtain ⟨t', ht', h', -⟩ := update_spec hfits (multNode_covers hfits hval) hs (by omega) hheap
    hroom Nat.one_pos hlo hhi (show N - 1 < N by omega) h
  refine ⟨t', ht', h'.congr fun i _ _ => ?_⟩
  simp only [onRange]
  split <;> push_cast <;> rfl

theorem Keeps.query_sum (h : Keeps m N s t g) (hfits : Fits m N) (hs : s.Spans 1 N)
    (hheap : s.Heap 1) (hroom : InArray s) (hlo : 1 ≤ lo) (hlohi : lo ≤ hi) (hhi : hi ≤ N) :
    ∃ t', query_sum m lo hi N t 1 1 N = some ((stretch g lo (hi + 1)).sum % m, t') ∧
      Keeps m N s t' g := by
  have hN := hs.le
  obtain ⟨sum, t', ht', ⟨hsum, hsum'⟩, hcast, h', -⟩ := query_spec hfits hlohi hs (by omega) hheap
    hroom Nat.one_pos (by omega) (by omega) (show N - 1 < N by omega) h
  rw [Nat.max_eq_right hlo, Nat.min_eq_right hhi] at hcast
  have hlist : (stretch (fun i => (g i : ZMod m)) lo (hi + 1)).sum =
      ((stretch g lo (hi + 1)).sum : ZMod m) := by
    rw [Int.cast_list_sum, map_stretch]
    rfl
  have heq := (ZMod.intCast_eq_intCast_iff' _ _ _).mp (hcast.trans hlist)
  rw [Int.emod_eq_of_lt hsum hsum'] at heq
  rw [← heq]
  exact ⟨t', ht', h'⟩

theorem serve_spec (hfits : Fits m N) (hs : s.Spans 1 N) (hheap : s.Heap 1) (hroom : InArray s)
    {ops : List Op} (hops : ∀ op ∈ ops, op.Valid m N) (h : Keeps m N s t g) :
    serve N m ops t = some (answers m ops g) := by
  induction ops generalizing t g with
  | nil => rfl
  | cons op ops ih =>
    have hop := hops op List.mem_cons_self
    have hrest : ∀ op ∈ ops, op.Valid m N := fun op ho => hops op (List.mem_cons_of_mem _ ho)
    cases op with
    | mult left right updateVal =>
      obtain ⟨⟨hleft, hlr, hright⟩, hval⟩ := hop
      obtain ⟨t', ht', h'⟩ := h.mult hfits hval hs hheap hroom (hlr.trans hright) (hleft.trans hlr)
      rw [serve, ht', answers]
      exact ih hrest h'
    | add left right updateVal =>
      obtain ⟨⟨hleft, hlr, hright⟩, hval⟩ := hop
      obtain ⟨t', ht', h'⟩ := h.add hfits hval hs hheap hroom (hlr.trans hright) (hleft.trans hlr)
      rw [serve, ht', answers]
      exact ih hrest h'
    | query left right =>
      obtain ⟨hleft, hlr, hright⟩ := hop
      obtain ⟨t', ht', h'⟩ := h.query_sum hfits hs hheap hroom hleft hlr hright
      rw [serve, ht', answers]
      simp only [Option.bind_eq_bind, Option.bind_some]
      rw [ih hrest h']
      rfl
    | other => exact ih hrest h

end Course.Oj.Flowers
