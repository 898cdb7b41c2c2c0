import Mathlib.Algebra.Group.Nat.Defs
import Mathlib.Data.List.Nodup
import Course.Lib.Stretch

/-! Segment trees whose nodes lie in an array and keep updates back for the values below them: what
the nodes say about the values, whatever they sum up and however the values are updated. -/

namespace Course.Lib

/-- The places of the nodes in the array. -/
inductive SegmentShape
  | leaf (n : ℕ)
  | node (n : ℕ) (x y : SegmentShape)

namespace SegmentShape

def root : SegmentShape → ℕ
  | leaf n => n
  | node n _ _ => n

def places : SegmentShape → List ℕ
  | leaf n => [n]
  | node n x y => n :: (x.places ++ y.places)

/-- The tree is for the values from `left` to `right` and is split in the middle. -/
def Spans : SegmentShape → ℕ → ℕ → Prop
  | leaf _, left, right => left = right
  | node _ x y, left, right =>
    left < right ∧ x.Spans left ((left + right) / 2) ∧ y.Spans ((left + right) / 2 + 1) right

theorem Spans.le : ∀ {s : SegmentShape} {left right : ℕ}, s.Spans left right → left ≤ right
  | leaf _, _, _, h => Nat.le_of_eq h
  | node _ _ _, _, _, h => h.1.le

theorem root_mem : ∀ s : SegmentShape, s.root ∈ s.places
  | leaf _ => List.mem_singleton_self _
  | node _ _ _ => List.mem_cons_self

variable {n : ℕ} {x y : SegmentShape}

theorem places_left {j : ℕ} (h : j ∈ x.places) : j ∈ (node n x y).places :=
  List.mem_cons_of_mem _ (List.mem_append_left _ h)

theorem places_right {j : ℕ} (h : j ∈ y.places) : j ∈ (node n x y).places :=
  List.mem_cons_of_mem _ (List.mem_append_right _ h)

/-- No place is used twice. -/
structure Apart (n : ℕ) (x y : SegmentShape) : Prop where
  left : n ∉ x.places
  right : n ∉ y.places
  disjoint : ∀ j ∈ x.places, j ∉ y.places

theorem nodup_node : (node n x y).places.Nodup ↔
    Apart n x y ∧ x.places.Nodup ∧ y.places.Nodup := by
  rw [places, List.nodup_cons, List.mem_append, not_or, List.nodup_append']
  constructor
  · rintro ⟨⟨hx, hy⟩, hdx, hdy, hdisj⟩
    exact ⟨⟨hx, hy, fun j hj hj' => hdisj hj hj'⟩, hdx, hdy⟩
  · rintro ⟨⟨hx, hy, hdisj⟩, hdx, hdy⟩
    exact ⟨⟨hx, hy⟩, hdx, hdy, fun j hj hj' => hdisj j hj hj'⟩

/-! ### Heaps -/

/-- The children of the node at `n` are at `2 * n` and at `2 * n + 1`. -/
def Heap : SegmentShape → ℕ → Prop
  | leaf m, n => m = n
  | node m x y, n => m = n ∧ x.Heap (2 * n) ∧ y.Heap (2 * n + 1)

theorem Heap.root_eq : ∀ {s : SegmentShape} {n : ℕ}, s.Heap n → s.root = n
  | leaf _, _, h => h
  | node _ _ _, _, h => h.1

/-- The places below `n` come to `n` when they are halved. -/
theorem Heap.halves {s : SegmentShape} {n : ℕ} (h : s.Heap n) :
    ∀ j ∈ s.places, ∃ k, j / 2 ^ k = n := by
  induction s generalizing n with
  | leaf m =>
    intro j hj
    rw [places, List.mem_singleton] at hj
    exact ⟨0, by rw [hj, Nat.pow_zero, Nat.div_one]; exact h⟩
  | node m x y ihx ihy =>
    obtain ⟨rfl, hx, hy⟩ := h
    intro j hj
    rw [places, List.mem_cons, List.mem_append] at hj
    have up : ∀ c k, j / 2 ^ k = c → c / 2 = m → ∃ k, j / 2 ^ k = m := by
      intro c k hk hc
      exact ⟨k + 1, by rw [Nat.pow_succ, ← Nat.div_div_eq_div_mul, hk, hc]⟩
    rcases hj with rfl | hj | hj
    · exact ⟨0, by rw [Nat.pow_zero, Nat.div_one]⟩
    · obtain ⟨k, hk⟩ := ihx hx j hj
      exact up _ k hk (by omega)
    · obtain ⟨k, hk⟩ := ihy hy j hj
      exact up _ k hk (by omega)

theorem Heap.apart {x y : SegmentShape} {n : ℕ} (hn : 0 < n) (hx : x.Heap (2 * n))
    (hy : y.Heap (2 * n + 1)) : Apart n x y where
  left hmem := by
    obtain ⟨k, hk⟩ := hx.halves n hmem
    have := Nat.div_le_self n (2 ^ k)
    omega
  right hmem := by
    obtain ⟨k, hk⟩ := hy.halves n hmem
    have := Nat.div_le_self n (2 ^ k)
    omega
  disjoint j hjx hjy := by
    obtain ⟨k, hk⟩ := hx.halves j hjx
    obtain ⟨k', hk'⟩ := hy.halves j hjy
    have half : ∀ m d, m / 2 ^ (d + 1) ≤ m / 2 := by
      intro m d
      rw [Nat.pow_succ, Nat.mul_comm, ← Nat.div_div_eq_div_mul]
      exact Nat.div_le_self _ _
    rcases Nat.lt_trichotomy k k' with hlt | rfl | hgt
    · obtain ⟨d, rfl⟩ := Nat.exists_eq_add_of_lt hlt
      rw [Nat.add_assoc, Nat.pow_add, ← Nat.div_div_eq_div_mul, hk] at hk'
      have := half (2 * n) d
      omega
    · omega
    · obtain ⟨d, rfl⟩ := Nat.exists_eq_add_of_lt hgt
      rw [Nat.add_assoc, Nat.pow_add, ← Nat.div_div_eq_div_mul, hk'] at hk
      have := half (2 * n + 1) d
      omega

theorem Heap.nodup {s : SegmentShape} {n : ℕ} (h : s.Heap n) (hn : 0 < n) : s.places.Nodup := by
  induction s generalizing n with
  | leaf m => exact List.nodup_singleton m
  | node m x y ihx ihy =>
    obtain ⟨rfl, hx, hy⟩ := h
    exact nodup_node.mpr ⟨hx.apart hn hy, ihx hx (by omega), ihy hy (by omega)⟩

end SegmentShape

/-! ### What the nodes say -/

/-- What a node says about the values below it, and what it has kept back for each of them since. -/
structure NodeMeaning (V : Type) (α : Type) where
  Describes : V → List α → Prop
  pending : V → α → α

namespace NodeMeaning

open SegmentShape

variable {V α : Type} (M : NodeMeaning V α)

/-- The tree `t` holds the values `a` from `left` to `right`. -/
def Holds (t : ℕ → V) : SegmentShape → ℕ → ℕ → (ℕ → α) → Prop
  | leaf n, left, right, a => M.Describes (t n) (stretch a left (right + 1))
  | node n x y, left, right, a =>
    M.Describes (t n) (stretch a left (right + 1)) ∧
      ∃ b, Holds t x left ((left + right) / 2) b ∧ Holds t y ((left + right) / 2 + 1) right b ∧
        ∀ i, left ≤ i → i ≤ right → a i = M.pending (t n) (b i)

variable {M} {t t' : ℕ → V} {s x y : SegmentShape} {n left right : ℕ} {a b : ℕ → α}

theorem Holds.describes (h : M.Holds t s left right a) :
    M.Describes (t s.root) (stretch a left (right + 1)) := by
  cases s with
  | leaf n => exact h
  | node n x y => exact h.1

theorem Holds.congr (h : M.Holds t s left right a)
    (hab : ∀ i, left ≤ i → i ≤ right → a i = b i) : M.Holds t s left right b := by
  have hlist : stretch a left (right + 1) = stretch b left (right + 1) :=
    stretch_congr fun i hi hi' => hab i hi (Nat.le_of_lt_succ hi')
  cases s with
  | leaf n =>
    rw [Holds, ← hlist]
    exact h
  | node n x y =>
    obtain ⟨hdesc, c, hx, hy, hc⟩ := h
    refine ⟨hlist ▸ hdesc, c, hx, hy, fun i hi hi' => ?_⟩
    rw [← hab i hi hi']
    exact hc i hi hi'

/-- What is in other places does not matter. -/
theorem Holds.frame (h : M.Holds t s left right a) (ht : ∀ j ∈ s.places, t' j = t j) :
    M.Holds t' s left right a := by
  induction s generalizing left right a with
  | leaf n =>
    rw [Holds, ht n (List.mem_singleton_self n)]
    exact h
  | node n x y ihx ihy =>
    obtain ⟨hdesc, c, hx, hy, hc⟩ := h
    rw [Holds, ht n List.mem_cons_self]
    exact ⟨hdesc, c, ihx hx fun j hj => ht j (places_left hj),
      ihy hy fun j hj => ht j (places_right hj), hc⟩

/-- An update for all values below a node is kept there. -/
theorem Holds.cover {f : α → α} (h : M.Holds t s left right a) (hs : s.places.Nodup)
    (ht : ∀ j, j ≠ s.root → t' j = t j)
    (hdesc : M.Describes (t' s.root) ((stretch a left (right + 1)).map f))
    (hpending : ∀ z, M.pending (t' s.root) z = f (M.pending (t s.root) z)) :
    M.Holds t' s left right (f ∘ a) := by
  rw [map_stretch] at hdesc
  cases s with
  | leaf n => exact hdesc
  | node n x y =>
    obtain ⟨-, c, hx, hy, hc⟩ := h
    obtain ⟨hap, -, -⟩ := nodup_node.mp hs
    refine ⟨hdesc, c, hx.frame fun j hj => ht j ?_, hy.frame fun j hj => ht j ?_,
      fun i hi hi' => ?_⟩
    · rintro rfl
      exact hap.left hj
    · rintro rfl
      exact hap.right hj
    · rw [Function.comp_apply, hc i hi hi']
      exact (hpending _).symm

/-- The children take what was kept back at a node. -/
theorem Holds.push (h : M.Holds t (node n x y) left right a)
    (hs : (node n x y).places.Nodup) (ht : ∀ j, j ≠ n → j ≠ x.root → j ≠ y.root → t' j = t j)
    (hx : ∀ xs, xs.length = (left + right) / 2 + 1 - left → M.Describes (t x.root) xs →
      M.Describes (t' x.root) (xs.map (M.pending (t n))))
    (hy : ∀ ys, ys.length = right - (left + right) / 2 → M.Describes (t y.root) ys →
      M.Describes (t' y.root) (ys.map (M.pending (t n))))
    (hxp : ∀ z, M.pending (t' x.root) z = M.pending (t n) (M.pending (t x.root) z))
    (hyp : ∀ z, M.pending (t' y.root) z = M.pending (t n) (M.pending (t y.root) z)) :
    M.Holds t' x left ((left + right) / 2) a ∧ M.Holds t' y ((left + right) / 2 + 1) right a := by
  obtain ⟨-, c, hcx, hcy, hc⟩ := h
  obtain ⟨hap, hsx, hsy⟩ := nodup_node.mp hs
  -- in each half only the root has changed
  have half : ∀ z : SegmentShape, z.places.Nodup → n ∉ z.places → ∀ lo hi,
      M.Holds t z lo hi c → (∀ j ∈ z.places, j ≠ z.root → j ≠ n → t' j = t j) →
      M.Describes (t' z.root) ((stretch c lo (hi + 1)).map (M.pending (t n))) →
      (∀ w, M.pending (t' z.root) w = M.pending (t n) (M.pending (t z.root) w)) →
      M.Holds t' z lo hi (M.pending (t n) ∘ c) := by
    intro z hz hn lo hi hcz htz hdesc hpending
    have hcover : M.Holds (Function.update t z.root (t' z.root)) z lo hi (M.pending (t n) ∘ c) :=
      hcz.cover hz (fun j hj => Function.update_of_ne hj _ _) (by rwa [Function.update_self])
        (by rwa [Function.update_self])
    refine hcover.frame fun j hj => ?_
    by_cases hroot : j = z.root
    · rw [hroot, Function.update_self]
    · rw [Function.update_of_ne hroot]
      exact htz j hj hroot fun hjn => hn (hjn ▸ hj)
  constructor
  · refine (half x hsx hap.left _ _ hcx (fun j hj hroot hjn => ht j hjn hroot fun hjy => ?_)
      (hx _ (by rw [length_stretch]) hcx.describes) hxp).congr fun i hi hi' => ?_
    · exact hap.disjoint j hj (hjy ▸ y.root_mem)
    · exact (hc i hi (by omega)).symm
  · refine (half y hsy hap.right _ _ hcy (fun j hj hroot hjn => ht j hjn (fun hjx => ?_) hroot)
      (hy _ (by rw [length_stretch]; omega) hcy.describes) hyp).congr fun i hi hi' => ?_
    · exact hap.disjoint _ (hjx ▸ x.root_mem) hj
    · exact (hc i (by omega) hi').symm

/-- A node is put together from its children. -/
theorem Holds.pull (hx : M.Holds t x left ((left + right) / 2) a)
    (hy : M.Holds t y ((left + right) / 2 + 1) right a)
    (hdesc : M.Describes (t n) (stretch a left (right + 1)))
    (hpending : ∀ i, left ≤ i → i ≤ right → M.pending (t n) (a i) = a i) :
    M.Holds t (node n x y) left right a :=
  ⟨hdesc, a, hx, hy, fun i hi hi' => (hpending i hi hi').symm⟩

end NodeMeaning

/-- An update for the values from `lo` to `hi`. -/
def onRange {α : Type} (f : α → α) (lo hi : ℕ) (a : ℕ → α) (i : ℕ) : α :=
  if lo ≤ i ∧ i ≤ hi then f (a i) else a i

end Course.Lib
