import Mathlib.Algebra.Order.Group.Nat
import Mathlib.Order.Interval.Finset.Nat
import Course.Lib.Forests

/-! `OJ1906.cpp`: the cheapest edges that leave `k + 1` classes of `n` places, by Kruskal's
algorithm on a union-find array. -/

open Course.Lib

namespace Course.Oj.Kruskal

structure Edge where
  u : ℕ
  v : ℕ
  w : ℤ
deriving DecidableEq

def maxN : ℕ := 5005

/-- The root of `x`, under which everything on the way there is set. `root` has `maxN` places. -/
def find : ℕ → (ℕ → ℕ) → ℕ → Option (ℕ × (ℕ → ℕ))
  | 0, _, _ => none
  | fuel + 1, root, x =>
    if maxN ≤ x then none
    else if x ≠ root x then do
      let (r, root) ← find fuel root (root x)
      let root := Function.update root x r
      return (root x, root)
    else some (root x, root)

/-- The loop of `kruskal`, on the edges that `pq` has yet to give. The recursion of `find` is never
deeper than `n`. -/
def kruskalLoop (n : ℕ) : List Edge → ℤ → (ℕ → ℕ) → ℤ → Option ℤ
  | [], _, _, result => some result
  | e :: pq, remain, root, result =>
    if 1 < remain then do
      let (u, root) ← find n root e.u
      let (v, root) ← find n root e.v
      if u ≠ v then
        -- `root[find(e.u)] = find(e.v)`, the right side first
        let (v, root) ← find n root e.v
        let (u, root) ← find n root e.u
        kruskalLoop n pq (remain - 1) (Function.update root u v) (result + e.w)
      else kruskalLoop n pq remain root result
    else some result

/-- `for (int i = 1; i <= n; ++i) root[i] = i;` -/
def start (n i : ℕ) : ℕ := if 1 ≤ i ∧ i ≤ n then i else 0

/-- `pq` is the order in which the priority queue gives the edges. -/
def solve (n k : ℕ) (pq : List Edge) : Option ℤ :=
  if maxN ≤ n then none else kruskalLoop n pq (n - k) (start n) 0

/-! ### The array and the labels -/

/-- The array sets every place from 1 to `n` under its representative. -/
structure Represents (n : ℕ) (root rep : ℕ → ℕ) : Prop where
  inside : ∀ x ∈ Finset.Icc 1 n, root x ∈ Finset.Icc 1 n
  climbs : ∀ x ∈ Finset.Icc 1 n, ∃ k, Climbs root k x (rep x)

variable {n k x fuel : ℕ} {root rep : ℕ → ℕ}

theorem Represents.mem (h : Represents n root rep) (hx : x ∈ Finset.Icc 1 n) :
    rep x ∈ Finset.Icc 1 n := by
  obtain ⟨k, hk⟩ := h.climbs x hx
  exact hk.mem h.inside hx

theorem Represents.root_rep (h : Represents n root rep) (hx : x ∈ Finset.Icc 1 n) :
    root (rep x) = rep x := by
  obtain ⟨k, hk⟩ := h.climbs x hx
  exact hk.root_eq

/-- `find` makes ways shorter that lead where they led. -/
theorem find_climbs (hn : n < maxN) (h : Represents n root rep) (hx : x ∈ Finset.Icc 1 n)
    (hk : Climbs root k x (rep x)) (hfuel : k < fuel) :
    ∃ root', find fuel root x = some (rep x, root') ∧ Represents n root' rep := by
  induction fuel generalizing k x with
  | zero => exact absurd hfuel (Nat.not_lt_zero _)
  | succ fuel ih =>
    have hplace : x < maxN := Nat.lt_of_le_of_lt (Finset.mem_Icc.mp hx).2 hn
    rw [find, if_neg (Nat.not_le.mpr hplace)]
    by_cases hroot : root x = x
    · have hrep : rep x = x := (hk.unique (.here hroot)).2
      rw [if_neg (by rw [hroot]; exact not_not.mpr rfl), hroot, hrep]
      exact ⟨root, rfl, h⟩
    · have hxroot := h.inside x hx
      obtain ⟨j, hj⟩ := h.climbs (root x) hxroot
      have hup : Climbs root (j + 1) x (rep (root x)) := .up hroot hj
      obtain ⟨hkj, hrep⟩ := hk.unique hup
      rw [← hrep] at hj
      obtain ⟨root', hroot', h'⟩ := ih hxroot (hrep ▸ hj) (by omega)
      rw [← hrep] at hroot'
      rw [if_pos (Ne.symm hroot), hroot']
      have hfixed : root' (rep x) = rep x := h'.root_rep hx
      obtain ⟨i, hi⟩ := h'.climbs x hx
      have hne : x ≠ rep x := by
        intro heq
        rw [← heq] at hk
        exact hroot hk.root_eq
      refine ⟨Function.update root' x (rep x), ?_, fun y hy => ?_, fun y hy => ?_⟩
      · simp only [Option.bind_eq_bind, Option.bind_some]
        rw [Function.update_self]
        rfl
      · by_cases heq : y = x
        · rw [heq, Function.update_self]
          exact h.mem hx
        · rw [Function.update_of_ne heq]
          exact h'.inside y hy
      · obtain ⟨m, hm⟩ := h'.climbs y hy
        exact hi.compress hne hm

theorem find_spec (hn : n < maxN) (h : Represents n root rep) (hx : x ∈ Finset.Icc 1 n) :
    ∃ root', find n root x = some (rep x, root') ∧ Represents n root' rep := by
  obtain ⟨k, hk⟩ := h.climbs x hx
  have hlt := hk.lt_card h.inside hx
  rw [Nat.card_Icc, Nat.add_sub_cancel] at hlt
  exact find_climbs hn h hx hk hlt

/-- The ends of an edge, as places. -/
def ends : EdgeEnds ℕ Edge where
  source := Edge.u
  target := Edge.v

/-- The edges are between places from 1 to `n`. -/
def Edge.Fits (n : ℕ) (e : Edge) : Prop := e.u ∈ Finset.Icc 1 n ∧ e.v ∈ Finset.Icc 1 n

variable {acc es : List Edge} {e : Edge}

theorem represents_start : Represents n (start n) (ends.label []) where
  inside x hx := by
    rw [start, if_pos (Finset.mem_Icc.mp hx)]
    exact hx
  climbs x hx := ⟨0, .here (if_pos (Finset.mem_Icc.mp hx))⟩

/-- One class comes under the other. -/
theorem Represents.unite (h : Represents n root (ends.label acc)) (he : e.Fits n)
    (hne : ends.label acc e.u ≠ ends.label acc e.v) :
    Represents n (Function.update root (ends.label acc e.u) (ends.label acc e.v))
      (ends.label (e :: acc)) where
  inside x hx := by
    by_cases heq : x = ends.label acc e.u
    · rw [heq, Function.update_self]
      exact h.mem he.2
    · rw [Function.update_of_ne heq]
      exact h.inside x hx
  climbs x hx := by
    obtain ⟨j, hj⟩ := h.climbs x hx
    exact hj.unite (h.root_rep he.1) (h.root_rep he.2) hne

/-- The loop adds the weights of the edges of the greedy choice. -/
theorem kruskalLoop_eq (hn : n < maxN) (hes : ∀ e ∈ es, e.Fits n) {remain result : ℤ}
    (h : Represents n root (ends.label acc)) :
    kruskalLoop n es remain root result =
      some (result + ((ends.greedy (remain - 1).toNat es acc).map Edge.w).sum) := by
  induction es generalizing remain root result acc with
  | nil =>
    cases (remain - 1).toNat <;> simp [kruskalLoop, EdgeEnds.greedy]
  | cons e es ih =>
    have he := hes e List.mem_cons_self
    have hrest : ∀ e ∈ es, e.Fits n := fun d hd => hes d (List.mem_cons_of_mem e hd)
    rw [kruskalLoop]
    by_cases hremain : 1 < remain
    · obtain ⟨r, hr⟩ : ∃ r, (remain - 1).toNat = r + 1 :=
        ⟨(remain - 2).toNat, by omega⟩
      obtain ⟨root₁, hfind₁, h₁⟩ := find_spec hn h he.1
      obtain ⟨root₂, hfind₂, h₂⟩ := find_spec hn h₁ he.2
      rw [if_pos hremain, hfind₁]
      simp only [Option.bind_eq_bind, Option.bind_some]
      rw [hfind₂, Option.bind_some, hr, EdgeEnds.greedy]
      by_cases heq : ends.label acc e.u = ends.label acc e.v
      · rw [if_neg (not_not.mpr heq), ih hrest h₂, hr]
        exact congrArg (fun l => some (result + (List.map Edge.w l).sum)) (if_pos heq).symm
      · obtain ⟨root₃, hfind₃, h₃⟩ := find_spec hn h₂ he.2
        obtain ⟨root₄, hfind₄, h₄⟩ := find_spec hn h₃ he.1
        rw [if_pos heq, hfind₃, Option.bind_some, hfind₄, Option.bind_some,
          ih hrest (h₄.unite he heq), show (remain - 1 - 1).toNat = r by omega]
        rw [show (if ends.label acc (ends.source e) = ends.label acc (ends.target e) then
          ends.greedy (r + 1) es acc else e :: ends.greedy r es (e :: acc)) =
            e :: ends.greedy r es (e :: acc) from if_neg heq, List.map_cons, List.sum_cons,
          Int.add_assoc]
    · rw [if_neg hremain, show (remain - 1).toNat = 0 by omega]
      simp [EdgeEnds.greedy]

/-- With at most 5004 places, the result is the weight of a forest, and no forest of `n - k - 1` of
the edges weighs less. -/
theorem kruskal_minimal {edges pq : List Edge} (hn : n < maxN) (hedges : ∀ e ∈ edges, e.Fits n)
    (hpq : pq.Perm edges) (hsorted : pq.Pairwise fun d e => d.w ≤ e.w) :
    ∃ es, solve n k pq = some (es.map Edge.w).sum ∧ es ⊆ edges ∧ ends.Forest es ∧
      ∀ fs, fs ⊆ edges → ends.Forest fs → fs.length = n - k - 1 →
        es.length = n - k - 1 ∧ (es.map Edge.w).sum ≤ (fs.map Edge.w).sum := by
  have hr : ((n : ℤ) - k - 1).toNat = n - k - 1 := by omega
  refine ⟨ends.greedy (n - k - 1) pq [], ?_, ?_, ?_, fun fs hsub hforest hlen => ?_⟩
  · rw [solve, if_neg (Nat.not_le.mpr hn),
      kruskalLoop_eq hn (fun e he => hedges e (hpq.subset he)) represents_start, hr, Int.zero_add]
  · exact List.Subset.trans (EdgeEnds.greedy_subset _ _ _) hpq.subset
  · have hgreedy : ends.Forest (ends.greedy (n - k - 1) pq [] ++ []) :=
      EdgeEnds.forest_greedy _ _ trivial
    rwa [List.append_nil] at hgreedy
  · refine EdgeEnds.greedy_weight Edge.w hsorted (List.Subset.trans hsub hpq.symm.subset) ?_ hlen
    rwa [List.append_nil]

theorem kruskal_minimal_square :
    ∃ es, solve 4 0 [⟨1, 2, 1⟩, ⟨3, 4, 2⟩, ⟨2, 1, 3⟩, ⟨2, 3, 4⟩, ⟨4, 1, 5⟩] =
        some (es.map Edge.w).sum ∧
      es ⊆ [⟨2, 3, 4⟩, ⟨1, 2, 1⟩, ⟨3, 4, 2⟩, ⟨2, 1, 3⟩, ⟨4, 1, 5⟩] ∧ ends.Forest es ∧
      ∀ fs, fs ⊆ [⟨2, 3, 4⟩, ⟨1, 2, 1⟩, ⟨3, 4, 2⟩, ⟨2, 1, 3⟩, ⟨4, 1, 5⟩] → ends.Forest fs →
        fs.length = 4 - 0 - 1 →
          es.length = 4 - 0 - 1 ∧ (es.map Edge.w).sum ≤ (fs.map Edge.w).sum := by
  refine kruskal_minimal (by decide) (fun e he => ?_) ?_ ?_
  · simp only [List.mem_cons, List.not_mem_nil, or_false] at he
    rcases he with rfl | rfl | rfl | rfl | rfl <;> exact ⟨by decide, by decide⟩
  · decide
  · simp

end Course.Oj.Kruskal
