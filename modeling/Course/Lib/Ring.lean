import Mathlib.Data.List.Nodup
import Mathlib.Data.List.Perm.Subperm
import Mathlib.Logic.Function.Basic

/-! Doubly linked rings through a sentinel, given by the two link functions of
a store, and the loops that walk them. -/

universe u

namespace Course.Lib

variable {α : Type u} [DecidableEq α]

/-- From `a` through `l` to `b`, and back. -/
def Linked (next prev : α → α) : α → List α → α → Prop
  | a, [], b => next a = b ∧ prev b = a
  | a, x :: l, b => next a = x ∧ prev x = a ∧ Linked next prev x l b

structure IsRing (next prev : α → α) (s : α) (l : List α) : Prop where
  linked : Linked next prev s l s
  nodup : (s :: l).Nodup

variable {next prev next' prev' : α → α} {a b s x : α} {l l₁ l₂ : List α}

namespace Linked

omit [DecidableEq α] in
theorem congr (hn : ∀ y ∈ a :: l, next' y = next y) (hp : ∀ y ∈ l ++ [b], prev' y = prev y)
    (h : Linked next prev a l b) : Linked next' prev' a l b := by
  induction l generalizing a with
  | nil => exact ⟨(hn a (by simp)).trans h.1, (hp b (by simp)).trans h.2⟩
  | cons c l ih =>
    obtain ⟨hac, hca, h⟩ := h
    refine ⟨(hn a (by simp)).trans hac, (hp c (by simp)).trans hca, ih ?_ ?_ h⟩
    · exact fun y hy => hn y (List.mem_cons_of_mem a hy)
    · exact fun y hy => hp y (List.mem_cons_of_mem c hy)

omit [DecidableEq α] in
theorem append_iff :
    Linked next prev a (l₁ ++ x :: l₂) b ↔ Linked next prev a l₁ x ∧ Linked next prev x l₂ b := by
  induction l₁ generalizing a with
  | nil => simp [Linked, and_assoc]
  | cons c l₁ ih => simp [Linked, ih, and_assoc]

omit [DecidableEq α] in
theorem next_mem (h : Linked next prev a l b) : next a ∈ l ++ [b] := by
  cases l with
  | nil => simp [h.1]
  | cons c l => simp [h.1]

omit [DecidableEq α] in
theorem prev_eq (h : Linked next prev a l b) : prev b = (a :: l).getLast (by simp) := by
  induction l generalizing a with
  | nil => exact h.2
  | cons c l ih => simpa using ih h.2.2

omit [DecidableEq α] in
theorem prev_mem (h : Linked next prev a l b) : prev b ∈ a :: l :=
  h.prev_eq ▸ List.getLast_mem _

/-- The two assignments that take `x` out. -/
theorem unlink (ha : (a :: (l₁ ++ x :: l₂)).Nodup) (hb : (l₁ ++ x :: l₂ ++ [b]).Nodup)
    (h₁ : Linked next prev a l₁ x) (h₂ : Linked next prev x l₂ b) :
    Linked (Function.update next (prev x) (next x)) (Function.update prev (next x) (prev x))
      a (l₁ ++ l₂) b := by
  induction l₁ generalizing a with
  | nil =>
    obtain ⟨hax, hxa⟩ := h₁
    cases l₂ with
    | nil => simp [Linked, h₂.1, hxa]
    | cons n l₂ =>
      obtain ⟨hxn, hnx, h₂⟩ := h₂
      refine ⟨by simp [hxa, hxn], by simp [hxa, hxn], h₂.congr ?_ ?_⟩
      · intro y hy
        have hya : y ≠ a := fun e => (List.nodup_cons.mp ha).1 (by simp_all)
        simp [hxa, hya]
      · intro y hy
        have hyn : y ≠ n := fun e => (List.nodup_cons.mp (List.nodup_cons.mp hb).2).1 (e ▸ hy)
        simp [hxn, hyn]
  | cons c l₁ ih =>
    obtain ⟨hac, hca, h₁⟩ := h₁
    obtain ⟨hna, ha⟩ := List.nodup_cons.mp ha
    obtain ⟨hnc, hb⟩ := List.nodup_cons.mp hb
    have hap : a ≠ prev x := fun e => hna (by
      have := h₁.prev_mem
      rw [← e] at this
      simp only [List.cons_append, List.mem_cons, List.mem_append] at this ⊢
      exact this.imp_right .inl)
    have hcn : c ≠ next x := fun e => hnc (by
      have := h₂.next_mem
      rw [← e] at this
      simpa using .inr (.inr (by simpa using this)))
    exact ⟨by rwa [Function.update_of_ne hap], by rwa [Function.update_of_ne hcn], ih ha hb h₁⟩

omit [DecidableEq α] in
theorem next_getLast_mem (h : Linked next prev a (l₁ ++ l₂) b) :
    next ((a :: l₁).getLast (by simp)) ∈ l₂ ++ [b] := by
  induction l₁ generalizing a with
  | nil => exact h.next_mem
  | cons c l₁ ih => simpa using ih h.2.2

/-- The four assignments that put `x` behind the last element of `a :: l₁`. -/
theorem link (ha : (a :: (l₁ ++ l₂)).Nodup) (hb : (l₁ ++ l₂ ++ [b]).Nodup)
    (hx : x ∉ a :: (l₁ ++ l₂) ++ [b]) (h : Linked next prev a (l₁ ++ l₂) b) {p : α}
    (hp : p = (a :: l₁).getLast (by simp)) :
    Linked (Function.update (Function.update next x (next p)) p x)
      (Function.update (Function.update prev x p) (next p) x) a (l₁ ++ x :: l₂) b := by
  induction l₁ generalizing a with
  | nil =>
    obtain rfl : p = a := hp
    have hxp : x ≠ p := fun e => hx (by simp [e])
    cases l₂ with
    | nil =>
      have hxb : x ≠ b := fun e => hx (by simp [e])
      simp [Linked, h.1, hxp, hxb]
    | cons n l₂ =>
      obtain ⟨hpn, hnp, h⟩ := h
      have hxn : x ≠ n := fun e => hx (by simp [e])
      refine ⟨by simp, by simp [hpn, hxn], by simp [hpn, hxp], by simp [hpn], h.congr ?_ ?_⟩
      · intro y hy
        have hyp : y ≠ p := fun e => (List.nodup_cons.mp ha).1 (by simp_all)
        have hyx : y ≠ x := fun e => hx (by simp_all)
        simp [hyp, hyx]
      · intro y hy
        have hyn : y ≠ n := fun e => (List.nodup_cons.mp hb).1 (by simpa [e] using hy)
        have hyx : y ≠ x := fun e => hx (by simp_all)
        simp [hpn, hyn, hyx]
  | cons c l₁ ih =>
    obtain ⟨hac, hca, h⟩ := h
    obtain ⟨hna, ha⟩ := List.nodup_cons.mp ha
    obtain ⟨hnc, hb⟩ := List.nodup_cons.mp hb
    have hp : p = (c :: l₁).getLast (by simp) := by simpa using hp
    have hap : a ≠ p := fun e => hna (by
      have := List.getLast_mem (l := c :: l₁) (by simp)
      rw [← hp, ← e] at this
      simp only [List.cons_append, List.mem_cons, List.mem_append] at this ⊢
      exact this.imp_right .inl)
    have hcn : c ≠ next p := fun e => hnc (by
      have := h.next_getLast_mem
      rw [← hp, ← e] at this
      simpa using .inr (by simpa using this))
    have hax : a ≠ x := fun e => hx (by simp [e])
    have hcx : c ≠ x := fun e => hx (by simp [e])
    refine ⟨by simp [hap, hax, hac], by simp [hcn, hcx, hca], ih ha hb ?_ h hp⟩
    exact fun hmem => hx (List.mem_cons_of_mem a hmem)

end Linked

namespace IsRing

omit [DecidableEq α] in
theorem nodup_append (h : IsRing next prev s l) : (l ++ [s]).Nodup := by
  have := h.nodup
  rw [List.nodup_cons] at this
  exact List.nodup_append.mpr ⟨this.2, by simp, fun y hy z hz e => this.1 (by simp_all)⟩

/-- Taking `x` out of a ring. -/
theorem unlink (h : IsRing next prev s (l₁ ++ x :: l₂)) :
    IsRing (Function.update next (prev x) (next x)) (Function.update prev (next x) (prev x))
      s (l₁ ++ l₂) := by
  obtain ⟨h₁, h₂⟩ := Linked.append_iff.mp h.linked
  refine ⟨Linked.unlink h.nodup h.nodup_append h₁ h₂, h.nodup.sublist ?_⟩
  exact ((List.sublist_cons_self x l₂).append_left l₁).cons_cons s

/-- Putting a new `x` behind the last element of `s :: l₁`. -/
theorem link (h : IsRing next prev s (l₁ ++ l₂)) (hx : x ∉ s :: (l₁ ++ l₂)) {p : α}
    (hp : p = (s :: l₁).getLast (by simp)) :
    IsRing (Function.update (Function.update next x (next p)) p x)
      (Function.update (Function.update prev x p) (next p) x) s (l₁ ++ x :: l₂) := by
  refine ⟨Linked.link h.nodup h.nodup_append ?_ h.linked hp, ?_⟩
  · intro hmem
    rcases List.mem_append.mp hmem with hmem | hmem
    · exact hx hmem
    · exact hx (by simp_all)
  · have hperm : (s :: (l₁ ++ x :: l₂)).Perm (x :: s :: (l₁ ++ l₂)) :=
      (List.perm_middle.cons s).trans (List.Perm.swap x s _)
    exact hperm.nodup_iff.mpr (List.nodup_cons.mpr ⟨hx, h.nodup⟩)

omit [DecidableEq α] in
theorem congr (h : IsRing next prev s l) (hn : ∀ y ∈ s :: l, next' y = next y)
    (hp : ∀ y ∈ s :: l, prev' y = prev y) : IsRing next' prev' s l :=
  ⟨h.linked.congr hn fun y hy => hp y (by simp_all [or_comm]), h.nodup⟩

omit [DecidableEq α] in
theorem prev_eq (h : IsRing next prev s l) : prev s = (s :: l).getLast (by simp) :=
  h.linked.prev_eq

omit [DecidableEq α] in
theorem next_eq (h : IsRing next prev s l) : next s = l.headD s := by
  cases l with
  | nil => exact h.linked.1
  | cons x l => exact h.linked.1

omit [DecidableEq α] in
theorem neighbours_mem (h : IsRing next prev s l) (hx : x ∈ l) :
    prev x ∈ s :: l ∧ next x ∈ s :: l := by
  obtain ⟨l₁, l₂, rfl⟩ := List.append_of_mem hx
  obtain ⟨h₁, h₂⟩ := Linked.append_iff.mp h.linked
  have hp := h₁.prev_mem
  have hn := h₂.next_mem
  simp only [List.mem_cons, List.mem_append, List.not_mem_nil, or_false] at hp hn ⊢
  exact ⟨hp.imp_right .inl, by tauto⟩

theorem erase (h : IsRing next prev s l) (hx : x ∈ l) :
    IsRing (Function.update next (prev x) (next x)) (Function.update prev (next x) (prev x))
      s (l.erase x) := by
  obtain ⟨l₁, l₂, -, rfl, herase⟩ := List.exists_erase_eq hx
  rw [herase]
  exact h.unlink

omit [DecidableEq α] in
theorem notMem (h : IsRing next prev s l) : s ∉ l := (List.nodup_cons.mp h.nodup).1

end IsRing

/-! ### Walks -/

section Walks

variable (next : α → α) (stop : α) (p : α → Bool)

/-- The first node from `x` on that satisfies `p`, if there is one before `stop`;
`none` when the fuel runs out. -/
def findFrom : ℕ → α → Option (Option α)
  | 0, _ => none
  | fuel + 1, x =>
    if x = stop then some none
    else if p x then some (some x)
    else findFrom fuel (next x)

/-- The last node from `x` on before `stop` or before a node that violates `p`. -/
def seekFrom : ℕ → α → Option α
  | 0, _ => none
  | fuel + 1, x => if next x ≠ stop ∧ p (next x) then seekFrom fuel (next x) else some x

/-- The nodes from `x` on before `stop`; `none` when the fuel runs out. -/
def nodesFrom : ℕ → α → Option (List α)
  | 0, _ => none
  | fuel + 1, x => if x = stop then some [] else (nodesFrom fuel (next x)).map (x :: ·)

end Walks

theorem Linked.nodesFrom_eq (h : Linked next prev a l b) (hb : b ∉ l) {fuel : ℕ}
    (hfuel : l.length < fuel) : nodesFrom next b fuel (next a) = some l := by
  induction l generalizing a fuel with
  | nil =>
    obtain ⟨fuel, rfl⟩ := Nat.exists_eq_add_of_lt hfuel
    simp [nodesFrom, h.1]
  | cons c l ih =>
    obtain ⟨hac, _, h⟩ := h
    obtain ⟨fuel, rfl⟩ : ∃ n, fuel = n + 1 := ⟨fuel - 1, by omega⟩
    have hcb : c ≠ b := fun e => hb (by simp [e])
    have hrec := ih h (fun e => hb (by simp [e])) (Nat.lt_of_succ_lt_succ hfuel)
    simp [nodesFrom, hac, hcb, hrec]

theorem Linked.findFrom_eq {p : α → Bool} (h : Linked next prev a l b) (hb : b ∉ l) {fuel : ℕ}
    (hfuel : l.length < fuel) : findFrom next b p fuel (next a) = some (l.find? p) := by
  induction l generalizing a fuel with
  | nil =>
    obtain ⟨fuel, rfl⟩ := Nat.exists_eq_add_of_lt hfuel
    simp [findFrom, h.1]
  | cons c l ih =>
    obtain ⟨hac, _, h⟩ := h
    obtain ⟨fuel, rfl⟩ : ∃ n, fuel = n + 1 := ⟨fuel - 1, by omega⟩
    have hcb : c ≠ b := fun e => hb (by simp [e])
    by_cases hp : p c
    · simp [findFrom, hac, hcb, hp]
    · have hrec := ih h (fun e => hb (by simp [e])) (Nat.lt_of_succ_lt_succ hfuel)
      simp [findFrom, hac, hcb, hp, hrec]

theorem Linked.seekFrom_eq {p : α → Bool} (h : Linked next prev a l b) (hb : b ∉ l) {fuel : ℕ}
    (hfuel : l.length < fuel) :
    seekFrom next b p fuel a = some ((a :: l.takeWhile p).getLast (by simp)) := by
  induction l generalizing a fuel with
  | nil =>
    obtain ⟨fuel, rfl⟩ := Nat.exists_eq_add_of_lt hfuel
    simp [seekFrom, h.1]
  | cons c l ih =>
    obtain ⟨hac, _, h⟩ := h
    obtain ⟨fuel, rfl⟩ : ∃ n, fuel = n + 1 := ⟨fuel - 1, by omega⟩
    have hcb : c ≠ b := fun e => hb (by simp [e])
    by_cases hp : p c
    · have hrec := ih h (fun e => hb (by simp [e])) (Nat.lt_of_succ_lt_succ hfuel)
      simp [seekFrom, hac, hcb, hp, hrec]
    · simp [seekFrom, hac, hp]

/-- The nodes of a ring are pairwise distinct numbers, so a bound on them is
enough fuel to walk around it. -/
theorem length_lt_of_nodup {s n : ℕ} {l : List ℕ} (h : (s :: l).Nodup)
    (hn : ∀ x ∈ s :: l, x < n) : l.length < n := by
  have hsub : s :: l ⊆ List.range n := fun x hx => List.mem_range.mpr (hn x hx)
  simpa [Nat.succ_le_iff] using (h.subperm hsub).length_le

end Course.Lib
