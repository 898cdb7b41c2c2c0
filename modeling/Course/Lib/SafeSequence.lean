import Mathlib.Algebra.BigOperators.Group.List.Basic
import Mathlib.Algebra.Order.BigOperators.Group.List
import Mathlib.Algebra.Order.Group.Defs
import Mathlib.Data.List.Nodup
import Mathlib.Tactic.Abel

/-! Resource claims over an arbitrary ordered group of resource vectors: the
orders in which every claimant can be served from what is free and from what
the claimants served before it give back. -/

universe u v

namespace Course.Lib.SafeSequence

variable {ι : Type u} {V : Type v} [AddCommGroup V] [PartialOrder V]

/-- Starting from `free`, each claimant of the list finds its need covered and
then returns what it holds. -/
def Serves (need held : ι → V) : V → List ι → Prop
  | _, [] => True
  | free, i :: is => need i ≤ free ∧ Serves need held (free + held i) is

instance Serves.decidable [DecidableLE V] (need held : ι → V) :
    ∀ free is, Decidable (Serves need held free is)
  | _, [] => inferInstanceAs (Decidable True)
  | free, i :: is =>
    have := Serves.decidable need held (free + held i) is
    inferInstanceAs (Decidable (_ ∧ _))

/-- Some order of all claimants serves each of them. -/
def Safe (need held : ι → V) (free : V) : Prop :=
  ∃ is : List ι, is.Nodup ∧ (∀ i, i ∈ is) ∧ Serves need held free is

variable {need need' held held' : ι → V} {free free' : V}

theorem Serves.congr (h : ∀ i ∈ is, need i = need' i ∧ held i = held' i) :
    Serves need held free is ↔ Serves need' held' free is := by
  induction is generalizing free with
  | nil => rfl
  | cons i is ih =>
    have hi := h i (by simp)
    rw [Serves, Serves, hi.1, hi.2, ih fun j hj => h j (by simp [hj])]

theorem serves_append : Serves need held free (is ++ js) ↔
    Serves need held free is ∧ Serves need held (free + (is.map held).sum) js := by
  induction is generalizing free with
  | nil => simp [Serves]
  | cons i is ih => simp [Serves, ih, and_assoc, add_assoc]

variable [IsOrderedAddMonoid V]

theorem Serves.mono (hneed : ∀ i, need' i ≤ need i) (hfree : free ≤ free')
    (h : Serves need held free is) : Serves need' held free' is := by
  induction is generalizing free free' with
  | nil => trivial
  | cons i is ih =>
    obtain ⟨hi, his⟩ := h
    exact ⟨(hneed i).trans (hi.trans hfree), ih (add_le_add_left hfree _) his⟩

/-- A claimant that hands back `r` may claim `r` again: the order that served
everyone before still does. -/
theorem Serves.release [DecidableEq ι] {c : ι} {r : V} (hr : 0 ≤ r) (hnd : is.Nodup)
    (hc : c ∈ is) (h : Serves need held free is) :
    Serves (Function.update need c (need c + r)) (Function.update held c (held c - r))
      (free + r) is := by
  induction is generalizing free with
  | nil => cases hc
  | cons i is ih =>
    obtain ⟨hi, his⟩ := h
    obtain ⟨hni, hnd⟩ := List.nodup_cons.mp hnd
    by_cases hci : c = i
    · -- from the turn of `c` on, the same resources are free as before
      subst hci
      have hfree : free + r + (held c - r) = free + held c := by abel
      simp only [Serves, Function.update_self, hfree]
      refine ⟨add_le_add_left hi r, (Serves.congr fun j hj => ?_).mp his⟩
      have hjc : j ≠ c := fun h => hni (h ▸ hj)
      simp [hjc]
    · have hic : i ≠ c := fun h => hci h.symm
      have hfree : free + r + held i = free + held i + r := by abel
      simp only [Serves, Function.update_of_ne hic, hfree]
      exact ⟨hi.trans (le_add_of_nonneg_right hr),
        ih hnd ((List.mem_cons.mp hc).resolve_left hci) his⟩

/-- Whoever was served so far, in whatever order, the first of the others in a
safe order can be served next: all those before it have given back. -/
theorem Safe.exists_need_le {is : List ι} (h : Safe need held free)
    (hheld : ∀ i, 0 ≤ held i) (hrest : ∃ i, i ∉ is) :
    ∃ i, i ∉ is ∧ need i ≤ free + (is.map held).sum := by
  obtain ⟨js, hnd, hall, hs⟩ := h
  obtain ⟨i, hi⟩ := hrest
  classical
  obtain ⟨next, hnext⟩ : ∃ next, js.find? (fun j => decide (j ∉ is)) = some next :=
    Option.isSome_iff_exists.mp (List.find?_isSome.mpr ⟨i, hall i, decide_eq_true hi⟩)
  obtain ⟨hnot, before, after, rfl, hbefore⟩ := List.find?_eq_some_iff_append.mp hnext
  refine ⟨next, of_decide_eq_true hnot, ?_⟩
  have hsub : before.Subperm is := by
    refine List.subperm_of_subset (List.Nodup.of_append_left hnd) fun j hj => ?_
    simpa using hbefore j hj
  obtain ⟨same, hperm, hsublist⟩ := hsub
  have hneed : need next ≤ free + (before.map held).sum := (serves_append.mp hs).2.1
  have hsum : (before.map held).sum ≤ (is.map held).sum := by
    rw [← (hperm.map held).sum_eq]
    refine (hsublist.map held).sum_le_sum fun x hx => ?_
    obtain ⟨j, -, rfl⟩ := List.mem_map.mp hx
    exact hheld j
  exact hneed.trans (add_le_add_right hsum free)

theorem Safe.release [DecidableEq ι] (c : ι) {r : V} (hr : 0 ≤ r)
    (h : Safe need held free) :
    Safe (Function.update need c (need c + r)) (Function.update held c (held c - r))
      (free + r) :=
  let ⟨is, hnd, hall, hs⟩ := h
  ⟨is, hnd, hall, hs.release hr hnd (hall c)⟩

/-- A claimant that needs nothing more may hand back all it holds. -/
theorem Safe.finish [DecidableEq ι] (c : ι) (hc : need c = 0) (hheld : 0 ≤ held c)
    (h : Safe need held free) :
    Safe need (Function.update held c 0) (free + held c) := by
  obtain ⟨is, hnd, hall, hs⟩ := h.release c hheld
  refine ⟨is, hnd, hall, ?_⟩
  rw [sub_self] at hs
  refine hs.mono (fun i => ?_) le_rfl
  by_cases hi : i = c
  · subst hi
    simpa [hc] using hheld
  · simp [hi]

end Course.Lib.SafeSequence
