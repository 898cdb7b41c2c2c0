import Mathlib.Algebra.Order.Group.Int
import Mathlib.Data.Int.Notation
import Mathlib.Data.List.Nodup
import Mathlib.Logic.Equiv.Basic
import Mathlib.Logic.Function.Basic

/-! Segments of a memory of elements: what is between two addresses, rearranged
and in order. -/

namespace Course.Lib.Segment

variable {T : Type}

/-- The elements from `lo` up to `hi`. -/
def elements (mem : ℤ → T) (lo hi : ℤ) : List T :=
  (List.range (hi - lo).toNat).map fun k : ℕ => mem (lo + k)

/-- `mem'` is `mem` with the elements from `lo` up to `hi` in another order. -/
def Rearranges (lo hi : ℤ) (mem mem' : ℤ → T) : Prop :=
  ∃ σ : Equiv.Perm ℤ, (∀ p, p < lo ∨ hi ≤ p → σ p = p) ∧ mem' = mem ∘ σ

variable {mem mem' mem'' : ℤ → T} {lo hi : ℤ}

theorem elements_of_le (h : hi ≤ lo) : elements mem lo hi = [] := by
  rw [elements, Int.toNat_of_nonpos (by omega), List.range_zero, List.map_nil]

@[simp] theorem length_elements : (elements mem lo hi).length = (hi - lo).toNat := by
  rw [elements, List.length_map, List.length_range]

theorem elements_append (mid : ℤ) (hlo : lo ≤ mid) (hhi : mid ≤ hi) :
    elements mem lo hi = elements mem lo mid ++ elements mem mid hi := by
  have hlen : (hi - lo).toNat = (mid - lo).toNat + (hi - mid).toNat := by omega
  rw [elements, hlen, List.range_add, List.map_append, List.map_map, elements, elements]
  congr 1
  refine List.map_congr_left fun k _ => congrArg mem ?_
  push_cast
  omega

theorem elements_cons (h : lo < hi) :
    elements mem lo hi = mem lo :: elements mem (lo + 1) hi := by
  rw [elements_append (lo + 1) (by omega) (by omega), elements,
    show (lo + 1 - lo).toNat = 1 by omega]
  simp

theorem elements_congr (h : ∀ p, lo ≤ p → p < hi → mem' p = mem p) :
    elements mem' lo hi = elements mem lo hi := by
  refine List.map_congr_left fun k hk => h _ (by omega) ?_
  rw [List.mem_range] at hk
  omega

/-- `l` written from `lo` on. -/
def store (mem : ℤ → T) (lo : ℤ) : List T → ℤ → T
  | [] => mem
  | x :: l => store (Function.update mem lo x) (lo + 1) l

theorem store_of_lt {l : List T} {p : ℤ} (h : p < lo) : store mem lo l p = mem p := by
  induction l generalizing mem lo with
  | nil => rfl
  | cons x l ih => rw [store, ih (by omega), Function.update_of_ne (by omega)]

theorem store_append (l l' : List T) :
    store mem lo (l ++ l') = store (store mem lo l) (lo + l.length) l' := by
  induction l generalizing mem lo with
  | nil => simp [store]
  | cons x l ih =>
    rw [List.cons_append, store, store, ih, List.length_cons]
    congr 1
    push_cast
    omega

theorem elements_store {l : List T} (h : hi = lo + l.length) :
    elements (store mem lo l) lo hi = l := by
  induction l generalizing mem lo with
  | nil => exact elements_of_le (by simpa using h.le)
  | cons x l ih =>
    rw [List.length_cons] at h
    push_cast at h
    rw [elements_cons (by omega), store, store_of_lt (by omega), Function.update_self,
      ih (by omega)]

namespace Rearranges

theorem refl (lo hi : ℤ) (mem : ℤ → T) : Rearranges lo hi mem mem :=
  ⟨Equiv.refl ℤ, fun _ _ => rfl, rfl⟩

theorem trans (h : Rearranges lo hi mem mem') (h' : Rearranges lo hi mem' mem'') :
    Rearranges lo hi mem mem'' := by
  obtain ⟨σ, hσ, rfl⟩ := h
  obtain ⟨τ, hτ, rfl⟩ := h'
  refine ⟨τ.trans σ, fun p hp => ?_, rfl⟩
  rw [Equiv.trans_apply, hτ p hp, hσ p hp]

theorem widen {lo' hi' : ℤ} (h : Rearranges lo hi mem mem') (hlo : lo' ≤ lo) (hhi : hi ≤ hi') :
    Rearranges lo' hi' mem mem' := by
  obtain ⟨σ, hσ, rfl⟩ := h
  exact ⟨σ, fun p hp => hσ p (hp.imp (fun h => h.trans_le hlo) fun h => hhi.trans h), rfl⟩

theorem swap (mem : ℤ → T) {p q : ℤ} (hp : lo ≤ p ∧ p < hi) (hq : lo ≤ q ∧ q < hi) :
    Rearranges lo hi mem (Function.update (Function.update mem p (mem q)) q (mem p)) := by
  refine ⟨Equiv.swap p q, fun x hx => Equiv.swap_apply_of_ne_of_ne (by omega) (by omega), ?_⟩
  funext x
  by_cases hxq : x = q
  · subst hxq
    simp
  · by_cases hxp : x = p
    · subst hxp
      simp [hxq]
    · simp [hxq, hxp, Equiv.swap_apply_of_ne_of_ne]

theorem outside (h : Rearranges lo hi mem mem') {p : ℤ} (hp : p < lo ∨ hi ≤ p) :
    mem' p = mem p := by
  obtain ⟨σ, hσ, rfl⟩ := h
  rw [Function.comp_apply, hσ p hp]

theorem inside {σ : Equiv.Perm ℤ} (hσ : ∀ p, p < lo ∨ hi ≤ p → σ p = p) {p : ℤ}
    (hp : lo ≤ p ∧ p < hi) : lo ≤ σ p ∧ σ p < hi := by
  by_contra hout
  have hfix : σ (σ p) = σ p := hσ (σ p) (by omega)
  have heq : σ p = p := σ.injective hfix
  omega

/-- What holds of all elements of a segment still does. -/
theorem all {P : T → Prop} (h : Rearranges lo hi mem mem')
    (hP : ∀ p, lo ≤ p → p < hi → P (mem p)) {p : ℤ} (hlo : lo ≤ p) (hhi : p < hi) :
    P (mem' p) := by
  obtain ⟨σ, hσ, rfl⟩ := h
  obtain ⟨hlo', hhi'⟩ := inside hσ ⟨hlo, hhi⟩
  exact hP (σ p) hlo' hhi'

/-- Two segments of one apart, each rearranged by itself. -/
theorem glue {mid mid' : ℤ} {n n' : ℤ → T} (hlo : lo ≤ mid) (hmid : mid ≤ mid') (hhi : mid' ≤ hi)
    (h : Rearranges lo mid mem n) (h' : Rearranges mid' hi mem n')
    (hn : ∀ p, lo ≤ p → p < mid → mem' p = n p) (hn' : ∀ p, mid' ≤ p → p < hi → mem' p = n' p)
    (hout : ∀ p, ¬(lo ≤ p ∧ p < mid) → ¬(mid' ≤ p ∧ p < hi) → mem' p = mem p) :
    Rearranges lo hi mem mem' := by
  obtain ⟨σ, hσ, rfl⟩ := h
  obtain ⟨τ, hτ, rfl⟩ := h'
  refine ⟨τ.trans σ, fun p hp => ?_, funext fun p => ?_⟩
  · rw [Equiv.trans_apply, hτ p (by omega), hσ p (by omega)]
  · rw [Function.comp_apply, Equiv.trans_apply]
    by_cases hp' : mid' ≤ p ∧ p < hi
    · obtain ⟨hlt, -⟩ := inside hτ hp'
      rw [hσ (τ p) (by omega)]
      exact hn' p hp'.1 hp'.2
    · rw [hτ p (by omega)]
      by_cases hp : lo ≤ p ∧ p < mid
      · exact hn p hp.1 hp.2
      · rw [hσ p (by omega)]
        exact hout p hp hp'

theorem perm (h : Rearranges lo hi mem mem') :
    (elements mem' lo hi).Perm (elements mem lo hi) := by
  obtain ⟨σ, hσ, rfl⟩ := h
  let places := (List.range (hi - lo).toNat).map fun k : ℕ => lo + (k : ℤ)
  have hmem : ∀ p, p ∈ places ↔ lo ≤ p ∧ p < hi := by
    intro p
    simp only [places, List.mem_map, List.mem_range]
    exact ⟨fun ⟨k, hk, hp⟩ => by omega, fun hp => ⟨(p - lo).toNat, by omega, by omega⟩⟩
  have hnodup : places.Nodup :=
    List.nodup_range.map fun k k' heq => by
      have : lo + (k : ℤ) = lo + (k' : ℤ) := heq
      omega
  have hσperm : (places.map σ).Perm places := by
    refine (List.perm_ext_iff_of_nodup (hnodup.map σ.injective) hnodup).mpr fun p => ?_
    constructor
    · intro hp
      obtain ⟨q, hq, rfl⟩ := List.mem_map.mp hp
      exact (hmem _).mpr (inside hσ ((hmem q).mp hq))
    · intro hp
      have hσ' : ∀ q, q < lo ∨ hi ≤ q → σ.symm q = q := fun q hq =>
        (Equiv.symm_apply_eq σ).mpr (hσ q hq).symm
      exact List.mem_map.mpr ⟨σ.symm p, (hmem _).mpr (inside hσ' ((hmem p).mp hp)), by simp⟩
  have hmap := hσperm.map mem
  simpa [places, elements, Function.comp_def] using hmap

end Rearranges

/-- No later element of the segment is less than an earlier one. -/
def Ordered (lt : T → T → Bool) (mem : ℤ → T) (lo hi : ℤ) : Prop :=
  ∀ p q, lo ≤ p → p < q → q < hi → lt (mem q) (mem p) = false

variable {lt : T → T → Bool}

theorem Ordered.of_le (h : hi - lo ≤ 1) : Ordered lt mem lo hi := fun p q _ _ _ => by omega

theorem Ordered.append {mid : ℤ} (hleft : Ordered lt mem lo mid) (hright : Ordered lt mem mid hi)
    (hcross : ∀ p q, lo ≤ p → p < mid → mid ≤ q → q < hi → lt (mem q) (mem p) = false) :
    Ordered lt mem lo hi := by
  intro p q hp hpq hq
  by_cases hqm : q < mid
  · exact hleft p q hp hpq hqm
  · by_cases hpm : p < mid
    · exact hcross p q hp hpm (not_lt.mp hqm) hq
    · exact hright p q (not_lt.mp hpm) hpq hq

theorem Ordered.congr (h : Ordered lt mem lo hi) (hsame : ∀ p, lo ≤ p → p < hi → mem' p = mem p) :
    Ordered lt mem' lo hi := by
  intro p q hp hpq hq
  rw [hsame p hp (hpq.trans hq), hsame q (hp.trans hpq.le) hq]
  exact h p q hp hpq hq

theorem Ordered.pairwise (h : Ordered lt mem lo hi) :
    (elements mem lo hi).Pairwise fun x y => lt y x = false := by
  rw [elements, List.pairwise_map]
  refine List.pairwise_lt_range.imp_of_mem fun ha hb hab => ?_
  rw [List.mem_range] at ha hb
  exact h _ _ (by omega) (by omega) (by omega)

end Course.Lib.Segment
