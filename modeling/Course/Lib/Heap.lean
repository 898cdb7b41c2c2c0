import Mathlib.Data.Multiset.Basic
import Mathlib.Data.Multiset.MapFold
import Mathlib.Data.Nat.Notation
import Mathlib.Logic.Function.Basic

/-! A store of records behind pointers, the programs that read and write it, and
assertions that name the records a program touches and leave the others in a
frame. A program calls itself with `apply`: an application would leave a mark
of its place in the file in the term. -/

namespace Course.Lib

structure Heap (ν : Type) where
  cells : ℕ → Option ν
  fresh : ℕ

abbrev Ptr := Option ℕ

/-- Programs are stuck at a null pointer and at one that dangles. -/
abbrev Prog (ν : Type) := StateT (Heap ν) Option

namespace Heap

variable {ν α β : Type}

def set (h : Heap ν) (a : ℕ) (n : ν) : Heap ν :=
  { h with cells := Function.update h.cells a (some n) }

def deref (p : Ptr) : Prog ν ν := fun h => do
  let a ← p
  let n ← h.cells a
  return (n, h)

def assign (p : Ptr) (f : ν → ν) : Prog ν Unit := fun h => do
  let a ← p
  let n ← h.cells a
  return ((), h.set a (f n))

def new (n : ν) : Prog ν ℕ := fun h =>
  return (h.fresh, { h.set h.fresh n with fresh := h.fresh + 1 })

def delete (p : Ptr) : Prog ν Unit := fun h => do
  let a ← p
  let _ ← h.cells a
  return ((), { h with cells := Function.update h.cells a none })

def when (c : Prop) [Decidable c] (x : Prog ν Unit) : Prog ν Unit := if c then x else pure ()

/-! ### Total correctness -/

/-- The program ends, with a result and a store that satisfy `Q`. -/
def wp (x : Prog ν α) (Q : α → Heap ν → Prop) (h : Heap ν) : Prop :=
  ∃ a h', x h = some (a, h') ∧ Q a h'

variable {x : Prog ν α} {f : α → Prog ν β} {Q Q' : α → Heap ν → Prop} {h h' : Heap ν}

theorem wp_pure (a : α) : wp (pure a) Q = Q a := by
  funext h
  apply propext
  constructor
  · rintro ⟨b, h', hx, hQ⟩
    cases hx
    exact hQ
  · exact fun hQ => ⟨a, h, rfl, hQ⟩

theorem wp_bind {Q : β → Heap ν → Prop} : wp (x >>= f) Q = wp x fun a => wp (f a) Q := by
  funext h
  apply propext
  constructor
  · rintro ⟨b, h', hx, hQ⟩
    obtain ⟨⟨a, h₁⟩, hxa, hfa⟩ := Option.bind_eq_some_iff.mp hx
    exact ⟨a, h₁, hxa, b, h', hfa, hQ⟩
  · rintro ⟨a, h₁, hxa, b, h', hfa, hQ⟩
    exact ⟨b, h', Option.bind_eq_some_iff.mpr ⟨(a, h₁), hxa, hfa⟩, hQ⟩

theorem wp_when_pos {c : Prop} [Decidable c] {x : Prog ν Unit} {Q : Unit → Heap ν → Prop}
    (hc : c) : wp (when c x) Q = wp x Q := by
  rw [when, if_pos hc]

theorem wp_when_neg {c : Prop} [Decidable c] {x : Prog ν Unit} {Q : Unit → Heap ν → Prop}
    (hc : ¬c) : wp (when c x) Q = Q () := by
  rw [when, if_neg hc, wp_pure]

theorem wp.mono (hx : wp x Q h) (hQ : ∀ a h', Q a h' → Q' a h') : wp x Q' h := by
  obtain ⟨a, h', hxa, hQa⟩ := hx
  exact ⟨a, h', hxa, hQ a h' hQa⟩

/-! ### Named records -/

/-- The store has the records `l`, which the program at hand touches, and those
of the frame `F`, all at different addresses. -/
structure Holds (h : Heap ν) (l : List (ℕ × ν)) (F : Multiset (ℕ × ν)) : Prop where
  nodup : ((↑l + F).map Prod.fst).Nodup
  cells : ∀ c ∈ ↑l + F, h.cells c.1 = some c.2
  fresh : ∀ c ∈ ↑l + F, c.1 < h.fresh

theorem coe_eq_cons {γ : Type} {l : List γ} {i : ℕ} {c : γ} (hi : l[i]? = some c) :
    (↑l : Multiset γ) = c ::ₘ ↑(l.eraseIdx i) := by
  obtain ⟨hlt, rfl⟩ := List.getElem?_eq_some_iff.mp hi
  exact Multiset.coe_eq_coe.mpr (List.getElem_cons_eraseIdx_perm hlt).symm

theorem coe_set {γ : Type} {l : List γ} {i : ℕ} {c : γ} (hi : l[i]? = some c) (c' : γ) :
    (↑(l.set i c') : Multiset γ) = c' ::ₘ ↑(l.eraseIdx i) := by
  obtain ⟨hlt, -⟩ := List.getElem?_eq_some_iff.mp hi
  exact Multiset.coe_eq_coe.mpr (List.set_perm_cons_eraseIdx hlt c')

variable {l l' : List (ℕ × ν)} {F F' : Multiset (ℕ × ν)} {a b i j : ℕ} {n n' : ν}

namespace Holds

theorem congr (hs : Holds h l F) (heq : (↑l : Multiset (ℕ × ν)) + F = ↑l' + F') :
    Holds h l' F' :=
  ⟨heq ▸ hs.nodup, heq ▸ hs.cells, heq ▸ hs.fresh⟩

/-- The record at an index, apart from the others. -/
theorem focus (hs : Holds h l F) (hi : l[i]? = some (a, n)) :
    Holds h [(a, n)] (↑(l.eraseIdx i) + F) := by
  apply hs.congr
  rw [coe_eq_cons hi, Multiset.cons_add, Multiset.coe_singleton, Multiset.singleton_add]

theorem notMem (hs : Holds h [(a, n)] F) : ∀ c ∈ F, c.1 ≠ a := by
  intro c hc heq
  have hnodup := hs.nodup
  rw [Multiset.coe_singleton, Multiset.singleton_add, Multiset.map_cons,
    Multiset.nodup_cons] at hnodup
  exact hnodup.1 (Multiset.mem_map.mpr ⟨c, hc, heq⟩)

theorem cells_of_getElem? (hs : Holds h l F) (hi : l[i]? = some (a, n)) : h.cells a = some n :=
  hs.cells (a, n) (Multiset.mem_add.mpr (.inl (Multiset.mem_coe.mpr (List.mem_of_getElem? hi))))

theorem cells_of_mem (hs : Holds h l F) (hF : (a, n) ∈ F) : h.cells a = some n :=
  hs.cells (a, n) (Multiset.mem_add.mpr (.inr hF))

theorem ne_of_mem (hs : Holds h l F) (hi : l[i]? = some (a, n)) (hF : (b, n') ∈ F) : b ≠ a :=
  (hs.focus hi).notMem (b, n') (Multiset.mem_add.mpr (.inr hF))

theorem ne (hs : Holds h l F) (hi : l[i]? = some (a, n)) (hj : l[j]? = some (b, n'))
    (hij : j ≠ i) : b ≠ a := by
  have hmem : (b, n') ∈ (↑(l.eraseIdx i) : Multiset (ℕ × ν)) :=
    Multiset.mem_coe.mpr (List.mem_eraseIdx_iff_getElem?.mpr ⟨j, hij, hj⟩)
  exact (hs.focus hi).notMem (b, n') (Multiset.mem_add.mpr (.inl hmem))

theorem set (hs : Holds h l F) (hi : l[i]? = some (a, n)) (n' : ν) :
    Holds (h.set a n') (l.set i (a, n')) F := by
  have hne := (hs.focus hi).notMem
  have hsplit : (↑(l.set i (a, n')) : Multiset (ℕ × ν)) + F =
      (a, n') ::ₘ (↑(l.eraseIdx i) + F) := by
    rw [coe_set hi, Multiset.cons_add]
  have hold : (↑l : Multiset (ℕ × ν)) + F = (a, n) ::ₘ (↑(l.eraseIdx i) + F) := by
    rw [coe_eq_cons hi, Multiset.cons_add]
  obtain ⟨hnodup, hcells, hfresh⟩ := hs
  rw [hold] at hnodup hcells hfresh
  constructor
  · rw [hsplit, Multiset.map_cons]
    rwa [Multiset.map_cons] at hnodup
  · rw [hsplit]
    intro c hc
    rcases Multiset.mem_cons.mp hc with rfl | hc
    · exact Function.update_self ..
    · exact (Function.update_of_ne (hne c hc) ..).trans (hcells c (Multiset.mem_cons_of_mem hc))
  · rw [hsplit]
    intro c hc
    rcases Multiset.mem_cons.mp hc with rfl | hc
    · exact hfresh (a, n) (Multiset.mem_cons_self ..)
    · exact hfresh c (Multiset.mem_cons_of_mem hc)

theorem erase (hs : Holds h l F) (hi : l[i]? = some (a, n)) :
    Holds { h with cells := Function.update h.cells a none } (l.eraseIdx i) F := by
  have hne := (hs.focus hi).notMem
  have hold : (↑l : Multiset (ℕ × ν)) + F = (a, n) ::ₘ (↑(l.eraseIdx i) + F) := by
    rw [coe_eq_cons hi, Multiset.cons_add]
  obtain ⟨hnodup, hcells, hfresh⟩ := hs
  rw [hold] at hnodup hcells hfresh
  rw [Multiset.map_cons, Multiset.nodup_cons] at hnodup
  refine ⟨hnodup.2, fun c hc => ?_, fun c hc => hfresh c (Multiset.mem_cons_of_mem hc)⟩
  exact (Function.update_of_ne (hne c hc) ..).trans (hcells c (Multiset.mem_cons_of_mem hc))

theorem new (hs : Holds h l F) (n : ν) :
    Holds { h.set h.fresh n with fresh := h.fresh + 1 } ((h.fresh, n) :: l) F := by
  have hold : (↑((h.fresh, n) :: l) : Multiset (ℕ × ν)) + F = (h.fresh, n) ::ₘ (↑l + F) := by
    rw [← Multiset.cons_coe, Multiset.cons_add]
  refine ⟨?_, ?_, ?_⟩
  · rw [hold, Multiset.map_cons, Multiset.nodup_cons]
    refine ⟨fun hmem => ?_, hs.nodup⟩
    obtain ⟨c, hc, heq⟩ := Multiset.mem_map.mp hmem
    exact absurd heq (Nat.ne_of_lt (hs.fresh c hc))
  · rw [hold]
    intro c hc
    rcases Multiset.mem_cons.mp hc with rfl | hc
    · exact Function.update_self ..
    · exact (Function.update_of_ne (Nat.ne_of_lt (hs.fresh c hc)) ..).trans (hs.cells c hc)
  · rw [hold]
    intro c hc
    rcases Multiset.mem_cons.mp hc with rfl | hc
    · exact Nat.lt_succ_self _
    · exact Nat.lt_succ_of_lt (hs.fresh c hc)

end Holds

/-! ### Rules -/

theorem wp_deref_of_cells {Q : ν → Heap ν → Prop} (hc : h.cells a = some n) (hQ : Q n h) :
    wp (deref (some a)) Q h := ⟨n, h, by simp [deref, hc], hQ⟩

theorem wp_deref {Q : ν → Heap ν → Prop} (hs : Holds h l F) (i : ℕ) (hi : l[i]? = some (a, n))
    (hQ : Q n h) : wp (deref (some a)) Q h :=
  wp_deref_of_cells (hs.cells_of_getElem? hi) hQ

theorem wp_deref_of_mem {Q : ν → Heap ν → Prop} (hs : Holds h l F) (hF : (a, n) ∈ F)
    (hQ : Q n h) : wp (deref (some a)) Q h :=
  wp_deref_of_cells (hs.cells_of_mem hF) hQ

theorem wp_assign {Q : Unit → Heap ν → Prop} {f : ν → ν} (hs : Holds h l F) (i : ℕ)
    (hi : l[i]? = some (a, n)) (hn : f n = n')
    (hQ : ∀ h', Holds h' (l.set i (a, n')) F → Q () h') : wp (assign (some a) f) Q h :=
  ⟨(), h.set a n', by simp [assign, hs.cells_of_getElem? hi, hn], hQ _ (hs.set hi n')⟩

theorem wp_new {Q : ℕ → Heap ν → Prop} (hs : Holds h l F)
    (hQ : ∀ a h', Holds h' ((a, n) :: l) F → Q a h') : wp (new n) Q h :=
  ⟨h.fresh, _, rfl, hQ h.fresh _ (hs.new n)⟩

theorem wp_delete_freed {Q : Unit → Heap ν → Prop} (hs : Holds h l F) (i : ℕ)
    (hi : l[i]? = some (a, n))
    (hQ : ∀ h', Holds h' (l.eraseIdx i) F → h'.cells a = none → Q () h') :
    wp (delete (some a)) Q h :=
  ⟨(), _, by simp [delete, hs.cells_of_getElem? hi], hQ _ (hs.erase hi) (Function.update_self ..)⟩

theorem wp_delete {Q : Unit → Heap ν → Prop} (hs : Holds h l F) (i : ℕ)
    (hi : l[i]? = some (a, n)) (hQ : ∀ h', Holds h' (l.eraseIdx i) F → Q () h') :
    wp (delete (some a)) Q h :=
  wp_delete_freed hs i hi fun h' hs' _ => hQ h' hs'

end Heap

end Course.Lib
