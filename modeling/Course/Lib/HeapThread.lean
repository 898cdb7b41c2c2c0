import Course.Lib.HeapArray

/-! Records with one pointer that is looked at apart from the rest: a function of the
addresses says where these pointers lead, and paths follow it. -/

namespace Course.Lib

open Heap

namespace HeapThread

variable {β ν : Type} (mk : β → Ptr → ν)

/-- The records of `S`, each with its pointer. -/
def cells (next : ℕ → Ptr) (S : Multiset (ℕ × β)) : Multiset (ℕ × ν) :=
  S.map fun c => (c.1, mk c.2 (next c.1))

/-- Null from the address `a` on. -/
def clear (next : ℕ → Ptr) (a k : ℕ) : ℕ → Ptr := fun b =>
  if a ≤ b ∧ b < a + k then none else next b

variable {mk} {next : ℕ → Ptr} {S T : Multiset (ℕ × β)} {F : Multiset (ℕ × ν)}
  {h : Heap ν} {a b k : ℕ} {p : Ptr} {x y : β}

theorem cells_add (S T : Multiset (ℕ × β)) :
    cells mk next (S + T) = cells mk next S + cells mk next T :=
  Multiset.map_add ..

theorem cells_singleton (a : ℕ) (x : β) :
    cells mk next {(a, x)} = {(a, mk x (next a))} :=
  Multiset.map_singleton ..

theorem cells_addrs : (cells mk next S).map Prod.fst = S.map Prod.fst := by
  rw [cells, Multiset.map_map]
  rfl

theorem cells_congr {next' : ℕ → Ptr} (h : ∀ a ∈ S.map Prod.fst, next' a = next a) :
    cells mk next' S = cells mk next S :=
  Multiset.map_congr rfl fun c hc => by rw [h c.1 (Multiset.mem_map_of_mem Prod.fst hc)]

theorem cells_update (ha : a ∉ S.map Prod.fst) (p : Ptr) :
    cells mk (Function.update next a p) S = cells mk next S :=
  cells_congr fun _ hb => Function.update_of_ne (ne_of_mem_of_not_mem hb ha) ..

theorem nodup_addrs (hs : Holds h [] (cells mk next S + F)) : (S.map Prod.fst).Nodup := by
  have hnodup := hs.nodup
  rw [Multiset.coe_nil, zero_add, Multiset.map_add, cells_addrs] at hnodup
  exact Multiset.nodup_of_le (Multiset.le_add_right ..) hnodup

theorem ne_of_mem {n : ν} (hs : Holds h [] (cells mk next S + F)) (ha : (a, x) ∈ S)
    (hb : (b, n) ∈ F) : a ≠ b := by
  have hnodup := hs.nodup
  rw [Multiset.coe_nil, zero_add, Multiset.map_add, cells_addrs] at hnodup
  rintro rfl
  exact Multiset.disjoint_left.mp (Multiset.nodup_add.mp hnodup).2.2
    (Multiset.mem_map_of_mem Prod.fst ha) (Multiset.mem_map_of_mem Prod.fst hb)

theorem notMem_of_nodup (h : (({(a, x)} + S).map Prod.fst).Nodup) : a ∉ S.map Prod.fst := by
  rw [Multiset.singleton_add, Multiset.map_cons, Multiset.nodup_cons] at h
  exact h.1

/-- The records of `S` alone. -/
theorem holds_right (hs : Holds h [] (cells mk next (T + S) + F)) :
    Holds h [] (cells mk next S + F) := by
  have hle : cells mk next S + F ≤ cells mk next (T + S) + F := by
    rw [cells_add, add_assoc]
    exact Multiset.le_add_left _ _
  have hnodup := hs.nodup
  have hcells := hs.cells
  have hfresh := hs.fresh
  simp only [Multiset.coe_nil, zero_add] at hnodup hcells hfresh
  constructor
  · rw [Multiset.coe_nil, zero_add]
    exact Multiset.nodup_of_le (Multiset.map_le_map hle) hnodup
  · rw [Multiset.coe_nil, zero_add]
    exact fun c hc => hcells c (Multiset.mem_of_le hle hc)
  · rw [Multiset.coe_nil, zero_add]
    exact fun c hc => hfresh c (Multiset.mem_of_le hle hc)

/-! ### Rules -/

theorem wp_deref {Q : ν → Heap ν → Prop} (hs : Holds h [] (cells mk next S + F))
    (ha : (a, x) ∈ S) (hQ : Q (mk x (next a)) h) : wp (deref (some a)) Q h :=
  wp_deref_of_mem hs (Multiset.mem_add.mpr (.inl (Multiset.mem_map.mpr ⟨_, ha, rfl⟩))) hQ

/-- One record apart. -/
theorem holds_cons : Holds h [] (cells mk next ({(a, x)} + S) + F) ↔
    Holds h [(a, mk x (next a))] (cells mk next S + F) := by
  have heq : (↑([] : List (ℕ × ν)) : Multiset (ℕ × ν)) + (cells mk next ({(a, x)} + S) + F) =
      ↑[(a, mk x (next a))] + (cells mk next S + F) := by
    rw [cells_add, cells_singleton, Multiset.coe_nil, zero_add, Multiset.coe_singleton, add_assoc]
  exact ⟨fun hs => hs.congr heq, fun hs => hs.congr heq.symm⟩

/-- The pointer is written. -/
theorem wp_assign_next {Q : Unit → Heap ν → Prop} {f : ν → ν}
    (hs : Holds h [] (cells mk next S + F)) (ha : (a, x) ∈ S) (hf : f (mk x (next a)) = mk x p)
    (hQ : ∀ h', Holds h' [] (cells mk (Function.update next a p) S + F) → Q () h') :
    wp (assign (some a) f) Q h := by
  obtain ⟨S, rfl⟩ := Multiset.exists_cons_of_mem ha
  rw [← Multiset.singleton_add] at hs hQ
  have hnot := notMem_of_nodup (nodup_addrs hs)
  apply Heap.wp_assign (holds_cons.mp hs) 0 rfl hf
  intro h' hs'
  apply hQ h'
  rw [holds_cons, Function.update_self, cells_update hnot]
  exact hs'

/-- The rest of a record is written. -/
theorem wp_assign_rest {Q : Unit → Heap ν → Prop} {f : ν → ν}
    (hs : Holds h [] (cells mk next T + F)) (hT : T = {(a, x)} + S)
    (hf : f (mk x (next a)) = mk y (next a))
    (hQ : ∀ h', Holds h' [] (cells mk next ({(a, y)} + S) + F) → Q () h') :
    wp (assign (some a) f) Q h := by
  subst hT
  apply Heap.wp_assign (holds_cons.mp hs) 0 rfl hf
  intro h' hs'
  exact hQ h' (holds_cons.mpr hs')

theorem wp_new {Q : ℕ → Heap ν → Prop} (hs : Holds h [] (cells mk next S + F))
    (hQ : ∀ a h', Holds h' [] (cells mk (Function.update next a p) ({(a, x)} + S) + F) →
      Q a h') : wp (new (mk x p)) Q h := by
  apply Heap.wp_new hs
  intro a h' hs'
  apply hQ a h'
  have hnot : a ∉ S.map Prod.fst := fun hmem => by
    have haddrs : (cells mk next S).map Prod.fst = S.map Prod.fst := cells_addrs
    rw [← haddrs] at hmem
    obtain ⟨c, hc, heq⟩ := Multiset.mem_map.mp hmem
    exact hs'.notMem c (Multiset.mem_add.mpr (.inl hc)) heq
  rw [holds_cons, Function.update_self, cells_update hnot]
  exact hs'

theorem wp_delete {Q : Unit → Heap ν → Prop} (hs : Holds h [] (cells mk next T + F))
    (hT : T = {(a, x)} + S) (hQ : ∀ h', Holds h' [] (cells mk next S + F) → Q () h') :
    wp (delete (some a)) Q h :=
  Heap.wp_delete (holds_cons.mp (hT ▸ hs)) 0 rfl hQ

/-! ### Arrays -/

theorem cells_array (x : β) : cells mk next (array a k fun _ => x) =
    array a k fun i => mk x (next (a + i)) :=
  map_array _ fun a x => mk x (next a)

theorem array_addrs (f : ℕ → β) :
    (array a k f).map Prod.fst = (Multiset.range k).map (a + ·) := by
  rw [array, Multiset.map_map]
  rfl

/-- All pointers of an array are null. -/
theorem cells_clear (x : β) (h : ((array a k fun _ => x) + S).map Prod.fst |>.Nodup) :
    cells mk (clear next a k) ((array a k fun _ => x) + S) =
      (array a k fun _ => mk x none) + cells mk next S := by
  rw [cells_add, cells_array]
  congr 1
  · apply Multiset.map_congr rfl
    intro i hi
    have hnull : clear next a k (a + i) = none :=
      if_pos ⟨Nat.le_add_right .., Nat.add_lt_add_left (Multiset.mem_range.mp hi) a⟩
    simp only [hnull]
  · apply cells_congr
    intro b hb
    rw [clear, if_neg]
    rintro ⟨hle, hlt⟩
    rw [Multiset.map_add] at h
    refine Multiset.disjoint_left.mp (Multiset.nodup_add.mp h).2.2 ?_ hb
    rw [array_addrs]
    exact Multiset.mem_map.mpr ⟨b - a, Multiset.mem_range.mpr (by omega), by omega⟩

theorem nodup_addrs_array {f : ℕ → ν} {x : β}
    (hs : Holds h [] (array a k f + (cells mk next S + F))) :
    (((array a k fun _ => x) + S).map Prod.fst).Nodup := by
  have hnodup := hs.nodup
  rw [Multiset.coe_nil, zero_add, ← add_assoc, Multiset.map_add, Multiset.map_add, cells_addrs,
    array_addrs, ← array_addrs fun _ => x, ← Multiset.map_add] at hnodup
  exact Multiset.nodup_of_le (Multiset.le_add_right ..) hnodup

theorem wp_newArray {Q : ℕ → Heap ν → Prop} (hs : Holds h [] (cells mk next S + F))
    (hQ : ∀ a h', Holds h' [] (cells mk (clear next a k) ((array a k fun _ => x) + S) + F) →
      Q a h') : wp (newArray (mk x none) k) Q h := by
  apply Heap.wp_newArray hs
  intro a h' hs'
  apply hQ a h'
  rw [cells_clear x (nodup_addrs_array hs'), add_assoc]
  exact hs'

theorem wp_fill {Q : Unit → Heap ν → Prop}
    (hs : Holds h [] (cells mk next ((array a k fun _ => x) + S) + F))
    (hQ : ∀ h', Holds h' [] (cells mk (clear next a k) ((array a k fun _ => x) + S) + F) →
      Q () h') : wp (fill a (mk x none) k) Q h := by
  rw [cells_add, cells_array, add_assoc] at hs
  apply Heap.wp_fill hs
  intro h' hs'
  apply hQ h'
  rw [cells_clear x (nodup_addrs_array hs'), add_assoc]
  exact hs'

theorem wp_deleteArray {Q : Unit → Heap ν → Prop}
    (hs : Holds h [] (cells mk next ((array a k fun _ => x) + S) + F))
    (hQ : ∀ h', Holds h' [] (cells mk next S + F) → Q () h') : wp (deleteArray a k) Q h := by
  rw [cells_add, cells_array, add_assoc] at hs
  exact Heap.wp_deleteArray hs hQ

/-! ### Paths -/

/-- From `q` the pointers lead through `c`, and then to null. -/
def Path (next : ℕ → Ptr) : ℕ → List ℕ → Prop
  | q, [] => next q = none
  | q, a :: c => next q = some a ∧ Path next a c

variable {q : ℕ} {c c₁ c₂ : List ℕ} {next' : ℕ → Ptr}

namespace Path

theorem congr (h : Path next q c) (heq : ∀ a ∈ q :: c, next' a = next a) : Path next' q c := by
  induction c generalizing q with
  | nil => exact (heq q (List.mem_singleton_self q)).trans h
  | cons a c ih =>
    exact ⟨(heq q List.mem_cons_self).trans h.1,
      ih h.2 fun b hb => heq b (List.mem_cons_of_mem q hb)⟩

theorem update (h : Path next q c) (ha : a ∉ q :: c) (p : Ptr) :
    Path (Function.update next a p) q c :=
  h.congr fun _ hb => Function.update_of_ne (ne_of_mem_of_not_mem hb ha) ..

/-- The pointer is written, and the path goes on. -/
theorem cons_update (h : Path next a c) (hq : q ∉ a :: c) :
    Path (Function.update next q (some a)) q (a :: c) :=
  ⟨Function.update_self .., h.update hq _⟩

/-- In front of the path. -/
theorem push (h : Path next q c) (ha : a ∉ q :: c) (hq : q ∉ c) :
    Path (Function.update (Function.update next a (next q)) q (some a)) q (a :: c) := by
  obtain ⟨haq, hac⟩ := not_or.mp (List.mem_cons.not.mp ha)
  apply cons_update
  · cases c with
    | nil => exact (Function.update_self ..).trans h
    | cons b c => exact ⟨(Function.update_self ..).trans h.1, h.2.update hac _⟩
  · exact fun hmem => (List.mem_cons.mp hmem).elim (fun heq => haq heq.symm) hq

/-- Behind the path. -/
theorem concat (h : Path next q c) (ha : next a = none) (hnot : a ∉ q :: c)
    (hnodup : (q :: c).Nodup) :
    Path (Function.update next (c.getLastD q) (some a)) q (c ++ [a]) := by
  induction c generalizing q with
  | nil =>
    refine ⟨Function.update_self .., (Function.update_of_ne ?_ ..).trans ha⟩
    exact fun heq => hnot (heq ▸ List.mem_singleton_self a)
  | cons b c ih =>
    obtain ⟨hq, hnodup⟩ := List.nodup_cons.mp hnodup
    have hlast : (b :: c).getLastD q ∈ b :: c := by
      rw [List.getLastD_cons]
      exact List.getLastD_mem_cons
    refine ⟨?_, ?_⟩
    · rw [Function.update_of_ne (ne_of_mem_of_not_mem hlast hq).symm]
      exact h.1
    · rw [List.getLastD_cons]
      exact ih h.2 (fun hmem => hnot (List.mem_cons_of_mem q hmem)) hnodup

/-- Around one of the path. -/
theorem erase (h : Path next q (c₁ ++ a :: c₂)) (hnodup : (q :: (c₁ ++ a :: c₂)).Nodup) :
    Path (Function.update next (c₁.getLastD q) (next a)) q (c₁ ++ c₂) := by
  induction c₁ generalizing q with
  | nil =>
    obtain ⟨hq, -⟩ := List.nodup_cons.mp hnodup
    obtain ⟨-, ha⟩ := h
    cases c₂ with
    | nil => exact (Function.update_self ..).trans ha
    | cons b c₂ =>
      exact ⟨(Function.update_self ..).trans ha.1,
        ha.2.update (fun hmem => hq (List.mem_cons_of_mem a hmem)) _⟩
  | cons b c₁ ih =>
    obtain ⟨hq, hnodup⟩ := List.nodup_cons.mp hnodup
    have hlast : (b :: c₁).getLastD q ∈ b :: c₁ := by
      rw [List.getLastD_cons]
      exact List.getLastD_mem_cons
    refine ⟨?_, ?_⟩
    · rw [Function.update_of_ne
        (ne_of_mem_of_not_mem (List.mem_append_left (a :: c₂) hlast) hq).symm]
      exact h.1
    · rw [List.getLastD_cons]
      exact ih h.2 hnodup

end Path

end HeapThread

end Course.Lib
