import Mathlib.Algebra.Group.Nat.Defs
import Mathlib.Data.Int.Notation
import Course.Os.LRUCache

/-! The TLB of Project 8: an array of entries, and an LRU cache of pointers to
the valid ones. -/

open Course.Lib

namespace Course.Os

/-- `(size_t)-1`. -/
def sizeMax : ℕ := 2 ^ 64 - 1

/-- The conversion of a `size_t` to `int`. -/
def intOfSize (n : ℕ) : ℤ := (n : ℤ).bmod (2 ^ 32)

theorem intOfSize_eq (h : n < 2 ^ 31) : intOfSize n = n :=
  Int.bmod_eq_of_le (n := n) (m := 2 ^ 32) (by omega) (by omega)

structure TLBEntry where
  pageNumber : ℕ
  frameNumber : ℕ
  valid : Bool

/-- The cache holds the addresses `&entries[i]`, as `i`. -/
structure TLB where
  entries : ℕ → TLBEntry
  cache : LRUCache ℕ
  hitCount : ℕ
  missCount : ℕ

namespace TLB

variable {t t' : TLB} {slots : List ℕ} {page frame : ℕ}

def create (capacity : ℕ) : TLB where
  entries := fun _ => { pageNumber := sizeMax, frameNumber := sizeMax, valid := false }
  cache := .create capacity
  hitCount := 0
  missCount := 0

def capacity (t : TLB) : ℕ := t.cache.capacity

def full (t : TLB) : Bool := t.cache.full

/-- `TLB_entry_equal` with a key whose page number is `page`. -/
def entryEqual (t : TLB) (page i : ℕ) : Bool := (t.entries i).pageNumber = page

/-- `-1` where the page is not in the TLB. -/
def query (t : TLB) (page : ℕ) : Option (TLB × ℤ) := do
  let (cache, queryData) ← t.cache.query (t.entryEqual page)
  match queryData with
  | none => some ({ t with cache := cache, missCount := t.missCount + 1 }, -1)
  | some i =>
    some ({ t with cache := cache, hitCount := t.hitCount + 1 },
      intOfSize (t.entries i).frameNumber)

/-- The entry to overwrite; `none` where the source goes on with `NULL`. -/
def entryToInsert (t : TLB) : Option (TLB × ℕ) :=
  if t.full then do
    let i ← t.cache.leastRecentlyUsed
    let (cache, _) ← t.cache.remove (t.entryEqual (t.entries i).pageNumber)
    some ({ t with cache := cache }, i)
  else do
    let i ← (List.range t.capacity).find? fun i => !(t.entries i).valid
    some (t, i)

def setEntry (t : TLB) (i : ℕ) (entry : TLBEntry) : TLB :=
  { t with entries := Function.update t.entries i entry }

def insert (t : TLB) (page frame : ℕ) : Option TLB := do
  let (t, i) ← t.entryToInsert
  let t := t.setEntry i { pageNumber := page, frameNumber := frame, valid := true }
  let (cache, _) ← t.cache.insert (fun x y => t.entryEqual (t.entries y).pageNumber x) i
  some { t with cache := cache }

def remove (t : TLB) (page : ℕ) : Option (TLB × Bool) := do
  let (cache, removedEntry) ← t.cache.remove (t.entryEqual page)
  let t := { t with cache := cache }
  match removedEntry with
  | none => some (t, false)
  | some i =>
    some (t.setEntry i { pageNumber := sizeMax, frameNumber := sizeMax, valid := false }, true)

/-- The LRU list is `slots`, and these are the valid entries. -/
structure Inv (t : TLB) (slots : List ℕ) : Prop where
  cache : t.cache.Holds slots
  nodup : slots.Nodup
  mem_iff : ∀ i, i ∈ slots ↔ i < t.capacity ∧ (t.entries i).valid
  injOn : ∀ i ∈ slots, ∀ j ∈ slots,
    (t.entries i).pageNumber = (t.entries j).pageNumber → i = j

/-- A valid entry takes `page` to `frame`. -/
def Maps (t : TLB) (page frame : ℕ) : Prop :=
  ∃ i < t.capacity, (t.entries i).valid ∧ (t.entries i).pageNumber = page ∧
    (t.entries i).frameNumber = frame

namespace Inv

theorem create (capacity : ℕ) : (TLB.create capacity).Inv [] :=
  ⟨LRUCache.holds_create _, by simp, by simp [TLB.create], by simp⟩

theorem length_le (h : t.Inv slots) : slots.length ≤ t.capacity := by
  have hsub : slots ⊆ List.range t.capacity := fun i hi =>
    List.mem_range.mpr ((h.mem_iff i).mp hi).1
  simpa using (h.nodup.subperm hsub).length_le

theorem maps_iff (h : t.Inv slots) :
    t.Maps page frame ↔
      ∃ i ∈ slots, (t.entries i).pageNumber = page ∧ (t.entries i).frameNumber = frame := by
  simp [Maps, h.mem_iff, and_assoc]

/-- The slots of `page`, as the scans of the LRU list find them. -/
theorem find?_eq (h : t.Inv slots) (page : ℕ) :
    (slots.find? (t.entryEqual page) = none ∧ ∀ f, ¬t.Maps page f) ∨
      ∃ i ∈ slots, slots.find? (t.entryEqual page) = some i ∧ (t.entries i).pageNumber = page := by
  cases hfind : slots.find? (t.entryEqual page) with
  | none =>
    refine .inl ⟨rfl, fun f hf => ?_⟩
    obtain ⟨i, hi, hip, -⟩ := h.maps_iff.mp hf
    simpa [entryEqual, hip] using List.find?_eq_none.mp hfind i hi
  | some i =>
    have hip := List.find?_some hfind
    exact .inr ⟨i, List.mem_of_find?_eq_some hfind, rfl, by simpa [entryEqual] using hip⟩

end Inv

/-- What a lookup returns, and that it changes no entry. -/
theorem Inv.query (h : t.Inv slots) (page : ℕ) :
    ∃ t' r slots', t.query page = some (t', r) ∧ t'.Inv slots' ∧ t'.entries = t.entries ∧
      t'.capacity = t.capacity ∧
      ((∀ f, ¬t.Maps page f) ∧ r = -1 ∨ ∃ f, t.Maps page f ∧ r = intOfSize f) := by
  obtain ⟨cache, hquery, hcache, hcap⟩ := h.cache.query (t.entryEqual page)
  have hinv (m n : ℕ) : (TLB.mk t.entries cache m n).Inv
      (LRUCache.touch (t.entryEqual page) slots) := by
    have hperm := LRUCache.touch_perm (t.entryEqual page) slots
    refine ⟨hcache, hperm.nodup_iff.mpr h.nodup, fun i => ?_, fun i hi j hj => ?_⟩
    · rw [hperm.mem_iff, h.mem_iff, capacity, capacity, hcap]
    · exact h.injOn i (hperm.mem_iff.mp hi) j (hperm.mem_iff.mp hj)
  obtain ⟨hnone, hmaps⟩ | ⟨i, hi, hsome, hip⟩ := h.find?_eq page
  · refine ⟨_, -1, _, ?_, hinv t.hitCount (t.missCount + 1), rfl, hcap, .inl ⟨hmaps, rfl⟩⟩
    simp [TLB.query, hquery, hnone]
  · refine ⟨_, _, _, ?_, hinv (t.hitCount + 1) t.missCount, rfl, hcap,
      .inr ⟨_, h.maps_iff.mpr ⟨i, hi, hip, rfl⟩, rfl⟩⟩
    simp [TLB.query, hquery, hsome]

/-- The first entry with the page number of `i` is `i`. -/
theorem Inv.eraseP_eq (h : t.Inv slots) (hi : i ∈ slots) :
    slots.eraseP (t.entryEqual (t.entries i).pageNumber) = slots.erase i := by
  refine LRUCache.eraseP_eq_erase fun j hj => ?_
  simp only [entryEqual, decide_eq_true_eq]
  exact ⟨h.injOn j hj i hi, fun e => by rw [e]⟩

/-- The entry to overwrite is in no list any more, and the rest stays. -/
theorem Inv.entryToInsert (h : t.Inv slots) (hcap : 1 ≤ t.capacity) :
    ∃ t' i slots', t.entryToInsert = some (t', i) ∧ t'.entries = t.entries ∧
      t'.capacity = t.capacity ∧ t'.cache.Holds slots' ∧ slots'.Nodup ∧ i < t.capacity ∧
      i ∉ slots' ∧ slots'.length < t.capacity ∧ (∀ j ∈ slots', j ∈ slots) ∧
      ∀ j ∈ slots, j ≠ i → j ∈ slots' := by
  have hlen := h.length_le
  by_cases hfull : slots.length = t.capacity
  · obtain ⟨i, rest, rfl⟩ : ∃ i rest, slots = i :: rest := by
      cases slots with
      | nil => simp only [List.length_nil] at hfull; omega
      | cons i rest => exact ⟨i, rest, rfl⟩
    obtain ⟨cache, hremove, hcache, hcap'⟩ :=
      h.cache.remove (t.entryEqual (t.entries i).pageNumber)
    rw [h.eraseP_eq (by simp), List.erase_cons_head] at hcache
    have hfull' : t.full = true := by
      simpa [full, LRUCache.full, capacity, h.cache.size] using hfull
    obtain ⟨hi, hrest⟩ := List.nodup_cons.mp h.nodup
    refine ⟨{ t with cache := cache }, i, rest, ?_, rfl, hcap', hcache, hrest,
      ((h.mem_iff i).mp (by simp)).1, hi, ?_, fun j hj => by simp [hj], fun j hj hne => ?_⟩
    · simp [TLB.entryToInsert, hfull', h.cache.leastRecentlyUsed, hremove]
    · rw [← hfull]
      exact Nat.lt_succ_self _
    · exact (List.mem_cons.mp hj).resolve_left hne
  · have hfull' : t.full = false := by
      simpa [full, LRUCache.full, capacity, h.cache.size] using hfull
    obtain ⟨i, hi, hnot⟩ : ∃ i < t.capacity, i ∉ slots := by
      by_contra hall
      push Not at hall
      have hsub : List.range t.capacity ⊆ slots := fun i hi => hall i (List.mem_range.mp hi)
      have hle := (List.nodup_range.subperm hsub).length_le
      rw [List.length_range] at hle
      omega
    have hinvalid : (t.entries i).valid = false := by
      have hvalid := (h.mem_iff i).not.mp hnot
      simpa [hi] using hvalid
    obtain ⟨k, hk⟩ : ∃ k, (List.range t.capacity).find? (fun i => !(t.entries i).valid) = some k :=
      Option.isSome_iff_exists.mp (List.find?_isSome.mpr ⟨i, by simpa using hi, by simpa⟩)
    have hkcap : k < t.capacity := List.mem_range.mp (List.mem_of_find?_eq_some hk)
    have hkinvalid := List.find?_some hk
    refine ⟨t, k, slots, ?_, rfl, rfl, h.cache, h.nodup, hkcap, fun hmem => ?_, by omega,
      fun j hj => hj, fun j hj _ => hj⟩
    · simp [TLB.entryToInsert, hfull', hk]
    · simp [((h.mem_iff k).mp hmem).2] at hkinvalid

/-- Entering a page the TLB does not have. -/
theorem Inv.insert (h : t.Inv slots) (hcap : 1 ≤ t.capacity) (hpage : ∀ f, ¬t.Maps page f)
    (frame : ℕ) :
    ∃ t' slots', t.insert page frame = some t' ∧ t'.Inv slots' ∧ t'.capacity = t.capacity ∧
      ∀ q g, t'.Maps q g → q = page ∧ g = frame ∨ t.Maps q g := by
  obtain ⟨t₁, i, slots₁, hentry, hentries, hcap₁, hcache₁, hnodup₁, hi, hnot, hlen, hsub, hsup⟩ :=
    h.entryToInsert hcap
  let t₂ := t₁.setEntry i { pageNumber := page, frameNumber := frame, valid := true }
  have hold : ∀ j ∈ slots₁, t₂.entries j = t.entries j := fun j hj => by
    have hne : j ≠ i := fun e => hnot (e ▸ hj)
    simp [t₂, setEntry, hne, hentries]
  have hnew : t₂.entries i = { pageNumber := page, frameNumber := frame, valid := true } := by
    simp [t₂, setEntry]
  have hother : ∀ j ∈ slots₁, (t₂.entries j).pageNumber ≠ page := fun j hj hjp =>
    hpage _ (h.maps_iff.mpr ⟨j, hsub j hj, hold j hj ▸ hjp, rfl⟩)
  obtain ⟨cache, hinsert, hcache, hcap'⟩ := hcache₁.insert_room (d := i)
    (fun x y => t₂.entryEqual (t₂.entries y).pageNumber x)
    (fun j hj => by simpa [entryEqual, hnew] using hother j hj)
    (fun e => by rw [← hcap₁, e] at hlen; exact Nat.lt_irrefl _ hlen)
  have hinv : (TLB.mk t₂.entries cache t₂.hitCount t₂.missCount).Inv (slots₁ ++ [i]) := by
    refine ⟨hcache, ?_, fun j => ?_, fun j hj k hk e => ?_⟩
    · exact List.nodup_append.mpr ⟨hnodup₁, by simp, fun j hj k hk e => hnot (by simp_all)⟩
    · have hc : (TLB.mk t₂.entries cache t₂.hitCount t₂.missCount).capacity = t.capacity :=
        hcap'.trans hcap₁
      rw [hc]
      by_cases hj : j = i
      · simp [hj, hi, hnew]
      · have hjt : t₂.entries j = t.entries j := by simp [t₂, setEntry, hj, hentries]
        simp only [List.mem_append, List.mem_singleton, hj, or_false, hjt, ← h.mem_iff]
        exact ⟨hsub j, fun hmem => hsup j hmem hj⟩
    · simp only [List.mem_append, List.mem_singleton] at hj hk
      obtain hj | rfl := hj <;> obtain hk | rfl := hk
      · simp only [hold j hj, hold k hk] at e
        exact h.injOn j (hsub j hj) k (hsub k hk) e
      · exact absurd (by simpa [hnew] using e) (hother j hj)
      · exact absurd (by simpa [hnew] using e.symm) (hother k hk)
      · rfl
  refine ⟨_, slots₁ ++ [i], ?_, hinv, hcap'.trans hcap₁, fun q g hq => ?_⟩
  · change (t.entryToInsert.bind fun r => _) = _
    rw [hentry]
    change (t₁.cache.insert _ i).bind _ = _
    rw [hinsert]
    rfl
  · obtain ⟨j, hj, hjq, hjg⟩ := hinv.maps_iff.mp hq
    obtain hj | hj := List.mem_append.mp hj
    · simp only [hold j hj] at hjq hjg
      exact .inr (h.maps_iff.mpr ⟨j, hsub j hj, hjq, hjg⟩)
    · obtain rfl := List.mem_singleton.mp hj
      simp only [hnew] at hjq hjg
      exact .inl ⟨hjq.symm, hjg.symm⟩

/-- After a removal no entry takes `page` anywhere. -/
theorem Inv.remove (h : t.Inv slots) (page : ℕ) :
    ∃ t' r slots', t.remove page = some (t', r) ∧ t'.Inv slots' ∧ t'.capacity = t.capacity ∧
      ∀ q g, t'.Maps q g → q ≠ page ∧ t.Maps q g := by
  obtain ⟨cache, hremove, hcache, hcap⟩ := h.cache.remove (t.entryEqual page)
  obtain ⟨hnone, hmaps⟩ | ⟨i, hi, hsome, rfl⟩ := h.find?_eq page
  · rw [List.eraseP_of_forall_not (List.find?_eq_none.mp hnone)] at hcache
    have hinv : ({ t with cache := cache } : TLB).Inv slots :=
      ⟨hcache, h.nodup, fun i => by rw [h.mem_iff, capacity, capacity, hcap], h.injOn⟩
    refine ⟨_, false, slots, by simp [TLB.remove, hremove, hnone], hinv, hcap, fun q g hq => ?_⟩
    have hq : t.Maps q g := h.maps_iff.mpr (hinv.maps_iff.mp hq)
    exact ⟨fun e => hmaps g (e ▸ hq), hq⟩
  · rw [h.eraseP_eq hi] at hcache
    let t' := ({ t with cache := cache } : TLB).setEntry i
      { pageNumber := sizeMax, frameNumber := sizeMax, valid := false }
    have hold : ∀ j, j ≠ i → t'.entries j = t.entries j := fun j hj => by simp [t', setEntry, hj]
    have hmem : ∀ j, j ∈ slots.erase i ↔ j ≠ i ∧ j ∈ slots := fun j => h.nodup.mem_erase_iff
    have hinv : t'.Inv (slots.erase i) := by
      refine ⟨hcache, h.nodup.erase i, fun j => ?_, fun j hj k hk e => ?_⟩
      · have hc : t'.capacity = t.capacity := hcap
        rw [hmem, hc]
        by_cases hj : j = i
        · simp [hj, t', setEntry]
        · simp [hj, hold j hj, h.mem_iff]
      · obtain ⟨hji, hj⟩ := (hmem j).mp hj
        obtain ⟨hki, hk⟩ := (hmem k).mp hk
        rw [hold j hji, hold k hki] at e
        exact h.injOn j hj k hk e
    refine ⟨t', true, _, by simp [TLB.remove, hremove, hsome, t'], hinv, hcap, fun q g hq => ?_⟩
    obtain ⟨j, hj, hjq, hjg⟩ := hinv.maps_iff.mp hq
    obtain ⟨hji, hj⟩ := (hmem j).mp hj
    rw [hold j hji] at hjq hjg
    refine ⟨fun e => hji (h.injOn j hj i hi (hjq.trans e)), h.maps_iff.mpr ⟨j, hj, hjq, hjg⟩⟩

end TLB

end Course.Os
