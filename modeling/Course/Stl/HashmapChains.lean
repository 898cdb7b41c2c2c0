import Course.Stl.HashmapShape
import Mathlib.Data.List.Perm.Basic

/-! The chains of a linked hash map: what the assignments to `next` do to them, and the
loops that walk along one. -/

open Course.Lib Heap HeapThread

namespace Course.Stl.LinkedHashmap

variable {K V : Type} {hash : K → ℕ} {table capacity i j a b : ℕ} {next next' : ℕ → Ptr}
  {l l' l₁ l₂ c c₁ c₂ : List (Item K V)} {x : Item K V}

/-- The elements of bucket `i`. -/
def inBucket (hash : K → ℕ) (capacity i : ℕ) (l : List (Item K V)) : List (Item K V) :=
  l.filter fun x => index hash capacity x.2.1 = i

/-- From every node of the table the `next` pointers lead through the elements whose keys
hash to it. -/
def Chained (hash : K → ℕ) (table capacity : ℕ) (next : ℕ → Ptr) (l : List (Item K V)) : Prop :=
  ∀ i < capacity, ∃ c : List (Item K V),
    Path next (table + i) (c.map Prod.fst) ∧ c.Perm (inBucket hash capacity i l)

/-- The node of bucket `i` in the table, and those of its elements. -/
def Within (hash : K → ℕ) (table capacity : ℕ) (l : List (Item K V)) (i a : ℕ) : Prop :=
  a = table + i ∨ ∃ x ∈ inBucket hash capacity i l, x.1 = a

theorem index_lt (hash : K → ℕ) (hcapacity : 0 < capacity) (key : K) :
    index hash capacity key < capacity :=
  Nat.lt_of_le_of_lt Nat.and_le_right (Nat.sub_lt hcapacity Nat.one_pos)

theorem mem_inBucket :
    x ∈ inBucket hash capacity i l ↔ x ∈ l ∧ index hash capacity x.2.1 = i := by
  simp [inBucket]

theorem inBucket_append : inBucket hash capacity i (l₁ ++ l₂) =
    inBucket hash capacity i l₁ ++ inBucket hash capacity i l₂ :=
  List.filter_append ..

theorem inBucket_cons_of_eq (hx : index hash capacity x.2.1 = i) :
    inBucket hash capacity i (x :: l) = x :: inBucket hash capacity i l :=
  List.filter_cons_of_pos (by simpa using hx)

theorem inBucket_cons_of_ne (hx : index hash capacity x.2.1 ≠ i) :
    inBucket hash capacity i (x :: l) = inBucket hash capacity i l :=
  List.filter_cons_of_neg (by simpa using hx)

/-! ### Buckets apart -/

theorem Within.mono (hl : ∀ x ∈ l, x ∈ l') (h : Within hash table capacity l i a) :
    Within hash table capacity l' i a := by
  obtain h | ⟨x, hx, h⟩ := h
  · exact .inl h
  · obtain ⟨hx, hi⟩ := mem_inBucket.mp hx
    exact .inr ⟨x, mem_inBucket.mpr ⟨hl x hx, hi⟩, h⟩

theorem within_of_mem (hperm : c.Perm (inBucket hash capacity i l))
    (ha : a ∈ (table + i) :: c.map Prod.fst) : Within hash table capacity l i a := by
  obtain ha | ha := List.mem_cons.mp ha
  · exact .inl ha
  · obtain ⟨x, hx, rfl⟩ := List.mem_map.mp ha
    exact .inr ⟨x, hperm.mem_iff.mp hx, rfl⟩

namespace Apart

variable (hap : Apart table capacity l)

include hap

theorem within_ne (hi : i < capacity) (hj : j < capacity) (hij : i ≠ j)
    (ha : Within hash table capacity l i a) (hb : Within hash table capacity l j b) : a ≠ b := by
  obtain rfl | ⟨x, hx, rfl⟩ := ha
  · obtain rfl | ⟨y, hy, rfl⟩ := hb
    · omega
    · exact (hap.table y (mem_inBucket.mp hy).1 i hi).symm
  · obtain ⟨hxl, hxi⟩ := mem_inBucket.mp hx
    obtain rfl | ⟨y, hy, rfl⟩ := hb
    · exact hap.table x hxl j hj
    · obtain ⟨hyl, hyj⟩ := mem_inBucket.mp hy
      intro heq
      rw [List.inj_on_of_nodup_map hap.nodup hxl hyl heq] at hxi
      exact hij (hxi.symm.trans hyj)

theorem chain_nodup (hi : i < capacity) (hperm : c.Perm (inBucket hash capacity i l)) :
    ((table + i) :: c.map Prod.fst).Nodup := by
  refine List.nodup_cons.mpr ⟨fun hmem => ?_, ?_⟩
  · obtain ⟨x, hx, heq⟩ := List.mem_map.mp hmem
    exact hap.table x (mem_inBucket.mp (hperm.mem_iff.mp hx)).1 i hi heq
  · refine (hperm.map Prod.fst).nodup_iff.mpr (hap.nodup.sublist ?_)
    exact List.filter_sublist.map Prod.fst

end Apart

theorem Apart.of_append (hap : Apart table capacity (l₁ ++ l₂)) : Apart table capacity l₁ := by
  have hnodup := hap.nodup
  rw [List.map_append] at hnodup
  exact ⟨hnodup.of_append_left, fun x hx => hap.table x (List.mem_append_left l₂ hx)⟩

theorem Apart.notMem (hap : Apart table capacity (l ++ [x])) (hi : i < capacity)
    (hperm : c.Perm (inBucket hash capacity i l)) : x.1 ∉ (table + i) :: c.map Prod.fst := by
  intro hmem
  obtain heq | hmem := List.mem_cons.mp hmem
  · exact hap.table x (by simp) i hi heq
  · obtain ⟨y, hy, heq⟩ := List.mem_map.mp hmem
    have hnodup := hap.nodup
    rw [List.map_append, List.nodup_append] at hnodup
    exact hnodup.2.2 y.1 (List.mem_map_of_mem (mem_inBucket.mp (hperm.mem_iff.mp hy)).1) x.1
      (by simp) heq

namespace Chained

/-- One bucket is changed. -/
theorem set (h : Chained hash table capacity next l)
    (hfilter : ∀ j, j ≠ i → inBucket hash capacity j l' = inBucket hash capacity j l)
    (hnext : ∀ j < capacity, j ≠ i → ∀ a, Within hash table capacity l j a → next' a = next a)
    (hpath : Path next' (table + i) (c.map Prod.fst))
    (hperm : c.Perm (inBucket hash capacity i l')) : Chained hash table capacity next' l' := by
  intro j hj
  by_cases hji : j = i
  · subst hji
    exact ⟨c, hpath, hperm⟩
  · obtain ⟨c', hpath', hperm'⟩ := h j hj
    refine ⟨c', hpath'.congr fun a ha => hnext j hj hji a (within_of_mem hperm' ha), ?_⟩
    rwa [hfilter j hji]

variable (hx : index hash capacity x.2.1 = i) (hi : i < capacity)

include hx hi

/-- `x` comes to the front of its bucket. -/
theorem push (h : Chained hash table capacity next l) (hap : Apart table capacity (l ++ [x])) :
    Chained hash table capacity
      (Function.update (Function.update next x.1 (next (table + i))) (table + i) (some x.1))
      (l ++ [x]) := by
  obtain ⟨c, hpath, hperm⟩ := h i hi
  have hnodup := hap.of_append.chain_nodup hi hperm
  refine h.set (i := i) (c := x :: c) (fun j hj => ?_) (fun j hj hji a ha => ?_)
    (hpath.push (hap.notMem hi hperm) (List.nodup_cons.mp hnodup).1) ?_
  · rw [inBucket_append, inBucket_cons_of_ne (hx.trans_ne hj.symm)]
    exact List.append_nil _
  · have ha : Within hash table capacity (l ++ [x]) j a :=
      ha.mono fun y hy => List.mem_append_left [x] hy
    rw [Function.update_of_ne, Function.update_of_ne]
    · exact hap.within_ne hj hi hji ha (.inr ⟨x, mem_inBucket.mpr ⟨by simp, hx⟩, rfl⟩)
    · exact hap.within_ne hj hi hji ha (.inl rfl)
  · rw [inBucket_append, inBucket_cons_of_eq hx]
    exact (hperm.cons x).trans (List.perm_append_singleton x _).symm

/-- `x` comes to the end of its bucket. -/
theorem concat (h : Chained hash table capacity next l) (hap : Apart table capacity (l ++ [x]))
    (hpath : Path next (table + i) (c.map Prod.fst))
    (hperm : c.Perm (inBucket hash capacity i l)) :
    Chained hash table capacity
      (Function.update (Function.update next x.1 none)
        ((c.map Prod.fst).getLastD (table + i)) (some x.1)) (l ++ [x]) := by
  have hnodup := hap.of_append.chain_nodup hi hperm
  have hnot := hap.notMem hi hperm
  have hlast : Within hash table capacity l i ((c.map Prod.fst).getLastD (table + i)) :=
    within_of_mem hperm List.getLastD_mem_cons
  have hpath' : Path (Function.update (Function.update next x.1 none)
      ((c.map Prod.fst).getLastD (table + i)) (some x.1)) (table + i)
      ((c ++ [x]).map Prod.fst) := by
    rw [List.map_append]
    exact (hpath.update hnot none).concat (Function.update_self ..) hnot hnodup
  refine h.set (i := i) (c := c ++ [x]) (fun j hj => ?_) (fun j hj hji a ha => ?_) hpath' ?_
  · rw [inBucket_append, inBucket_cons_of_ne (hx.trans_ne hj.symm)]
    exact List.append_nil _
  · have hmono : ∀ y ∈ l, y ∈ l ++ [x] := fun y hy => List.mem_append_left [x] hy
    rw [Function.update_of_ne, Function.update_of_ne]
    · exact hap.within_ne hj hi hji (ha.mono hmono)
        (.inr ⟨x, mem_inBucket.mpr ⟨by simp, hx⟩, rfl⟩)
    · exact hap.within_ne hj hi hji (ha.mono hmono) (hlast.mono hmono)
  · rw [inBucket_append, inBucket_cons_of_eq hx]
    exact hperm.append_right _

/-- `x` is taken out of its bucket. -/
theorem erase (h : Chained hash table capacity next (l₁ ++ x :: l₂))
    (hap : Apart table capacity (l₁ ++ x :: l₂))
    (hpath : Path next (table + i) ((c₁ ++ x :: c₂).map Prod.fst))
    (hperm : (c₁ ++ x :: c₂).Perm (inBucket hash capacity i (l₁ ++ x :: l₂))) :
    Chained hash table capacity
      (Function.update next ((c₁.map Prod.fst).getLastD (table + i)) (next x.1)) (l₁ ++ l₂) := by
  have hnodup := hap.chain_nodup hi hperm
  have hlast : (c₁.map Prod.fst).getLastD (table + i) ∈
      (table + i) :: (c₁ ++ x :: c₂).map Prod.fst := by
    rw [List.map_append, ← List.cons_append]
    exact List.mem_append_left _ List.getLastD_mem_cons
  rw [List.map_append, List.map_cons] at hpath hnodup
  have hpath' := hpath.erase hnodup
  rw [← List.map_append] at hpath'
  refine h.set (i := i) (c := c₁ ++ c₂) (fun j hj => ?_) (fun j hj hji a ha => ?_) hpath' ?_
  · rw [inBucket_append, inBucket_append, inBucket_cons_of_ne (hx.trans_ne hj.symm)]
  · exact Function.update_of_ne (hap.within_ne hj hi hji ha (within_of_mem hperm hlast)) ..
  · rw [inBucket_append, inBucket_cons_of_eq hx] at hperm
    rw [inBucket_append]
    exact (List.perm_cons x).mp (List.perm_middle.symm.trans (hperm.trans List.perm_middle))

end Chained

/-! ### Walks -/

variable {equal : K → K → Bool} {key : K} {h : Heap (Node K V)} {F : Multiset (ℕ × Node K V)}
  {S : Multiset (ℕ × Bare K V)} {q : ℕ}

theorem wp_seek {Q : Ptr → Heap (Node K V) → Prop} (hs : Holds h [] (cells next S + F))
    (hc : Listed S c) (hpath : Path next q (c.map Prod.fst))
    (hfound : ∀ x, c.find? (fun x => equal x.2.1 key) = some x → Q (some x.1) h)
    (hnone : c.find? (fun x => equal x.2.1 key) = none → Q none h) :
    wp (seek equal key (next q)) Q h := by
  induction c generalizing q with
  | nil =>
    rw [hpath, seek, if_pos rfl, wp_pure]
    exact hnone rfl
  | cons x c ih =>
    obtain ⟨hq, hpath⟩ := hpath
    obtain ⟨before, after, hx⟩ := hc x List.mem_cons_self
    rw [hq, seek, if_neg (Option.some_ne_none x.1), wp_bind]
    apply wp_entry hs hx
    by_cases hkey : equal x.2.1 key
    · rw [if_pos hkey, wp_pure]
      exact hfound x (List.find?_cons_of_pos hkey)
    · rw [if_neg hkey, wp_bind]
      apply HeapThread.wp_deref hs hx
      have hfind : (x :: c).find? (fun x => equal x.2.1 key) =
          c.find? fun x => equal x.2.1 key := List.find?_cons_of_neg hkey
      rw [hfind] at hfound hnone
      exact ih (fun y hy => hc y (List.mem_cons_of_mem x hy)) hpath hfound hnone

theorem wp_seekNext {Q : Ptr × Ptr → Heap (Node K V) → Prop} {b : Bare K V}
    (hs : Holds h [] (cells next S + F)) (hq : (q, b) ∈ S) (hc : Listed S c)
    (hpath : Path next q (c.map Prod.fst))
    (hfound : ∀ x p, c.find? (fun x => equal x.2.1 key) = some x → Q (some x.1, p) h)
    (hnone : c.find? (fun x => equal x.2.1 key) = none →
      Q (none, some ((c.map Prod.fst).getLastD q)) h) :
    wp (seekNext equal key (some q)) Q h := by
  induction c generalizing q b with
  | nil =>
    rw [seekNext, wp_bind]
    apply HeapThread.wp_deref hs hq
    have hnext : (b.node (next q)).next = none := hpath
    rw [if_pos hnext, wp_pure]
    exact hnone rfl
  | cons x c ih =>
    obtain ⟨hx, hpath⟩ := hpath
    obtain ⟨before, after, hmem⟩ := hc x List.mem_cons_self
    rw [seekNext, wp_bind]
    apply HeapThread.wp_deref hs hq
    have hnext : (b.node (next q)).next = some x.1 := hx
    rw [hnext, if_neg (Option.some_ne_none x.1), wp_bind]
    apply wp_entry hs hmem
    by_cases hkey : equal x.2.1 key
    · rw [if_pos hkey, wp_pure]
      exact hfound x (some q) (List.find?_cons_of_pos hkey)
    · rw [if_neg hkey]
      have hfind : (x :: c).find? (fun x => equal x.2.1 key) =
          c.find? fun x => equal x.2.1 key := List.find?_cons_of_neg hkey
      rw [hfind] at hfound hnone
      rw [List.map_cons, List.getLastD_cons] at hnone
      exact ih hmem (fun y hy => hc y (List.mem_cons_of_mem x hy)) hpath hfound hnone

/-- The last of a chain, or the node of the table. -/
theorem Listed.last (hc : Listed S c) {b : Bare K V} (hq : (q, b) ∈ S) :
    ∃ b, ((c.map Prod.fst).getLastD q, b) ∈ S := by
  obtain heq | hmem := List.mem_cons.mp (List.getLastD_mem_cons (l := c.map Prod.fst) (a := q))
  · rw [heq]
    exact ⟨b, hq⟩
  · obtain ⟨x, hx, heq⟩ := List.mem_map.mp hmem
    obtain ⟨before, after, hx⟩ := hc x hx
    rw [← heq]
    exact ⟨_, hx⟩

theorem wp_predecessor {Q : Ptr → Heap (Node K V) → Prop} {b : Bare K V}
    (hs : Holds h [] (cells next S + F)) (hq : (q, b) ∈ S) (hc : Listed S c₁)
    (hpath : Path next q ((c₁ ++ x :: c₂).map Prod.fst)) (hx : x.1 ∉ c₁.map Prod.fst)
    (hQ : Q (some ((c₁.map Prod.fst).getLastD q)) h) :
    wp (predecessor (some x.1) (some q)) Q h := by
  induction c₁ generalizing q b with
  | nil =>
    rw [predecessor, wp_bind]
    apply HeapThread.wp_deref hs hq
    have hnext : (b.node (next q)).next = some x.1 := hpath.1
    rw [if_pos hnext, wp_pure]
    exact hQ
  | cons y c₁ ih =>
    obtain ⟨hy, hpath⟩ := hpath
    obtain ⟨before, after, hmem⟩ := hc y List.mem_cons_self
    obtain ⟨hne, hx⟩ := not_or.mp (List.mem_cons.not.mp hx)
    rw [predecessor, wp_bind]
    apply HeapThread.wp_deref hs hq
    have hnext : (b.node (next q)).next = some y.1 := hy
    rw [hnext, if_neg fun heq => hne (Option.some.inj heq).symm]
    rw [List.map_cons, List.getLastD_cons] at hQ
    exact ih hmem (fun z hz => hc z (List.mem_cons_of_mem y hz)) hpath hx hQ

end Course.Stl.LinkedHashmap
