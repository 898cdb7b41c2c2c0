import Course.Stl.Search
import Mathlib.Data.List.Pairwise

/-! The entries of an STLite map, in whatever order, and what is found among them. -/

open Course.Lib

namespace Course.Stl.Map

variable {K V : Type} {cmp : K → K → Bool} {key key' : K} {l l' : List (Item K V)}
  {s : List (K × V)} {x : Item K V}

/-! ### Keys -/

instance (cmp : K → K → Bool) (key key' : K) : Decidable (Same cmp key key') :=
  inferInstanceAs (Decidable (_ ∧ _))

/-- The entry with a key. -/
def lookup (cmp : K → K → Bool) (key : K) (l : List (K × V)) : Option (K × V) :=
  l.find? fun e => Same cmp key e.1

/-- No node has the key. -/
def Absent (cmp : K → K → Bool) (key : K) (l : List (Item K V)) : Prop :=
  ∀ x ∈ l, ¬Same cmp key x.2.1

theorem Same.symm (h : Same cmp key key') : Same cmp key' key := ⟨h.2, h.1⟩

instance : Std.Symm fun x y : Item K V => ¬Same cmp x.2.1 y.2.1 :=
  ⟨fun _ _ h hsame => h hsame.symm⟩

theorem Same.of_same {key₁ key₂ : K} (hcmp : StrictWeak cmp) (h₁ : Same cmp key key₁)
    (h₂ : Same cmp key key₂) : Same cmp key₁ key₂ :=
  ⟨hcmp.ge_trans h₁.2 h₂.1, hcmp.ge_trans h₂.2 h₁.1⟩

/-- No two nodes have the same key. -/
theorem Sorted.distinct (hl : Sorted cmp l) : l.Pairwise fun x y => ¬Same cmp x.2.1 y.2.1 :=
  hl.imp fun {x y} hlt (hsame : Same cmp x.2.1 y.2.1) => Bool.eq_false_iff.mp hsame.1 hlt

theorem Sorted.eq_of_same {y : Item K V} (hcmp : StrictWeak cmp) (hl : Sorted cmp l) (hx : x ∈ l)
    (hy : y ∈ l) (hxkey : Same cmp key x.2.1) (hykey : Same cmp key y.2.1) : x = y := by
  by_contra hne
  exact List.Pairwise.forall hl.distinct hx hy hne (hxkey.of_same hcmp hykey)

/-- The other nodes do not have the key of a node. -/
theorem Sorted.absent_others (hcmp : StrictWeak cmp) (hl : Sorted cmp (l ++ x :: l'))
    (hx : Same cmp key x.2.1) : Absent cmp key (l ++ l') := by
  have hdistinct := List.pairwise_middle (fun h hsame => h (Same.symm hsame)) |>.mp hl.distinct
  intro y hy hsame
  exact (List.pairwise_cons.mp hdistinct).1 y hy (hx.of_same hcmp hsame)

theorem lookup_of_mem (hcmp : StrictWeak cmp) (hl : Sorted cmp l) (hs : (l.map Prod.snd).Perm s)
    (hx : x ∈ l) (hkey : Same cmp key x.2.1) : lookup cmp key s = some x.2 := by
  have hmem : x.2 ∈ s := hs.mem_iff.mp (List.mem_map_of_mem hx)
  have hsome : (lookup cmp key s).isSome := List.find?_isSome.mpr ⟨x.2, hmem, decide_eq_true hkey⟩
  obtain ⟨e, he⟩ := Option.isSome_iff_exists.mp hsome
  obtain ⟨y, hy, rfl⟩ := List.mem_map.mp (hs.mem_iff.mpr (List.mem_of_find?_eq_some he))
  have hsame := List.find?_some (p := fun e : K × V => Same cmp key e.1) he
  rw [he, hl.eq_of_same hcmp hx hy hkey (of_decide_eq_true hsame)]

theorem lookup_of_absent (hs : (l.map Prod.snd).Perm s) (hl : Absent cmp key l) :
    lookup cmp key s = none := by
  apply List.find?_eq_none.mpr
  intro e he hsame
  obtain ⟨x, hx, rfl⟩ := List.mem_map.mp (hs.mem_iff.mpr he)
  exact hl x hx (of_decide_eq_true hsame)

theorem perm_insert {e : K × V} (p : ℕ) (hs : ((l ++ l').map Prod.snd).Perm s) :
    ((l ++ (p, e) :: l').map Prod.snd).Perm (e :: s) := by
  rw [List.map_append] at hs
  rw [List.map_append, List.map_cons]
  exact List.perm_middle.trans (hs.cons e)

theorem map_of_absent {v : V} (hl : Absent cmp key l) :
    (l.map Prod.snd).map (fun e => if Same cmp key e.1 then (e.1, v) else e) = l.map Prod.snd := by
  rw [List.map_map]
  apply List.map_congr_left
  intro x hx
  exact if_neg (hl x hx)

theorem filter_of_absent (hl : Absent cmp key l) :
    (l.map Prod.snd).filter (fun e => ¬Same cmp key e.1) = l.map Prod.snd := by
  apply List.filter_eq_self.mpr
  intro e he
  obtain ⟨x, hx, rfl⟩ := List.mem_map.mp he
  exact decide_eq_true (hl x hx)

theorem Absent.left (h : Absent cmp key (l ++ l')) : Absent cmp key l :=
  fun x hx => h x (List.mem_append_left _ hx)

theorem Absent.right (h : Absent cmp key (l ++ l')) : Absent cmp key l' :=
  fun x hx => h x (List.mem_append_right _ hx)

/-! ### Order -/

theorem Sorted.congr (hkeys : l.map (·.2.1) = l'.map (·.2.1)) (hl : Sorted cmp l) :
    Sorted cmp l' := by
  have hpairwise := (List.pairwise_map (R := fun key key' => cmp key key' = true)).mpr hl
  rw [hkeys] at hpairwise
  exact List.pairwise_map.mp hpairwise

theorem Sorted.insert (hl : Sorted cmp (l ++ l')) (hbefore : ∀ y ∈ l, cmp y.2.1 x.2.1 = true)
    (hafter : ∀ y ∈ l', cmp x.2.1 y.2.1 = true) :
    Sorted cmp (l ++ x :: l') := by
  obtain ⟨hl, hl', hcross⟩ := List.pairwise_append.mp hl
  refine List.pairwise_append.mpr ⟨hl, List.pairwise_cons.mpr ⟨hafter, hl'⟩, fun y hy z hz => ?_⟩
  rcases List.mem_cons.mp hz with rfl | hz
  · exact hbefore y hy
  · exact hcross y hy z hz

theorem Sorted.erase (hl : Sorted cmp (l ++ x :: l')) : Sorted cmp (l ++ l') :=
  hl.sublist ((List.sublist_cons_self x l').append_left l)

/-- No node has a key that is between two of them. -/
theorem absent_of_between (hbefore : ∀ y ∈ l, cmp y.2.1 key = true)
    (hafter : ∀ y ∈ l', cmp key y.2.1 = true) : Absent cmp key (l ++ l') := by
  intro x hx hsame
  rcases List.mem_append.mp hx with hx | hx
  · exact Bool.eq_false_iff.mp hsame.2 (hbefore x hx)
  · exact Bool.eq_false_iff.mp hsame.1 (hafter x hx)

end Course.Stl.Map
