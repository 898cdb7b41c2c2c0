import Mathlib.Data.List.Basic
import Mathlib.Tactic.SplitIfs

/-! Sorted rearrangements of a list by a total preorder, stable ones, and the merge of two
such. -/

universe u

namespace Course.Lib

variable {α : Type u} {le : α → α → Bool} {l l' r r' : List α}

structure TotalPreorder (le : α → α → Bool) : Prop where
  total : ∀ x y, le x y = true ∨ le y x = true
  trans : ∀ x y z, le x y = true → le y z = true → le x z = true

/-- Whether `y` counts as equal to `x`. -/
def Equivalent (le : α → α → Bool) (x y : α) : Bool := le x y && le y x

/-- `l'` is `l` in order. -/
structure Sorted (le : α → α → Bool) (l l' : List α) : Prop where
  perm : l'.Perm l
  ordered : l'.Pairwise fun x y => le x y = true

/-- `l'` is `l` in order, with elements that count as equal in the order they had. -/
structure StablySorted (le : α → α → Bool) (l l' : List α) : Prop extends Sorted le l l' where
  stable : ∀ x, l'.filter (Equivalent le x) = l.filter (Equivalent le x)

theorem TotalPreorder.of_not_le (h : TotalPreorder le) {x y : α} (hxy : ¬le x y = true) :
    le y x = true := (h.total x y).resolve_left hxy

/-- A merge of two lists in order keeps what is equivalent, the left list's first. -/
theorem TotalPreorder.filter_merge (hle : TotalPreorder le) (x : α)
    (hl : l.Pairwise fun x y => le x y = true) :
    (l.merge r le).filter (Equivalent le x) =
      l.filter (Equivalent le x) ++ r.filter (Equivalent le x) := by
  induction l generalizing r with
  | nil => rw [List.nil_merge, List.filter_nil, List.nil_append]
  | cons a l ihl =>
    obtain ⟨ha, hl⟩ := List.pairwise_cons.mp hl
    induction r with
    | nil => rw [List.merge_right, List.filter_nil, List.append_nil]
    | cons b r ihr =>
      rw [List.cons_merge_cons]
      split_ifs with hab
      · rw [List.filter_cons, ihl hl, @List.filter_cons _ a l]
        split_ifs <;> rfl
      · rw [List.filter_cons, ihr]
        split_ifs with hb
        · -- `b` comes before all of the left list, which has nothing equivalent to it
          have hnone : (a :: l).filter (Equivalent le x) = [] := by
            rw [List.filter_eq_nil_iff]
            intro c hc hxc
            simp only [Equivalent, Bool.and_eq_true] at hb hxc
            have hac : le a c = true := by
              rcases List.mem_cons.mp hc with rfl | hc
              · exact (hle.total c c).elim id id
              · exact ha c hc
            exact hab (hle.trans _ _ _ (hle.trans _ _ _ hac hxc.2) hb.1)
          rw [hnone, List.nil_append, List.nil_append, List.filter_cons, if_pos hb]
        · rw [@List.filter_cons _ b r, if_neg hb]

namespace StablySorted

theorem refl (h : l.length ≤ 1) : StablySorted le l l where
  perm := .refl l
  ordered := by
    match l, h with
    | [], _ => exact .nil
    | [x], _ => exact List.pairwise_singleton _ x
  stable _ := rfl

theorem merge (hle : TotalPreorder le) (hl : StablySorted le l l') (hr : StablySorted le r r') :
    StablySorted le (l ++ r) (l'.merge r' le) where
  perm := (List.merge_perm_append le).trans (hl.perm.append hr.perm)
  ordered := by
    refine List.pairwise_merge hle.trans (fun x y => ?_) _ _ hl.ordered hr.ordered
    rw [Bool.or_eq_true]
    exact hle.total x y
  stable x := by
    rw [hle.filter_merge x hl.ordered, hl.stable, hr.stable, List.filter_append]

end StablySorted

end Course.Lib
