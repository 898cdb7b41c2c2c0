import Mathlib.Data.List.Nodup

/-! Lists in the order of last use, against the history of all uses. -/

universe u

namespace Course.Lib

variable {α : Type u} {history items items' : List α} {x : α}

/-- Since the last use of an item all those behind it were used. -/
def Recent (history items : List α) : Prop :=
  ∀ before x behind, items = before ++ x :: behind →
    ∃ pre post, history = pre ++ x :: post ∧ x ∉ post ∧ ∀ y ∈ behind, y ∈ post

namespace Recent

theorem nil (history : List α) : Recent history [] :=
  fun before x behind h => absurd h (by simp)

theorem sublist (h : Recent history items) (hsub : items'.Sublist items) :
    Recent history items' := by
  rintro before x behind rfl
  obtain ⟨r₁, r₂, rfl, -, hcons⟩ := List.append_sublist_iff.mp hsub
  obtain ⟨s₁, s₂, rfl, hx, hbehind⟩ := List.cons_sublist_iff.mp hcons
  obtain ⟨t₁, t₂, rfl⟩ := List.append_of_mem hx
  obtain ⟨pre, post, hhistory, hnot, hpost⟩ := h (r₁ ++ t₁) x (t₂ ++ s₂) (by simp)
  refine ⟨pre, post, hhistory, hnot, fun y hy => hpost y ?_⟩
  exact List.mem_append_right t₂ (hbehind.subset hy)

/-- The next use, which puts an item last. -/
theorem use (h : Recent history items) (hx : x ∉ items) :
    Recent (history ++ [x]) (items ++ [x]) := by
  intro before y behind hsplit
  rcases List.eq_nil_or_concat' behind with rfl | ⟨behind, z, rfl⟩
  · obtain ⟨-, hy⟩ := List.append_inj' hsplit rfl
    obtain rfl : x = y := by simpa using hy
    exact ⟨history, [], rfl, by simp, by simp⟩
  · have hassoc : items ++ [x] = (before ++ y :: behind) ++ [z] := by simpa using hsplit
    obtain ⟨rfl, hz⟩ := List.append_inj' hassoc rfl
    obtain rfl : x = z := by simpa using hz
    obtain ⟨pre, post, rfl, hnot, hpost⟩ := h before y behind rfl
    have hne : y ≠ x := fun heq => hx (by simp [heq])
    refine ⟨pre, post ++ [x], by simp, by simp [hnot, hne], fun w hw => ?_⟩
    rcases List.mem_append.mp hw with hw | hw
    · exact List.mem_append_left [x] (hpost w hw)
    · exact List.mem_append_right post hw

/-- The item used last is the last one of the list, and may be used again there. -/
theorem again (h : Recent history items) (hnodup : items.Nodup) (hx : x ∈ items)
    (hlast : history.getLast? = some x) : Recent (history ++ [x]) items := by
  obtain ⟨before, behind, rfl⟩ := List.append_of_mem hx
  obtain ⟨pre, post, rfl, hnot, hpost⟩ := h before x behind rfl
  obtain rfl : post = [] := by
    rcases List.eq_nil_or_concat' post with hnil | ⟨post', z, rfl⟩
    · exact hnil
    · rw [← List.cons_append, ← List.append_assoc, List.getLast?_concat, Option.some.injEq] at hlast
      exact absurd (by simp [hlast]) hnot
  obtain rfl : behind = [] := List.eq_nil_iff_forall_not_mem.mpr fun y hy => by
    simpa using hpost y hy
  refine (h.sublist (List.sublist_append_left before [x])).use fun hmem => ?_
  exact (List.nodup_append.mp hnodup).2.2 x hmem x (by simp) rfl

/-- The first item is the one whose last use is the oldest. -/
theorem head (h : Recent history (x :: items)) :
    ∃ pre post, history = pre ++ x :: post ∧ x ∉ post ∧ ∀ y ∈ items, y ∈ post :=
  h [] x items rfl

end Recent

end Course.Lib
