import Course.Lib.RedBlack
import Mathlib.Data.List.Induction

/-! Walks through a tree in the order of its items: the last node on a side, and the
node after the hole of a context. -/

namespace Course.Lib.RedBlack

/-- The way to the last node on a side. -/
theorem CTree.exists_extreme {α : Type} (s : Side) {t : CTree α} (ht : t ≠ .nil) :
    ∃ mid d y b, (∀ f ∈ mid, f.side = s) ∧ t = Context.plug mid (.join s d .nil y b) := by
  induction t with
  | nil => exact absurd rfl ht
  | node c l x r ihl ihr =>
    have hstep : ∀ near far, CTree.node c l x r = .join s c near x far →
        (near ≠ .nil → ∃ mid d y b, (∀ f ∈ mid, f.side = s) ∧
          near = Context.plug mid (.join s d .nil y b)) →
        ∃ mid d y b, (∀ f ∈ mid, f.side = s) ∧
          CTree.node c l x r = Context.plug mid (.join s d .nil y b) := by
      intro near far heq hnear
      by_cases hnil : near = .nil
      · exact ⟨[], c, x, far, by simp, by rw [heq, hnil]; rfl⟩
      · obtain ⟨mid, d, y, b, hmid, rfl⟩ := hnear hnil
        refine ⟨mid ++ [⟨s, c, x, far⟩], d, y, b, ?_, ?_⟩
        · intro f hf
          rcases List.mem_append.mp hf with hf | hf
          · exact hmid f hf
          · rw [List.mem_singleton.mp hf]
        · rw [heq, Context.plug_append]
          rfl
    cases s with
    | left => exact hstep l r rfl ihl
    | right => exact hstep r l rfl ihr

theorem CTree.balanced_zero {α : Type} {t : CTree α} (h : t.Balanced 0) :
    t = .nil ∨ ∃ y, t = .node .red .nil y .nil := by
  have hblack : ∀ {t : CTree α}, t.Balanced 0 → t.color = .black → t = .nil := by
    rintro (_ | ⟨c, l, x, r⟩) h hc
    · rfl
    · obtain rfl : c = .black := hc
      obtain ⟨m, hm, -⟩ := h
      cases hm
  rcases t with _ | ⟨c, l, x, r⟩
  · exact .inl rfl
  · cases c with
    | red =>
      obtain ⟨hl, hr, hlc, hrc⟩ := h
      exact .inr ⟨x, by rw [hblack hl hlc, hblack hr hrc]⟩
    | black =>
      obtain ⟨m, hm, -⟩ := h
      cases hm

namespace Context

variable {α : Type} {t t' : CTree α}

theorem plug_ne_nil (ht : t ≠ .nil) (ctx : Context α) : plug ctx t ≠ .nil := by
  induction ctx generalizing t with
  | nil => exact ht
  | cons f ctx ih => exact ih (CTree.join_ne_nil _ _ _ _ _)

theorem before_append (mid ctx : Context α) : before (mid ++ ctx) = before ctx ++ before mid := by
  induction mid with
  | nil => exact (List.append_nil _).symm
  | cons f mid ih => rw [List.cons_append, before, before, ih, List.append_assoc]

theorem after_append (mid ctx : Context α) : after (mid ++ ctx) = after mid ++ after ctx := by
  induction mid with
  | nil => rfl
  | cons f mid ih => rw [List.cons_append, after, after, ih, List.append_assoc]

theorem map_plug {β : Type} (g : α → β) (h : t.map g = t'.map g) (ctx : Context α) :
    (plug ctx t).map g = (plug ctx t').map g := by
  induction ctx generalizing t t' with
  | nil => exact h
  | cons f ctx ih =>
    obtain ⟨s, c, x, u⟩ := f
    apply ih
    cases s <;> simp [Frame.attach, CTree.join, CTree.map, h]

/-- Items are not seen in the balance. -/
theorem isRedBlack_plug_congr (h : t.map (fun _ => ()) = t'.map fun _ => ())
    (hrb : (plug ctx t).IsRedBlack) : (plug ctx t').IsRedBlack := by
  rw [← CTree.isRedBlack_map fun _ => ()] at hrb ⊢
  rwa [map_plug _ h.symm ctx]

end Context

/-! ### Both directions -/

/-- The items in the order in which a walk towards a side meets them. -/
def CTree.walk {α : Type} (s : Side) (t : CTree α) : List α :=
  match s with
  | .left => t.inorder.reverse
  | .right => t.inorder

@[simp] theorem CTree.walk_nil {α : Type} (s : Side) : (.nil : CTree α).walk s = [] := by
  cases s <;> rfl

theorem CTree.walk_join {α : Type} (s : Side) (c : Color) (near : CTree α) (x : α)
    (far : CTree α) : (join s c near x far).walk s = far.walk s ++ x :: near.walk s := by
  cases s <;> simp [walk, join, inorder]

namespace Context

variable {α : Type} {s : Side} {mid ctx : Context α}

/-- What such a walk meets after the hole. -/
def ahead (s : Side) (ctx : Context α) : List α :=
  match s with
  | .left => (before ctx).reverse
  | .right => after ctx

@[simp] theorem ahead_nil (s : Side) : ahead s ([] : Context α) = [] := by cases s <;> rfl

theorem ahead_append (mid ctx : Context α) : ahead s (mid ++ ctx) = ahead s mid ++ ahead s ctx := by
  cases s
  · simp [ahead, before_append]
  · exact after_append mid ctx

theorem ahead_of_side (h : ∀ f ∈ mid, f.side = s) : ahead s mid = [] := by
  induction mid with
  | nil => exact ahead_nil s
  | cons f mid ih =>
    obtain ⟨hf, hmid⟩ := List.forall_mem_cons.mp h
    rw [show f :: mid = [f] ++ mid from rfl, ahead_append, ih hmid]
    cases s <;> simp [ahead, before, after, Frame.before, Frame.after, hf]

theorem ahead_cons_other {f : Frame α} (hf : f.side = s.other) :
    ahead s (f :: ctx) = f.item :: (f.sibling.walk s ++ ahead s ctx) := by
  cases s <;> simp [ahead, before, after, Frame.before, Frame.after, CTree.walk, hf]

theorem walk_plug (s : Side) (ctx : Context α) (t : CTree α) :
    (plug ctx t).walk s = (ahead s.other ctx).reverse ++ (t.walk s ++ ahead s ctx) := by
  cases s <;> simp [CTree.walk, ahead, inorder_plug]

/-- The innermost node that has the hole on the other side, if there is one. -/
theorem side_cases (s : Side) (ctx : Context α) : (∀ f ∈ ctx, f.side = s) ∨
    ∃ mid g up, ctx = mid ++ g :: up ∧ (∀ f ∈ mid, f.side = s) ∧ g.side = s.other := by
  induction ctx with
  | nil => exact .inl fun f hf => absurd hf List.not_mem_nil
  | cons f ctx ih =>
    by_cases hf : f.side = s
    · rcases ih with hall | ⟨mid, g, up, rfl, hmid, hg⟩
      · exact .inl (List.forall_mem_cons.mpr ⟨hf, hall⟩)
      · exact .inr ⟨f :: mid, g, up, rfl, List.forall_mem_cons.mpr ⟨hf, hmid⟩, hg⟩
    · refine .inr ⟨[], f, ctx, rfl, fun f hf => absurd hf List.not_mem_nil, ?_⟩
      cases s <;> cases hs : f.side <;> first | rfl | exact absurd hs hf

/-- The tree around one of its items. -/
theorem exists_of_inorder {t : CTree α} {front back : List α} {x : α}
    (h : t.inorder = front ++ x :: back) : ∃ ctx c l r, t = plug ctx (.node c l x r) ∧
      front = before ctx ++ l.inorder ∧ back = r.inorder ++ after ctx := by
  induction t generalizing front back with
  | nil => simp [CTree.inorder] at h
  | node c l y r ihl ihr =>
    have hroot : x = y → l.inorder = front → r.inorder = back →
        ∃ ctx c' l' r', CTree.node c l y r = plug ctx (.node c' l' x r') ∧
          front = before ctx ++ l'.inorder ∧ back = r'.inorder ++ after ctx := by
      rintro rfl rfl rfl
      exact ⟨[], c, l, r, rfl, rfl, (List.append_nil _).symm⟩
    rcases List.append_eq_append_iff.mp h with ⟨as, hfront, hrest⟩ | ⟨bs, hl, hrest⟩
    · cases as with
      | nil =>
        obtain ⟨rfl, hback⟩ := List.cons_eq_cons.mp hrest
        exact hroot rfl (by rw [hfront, List.append_nil]) hback
      | cons z as =>
        obtain ⟨rfl, hr⟩ := List.cons_eq_cons.mp hrest
        obtain ⟨ctx, c', l', r', rfl, hf, hb⟩ := ihr hr
        refine ⟨ctx ++ [⟨.right, c, y, l⟩], c', l', r', ?_, ?_, ?_⟩
        · rw [plug_append]
          rfl
        · rw [hfront, hf, before_append]
          simp [before, Frame.before]
        · rw [hb, after_append]
          simp [after, Frame.after]
    · cases bs with
      | nil =>
        obtain ⟨rfl, hback⟩ := List.cons_eq_cons.mp hrest
        exact hroot rfl (by rw [hl, List.append_nil]) hback.symm
      | cons z bs =>
        obtain ⟨rfl, hback⟩ := List.cons_eq_cons.mp hrest
        obtain ⟨ctx, c', l', r', rfl, hf, hb⟩ := ihl hl
        refine ⟨ctx ++ [⟨.left, c, y, r⟩], c', l', r', ?_, ?_, ?_⟩
        · rw [plug_append]
          rfl
        · rw [hf, before_append]
          simp [before, Frame.before]
        · rw [hback, hb, after_append]
          simp [after, Frame.after]

end Context

end Course.Lib.RedBlack
