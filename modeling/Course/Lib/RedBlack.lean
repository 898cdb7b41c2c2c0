import Mathlib.Data.Nat.Notation
import Mathlib.Tactic.Tauto

/-! Red-black trees, and trees with a hole: the path from the hole to the root with
the subtrees that hang off it. -/

universe u v

namespace Course.Lib.RedBlack

inductive Color
  | red
  | black
  deriving DecidableEq

inductive Side
  | left
  | right
  deriving DecidableEq

def Side.other : Side → Side
  | .left => .right
  | .right => .left

@[simp] theorem Side.other_left : Side.left.other = .right := rfl

@[simp] theorem Side.other_right : Side.right.other = .left := rfl

@[simp] theorem Side.other_other (s : Side) : s.other.other = s := by cases s <;> rfl

inductive CTree (α : Type u)
  | nil : CTree α
  | node (color : Color) (left : CTree α) (item : α) (right : CTree α) : CTree α

namespace CTree

variable {α : Type u} {β : Type v}

/-- Leaves are black. -/
def color : CTree α → Color
  | nil => .black
  | node c _ _ _ => c

def inorder : CTree α → List α
  | nil => []
  | node _ l x r => l.inorder ++ x :: r.inorder

def map (f : α → β) : CTree α → CTree β
  | nil => nil
  | node c l x r => node c (l.map f) (f x) (r.map f)

/-- The node with `near` on the given side. -/
def join : Side → Color → CTree α → α → CTree α → CTree α
  | .left, c, near, x, far => node c near x far
  | .right, c, near, x, far => node c far x near

def NoRedRed : CTree α → Prop
  | nil => True
  | node c l _ r =>
    (c = .red → l.color = .black ∧ r.color = .black) ∧ l.NoRedRed ∧ r.NoRedRed

/-- The number of black nodes on each path from the root to a leaf. -/
def blacks : CTree α → List ℕ
  | nil => [0]
  | node .red l _ r => l.blacks ++ r.blacks
  | node .black l _ r => (l.blacks ++ r.blacks).map (· + 1)

/-- No red node has a red child, and each path to a leaf has `n` black nodes. -/
def Balanced : CTree α → ℕ → Prop
  | nil, n => n = 0
  | node .red l _ r, n => l.Balanced n ∧ r.Balanced n ∧ l.color = .black ∧ r.color = .black
  | node .black l _ r, n => ∃ m, n = m + 1 ∧ l.Balanced m ∧ r.Balanced m

def IsRedBlack (t : CTree α) : Prop := t.color = .black ∧ ∃ n, t.Balanced n

theorem blacks_ne_nil (t : CTree α) : t.blacks ≠ [] := by
  induction t with
  | nil => exact List.cons_ne_nil _ _
  | node c l x r ihl =>
    cases c with
    | red => exact fun h => ihl (List.append_eq_nil_iff.mp h).1
    | black => exact fun h => ihl (List.append_eq_nil_iff.mp (List.map_eq_nil_iff.mp h)).1

theorem balanced_iff (t : CTree α) (n : ℕ) :
    t.Balanced n ↔ t.NoRedRed ∧ ∀ k ∈ t.blacks, k = n := by
  induction t generalizing n with
  | nil => simp [Balanced, NoRedRed, blacks, eq_comm]
  | node c l x r ihl ihr =>
    cases c with
    | red =>
      simp only [Balanced, NoRedRed, blacks, ihl, ihr, List.mem_append, or_imp, forall_and]
      tauto
    | black =>
      simp only [Balanced, NoRedRed, blacks, ihl, ihr, List.forall_mem_map, List.mem_append, or_imp,
        forall_and, reduceCtorEq, false_implies, true_and]
      constructor
      · rintro ⟨m, rfl, ⟨hl, hlm⟩, hr, hrm⟩
        exact ⟨⟨hl, hr⟩, fun k hk => congrArg (· + 1) (hlm k hk), fun k hk =>
          congrArg (· + 1) (hrm k hk)⟩
      · rintro ⟨⟨hl, hr⟩, hln, hrn⟩
        obtain ⟨m, hm⟩ := List.exists_mem_of_ne_nil _ l.blacks_ne_nil
        have hn : n = m + 1 := (hln m hm).symm
        refine ⟨m, hn, ⟨hl, fun k hk => ?_⟩, hr, fun k hk => ?_⟩
        · exact Nat.succ.inj ((hln k hk).trans hn)
        · exact Nat.succ.inj ((hrn k hk).trans hn)

/-! ### Nodes by side -/

variable {t near far : CTree α} {x : α} {n : ℕ}

@[simp] theorem color_join (s : Side) (c : Color) (near : CTree α) (x : α) (far : CTree α) :
    (join s c near x far).color = c := by cases s <;> rfl

theorem join_other (s : Side) (c : Color) (near : CTree α) (x : α) (far : CTree α) :
    join s.other c near x far = join s c far x near := by cases s <;> rfl

theorem balanced_join_red {s : Side} : (join s .red near x far).Balanced n ↔
    near.Balanced n ∧ far.Balanced n ∧ near.color = .black ∧ far.color = .black := by
  cases s with
  | left => rfl
  | right =>
    simp only [join, Balanced]
    tauto

theorem balanced_join_black {s : Side} : (join s .black near x far).Balanced (n + 1) ↔
    near.Balanced n ∧ far.Balanced n := by
  cases s with
  | left => simp [join, Balanced]
  | right => simp [join, Balanced, and_comm]

/-- Colours are not seen in order. -/
theorem inorder_join_congr {s : Side} {c c' : Color} {near near' far far' : CTree α} {x : α}
    (hnear : near.inorder = near'.inorder) (hfar : far.inorder = far'.inorder) :
    (join s c near x far).inorder = (join s c' near' x far').inorder := by
  cases s <;> simp [join, inorder, hnear, hfar]

/-- A rotation. -/
theorem inorder_rotate (s : Side) (c₁ c₂ d₁ d₂ : Color) (a b d : CTree α) (x y : α) :
    (join s d₂ a y (join s d₁ b x d)).inorder = (join s c₁ (join s c₂ a y b) x d).inorder := by
  cases s <;> simp [join, inorder]

theorem inorder_doubleRotate (s : Side) (c₁ c₂ c₃ d₁ d₂ d₃ : Color) (a b d e : CTree α)
    (x y z : α) : (join s d₃ (join s d₂ a y b) z (join s d₁ e x d)).inorder =
      (join s c₁ (join s c₂ a y (join s c₃ b z e)) x d).inorder := by
  cases s <;> simp [join, inorder]

/-- A tree that is not a leaf, seen from a side. -/
theorem eq_join (s : Side) (ht : t ≠ nil) : ∃ c near x far, t = join s c near x far := by
  cases t with
  | nil => exact absurd rfl ht
  | node c l x r =>
    cases s with
    | left => exact ⟨c, l, x, r, rfl⟩
    | right => exact ⟨c, r, x, l, rfl⟩

theorem join_ne_nil (s : Side) (c : Color) (near : CTree α) (x : α) (far : CTree α) :
    join s c near x far ≠ nil := by
  cases s <;> exact nofun

@[simp] theorem balanced_nil : (nil : CTree α).Balanced n ↔ n = 0 := Iff.rfl

theorem ne_nil_of_balanced (h : t.Balanced (n + 1)) : t ≠ nil := by
  rintro rfl
  cases h

theorem ne_nil_of_red (h : t.color = .red) : t ≠ nil := by
  rintro rfl
  cases h

/-! ### Items apart from the shape -/

@[simp] theorem color_map (f : α → β) (t : CTree α) : (t.map f).color = t.color := by
  cases t <;> rfl

@[simp] theorem inorder_map (f : α → β) (t : CTree α) : (t.map f).inorder = t.inorder.map f := by
  induction t with
  | nil => rfl
  | node c l x r ihl ihr => simp [map, inorder, ihl, ihr]

@[simp] theorem balanced_map (f : α → β) (t : CTree α) (n : ℕ) :
    (t.map f).Balanced n ↔ t.Balanced n := by
  induction t generalizing n with
  | nil => rfl
  | node c l x r ihl ihr => cases c <;> simp [map, Balanced, ihl, ihr]

theorem isRedBlack_map (f : α → β) (t : CTree α) : (t.map f).IsRedBlack ↔ t.IsRedBlack := by
  simp [IsRedBlack]

end CTree

/-! ### Trees with a hole -/

/-- A node above the hole, the side on which the hole is, and the subtree on the
other. -/
structure Frame (α : Type u) where
  side : Side
  color : Color
  item : α
  sibling : CTree α

/-- The innermost frame comes first. -/
abbrev Context (α : Type u) := List (Frame α)

variable {α : Type u}

def Frame.attach (f : Frame α) (t : CTree α) : CTree α :=
  CTree.join f.side f.color t f.item f.sibling

/-- What an in-order walk passes on the way from a node to the hole. -/
def Frame.before (f : Frame α) : List α :=
  match f.side with
  | .left => []
  | .right => f.sibling.inorder ++ [f.item]

def Frame.after (f : Frame α) : List α :=
  match f.side with
  | .left => f.item :: f.sibling.inorder
  | .right => []

namespace Context

def plug : Context α → CTree α → CTree α
  | [], t => t
  | f :: up, t => plug up (f.attach t)

def before : Context α → List α
  | [] => []
  | f :: up => before up ++ f.before

def after : Context α → List α
  | [] => []
  | f :: up => f.after ++ after up

theorem inorder_attach (f : Frame α) (t : CTree α) :
    (f.attach t).inorder = f.before ++ t.inorder ++ f.after := by
  obtain ⟨s, c, x, u⟩ := f
  cases s <;> simp [Frame.attach, Frame.before, Frame.after, CTree.join, CTree.inorder]

theorem inorder_plug (ctx : Context α) (t : CTree α) :
    (plug ctx t).inorder = before ctx ++ t.inorder ++ after ctx := by
  induction ctx generalizing t with
  | nil => simp [plug, before, after]
  | cons f up ih => simp [plug, before, after, ih, inorder_attach]

theorem inorder_plug_congr {t t' : CTree α} (ctx : Context α) (h : t.inorder = t'.inorder) :
    (plug ctx t).inorder = (plug ctx t').inorder := by
  rw [inorder_plug, inorder_plug, h]

theorem plug_append (ctx up : Context α) (t : CTree α) :
    plug (ctx ++ up) t = plug up (plug ctx t) := by
  induction ctx generalizing t with
  | nil => rfl
  | cons f ctx ih => exact ih (f.attach t)

def grow : Color → ℕ → ℕ
  | .red, n => n
  | .black, n => n + 1

/-- A subtree with a root of colour `c` and `n` black nodes to each leaf makes the
whole a red-black tree. -/
def Fits : Context α → Color → ℕ → Prop
  | [], c, _ => c = .black
  | f :: up, c, n =>
    f.sibling.Balanced n ∧ (f.color = .red → c = .black ∧ f.sibling.color = .black) ∧
      Fits up f.color (grow f.color n)

theorem balanced_attach {f : Frame α} {t : CTree α} {m : ℕ} :
    (f.attach t).Balanced m ↔ ∃ n, m = grow f.color n ∧ t.Balanced n ∧ f.sibling.Balanced n ∧
      (f.color = .red → t.color = .black ∧ f.sibling.color = .black) := by
  obtain ⟨s, c, x, u⟩ := f
  cases c with
  | red => simp [Frame.attach, grow, CTree.balanced_join_red]
  | black =>
    cases m with
    | zero => cases s <;> simp [Frame.attach, grow, CTree.join, CTree.Balanced]
    | succ m => simp [Frame.attach, grow, CTree.balanced_join_black]

theorem isRedBlack_plug {ctx : Context α} {t : CTree α} {n : ℕ} (ht : t.Balanced n)
    (h : Fits ctx t.color n) : (plug ctx t).IsRedBlack := by
  induction ctx generalizing t n with
  | nil => exact ⟨h, n, ht⟩
  | cons f up ih =>
    obtain ⟨hsibling, hred, hup⟩ := h
    apply ih (balanced_attach.mpr ⟨n, rfl, ht, hsibling, hred⟩)
    rwa [Frame.attach, CTree.color_join]

/-- A subtree of a red-black tree. -/
theorem fits_of_plug {ctx : Context α} {t : CTree α} (h : (plug ctx t).IsRedBlack) :
    ∃ n, t.Balanced n ∧ Fits ctx t.color n := by
  induction ctx generalizing t with
  | nil => exact ⟨_, h.2.choose_spec, h.1⟩
  | cons f up ih =>
    obtain ⟨m, hbalanced, hup⟩ := ih h
    obtain ⟨n, rfl, ht, hsibling, hred⟩ := balanced_attach.mp hbalanced
    rw [Frame.attach, CTree.color_join] at hup
    exact ⟨n, ht, hsibling, hred, hup⟩

theorem Fits.black {ctx : Context α} {c : Color} {n : ℕ} (h : Fits ctx c n) :
    Fits ctx .black n := by
  cases ctx with
  | nil => rfl
  | cons f up => exact ⟨h.1, fun hred => ⟨rfl, (h.2.1 hred).2⟩, h.2.2⟩

end Context

end Course.Lib.RedBlack
