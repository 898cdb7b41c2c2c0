import Course.Stl.Map
import Mathlib.Algebra.Order.Group.Multiset
import Mathlib.Tactic.Abel
import Mathlib.Tactic.Tauto

/-! The nodes of an STLite map in memory: a tree of addresses and values below the
head node, and the same tree with a hole. -/

open Course.Lib Heap RedBlack

namespace Course.Stl.Map

variable {K V : Type}

abbrev Item (K V : Type) := ℕ × (K × V)

/-- The node with `near` on the given side. -/
def Node.sided (val : Option (K × V)) (color : Color) (parent : Ptr) (near far : Ptr) :
    Side → Node K V
  | .left => ⟨val, color, parent, near, far⟩
  | .right => ⟨val, color, parent, far, near⟩

section Sided

variable (val : Option (K × V)) (color : Color) (parent near far p : Ptr) (s : Side)

@[simp] theorem child_sided : (Node.sided val color parent near far s).child s = near := by
  cases s <;> rfl

@[simp] theorem child_other_sided :
    (Node.sided val color parent near far s).child s.other = far := by
  cases s <;> rfl

@[simp] theorem setChild_sided : (Node.sided val color parent near far s).setChild p s =
    .sided val color parent p far s := by
  cases s <;> rfl

@[simp] theorem setChild_other_sided :
    (Node.sided val color parent near far s).setChild p s.other = .sided val color parent near p s := by
  cases s <;> rfl

@[simp] theorem parent_sided : (Node.sided val color parent near far s).parent = parent := by
  cases s <;> rfl

@[simp] theorem color_sided : (Node.sided val color parent near far s).color = color := by
  cases s <;> rfl

@[simp] theorem val_sided : (Node.sided val color parent near far s).val = val := by
  cases s <;> rfl

@[simp] theorem setParent_sided : (Node.sided val color parent near far s).setParent p =
    .sided val color p near far s := by
  cases s <;> rfl

@[simp] theorem setColor_sided (c : Color) :
    (Node.sided val color parent near far s).setColor c = .sided val c parent near far s := by
  cases s <;> rfl

theorem sided_other : Node.sided val color parent near far s.other =
    .sided val color parent far near s := by
  cases s <;> rfl

end Sided

def ptr : CTree (Item K V) → Ptr
  | .nil => none
  | .node _ _ x _ => some x.1

@[simp] theorem ptr_join (s : Side) (c : Color) (near : CTree (Item K V)) (x : Item K V)
    (far : CTree (Item K V)) : ptr (.join s c near x far) = some x.1 := by cases s <;> rfl

/-- The nodes of a tree under the node at `up`. -/
def cells (up : Ptr) : CTree (Item K V) → Multiset (ℕ × Node K V)
  | .nil => 0
  | .node c l x r =>
    {(x.1, ⟨some x.2, c, up, ptr l, ptr r⟩)} + (cells (some x.1) l + cells (some x.1) r)

theorem cells_join (up : Ptr) (s : Side) (c : Color) (near : CTree (Item K V)) (x : Item K V)
    (far : CTree (Item K V)) : cells up (.join s c near x far) =
      {(x.1, .sided (some x.2) c up (ptr near) (ptr far) s)} +
        (cells (some x.1) near + cells (some x.1) far) := by
  cases s with
  | left => rfl
  | right =>
    rw [add_comm (cells (some x.1) near)]
    rfl

/-- A node the program holds is not the root of a tree in the frame. -/
theorem ptr_ne {h : Heap (Node K V)} {l : List (ℕ × Node K V)} {F : Multiset (ℕ × Node K V)}
    {a i : ℕ} {n : Node K V} {up : Ptr} {t : CTree (Item K V)} (hs : Holds h l F)
    (hi : l[i]? = some (a, n)) (hF : cells up t ⊆ F) : ptr t ≠ some a := by
  cases t with
  | nil => exact Option.some_ne_none a ∘ Eq.symm
  | node c left x right =>
    have hmem := hF (Multiset.mem_add.mpr (.inl (Multiset.mem_singleton_self _)))
    exact fun heq => hs.ne_of_mem hi hmem (Option.some.inj heq)

/-- The head node; `color` is whatever it is. -/
structure Base where
  head : ℕ
  color : Color

namespace Base

variable (base : Base)

def parent : Context (Item K V) → ℕ
  | [] => base.head
  | f :: _ => f.item.1

/-- The node above the hole, which is filled with `p`. -/
def top : Context (Item K V) → Ptr → ℕ × Node K V
  | [], p => (base.head, ⟨none, base.color, none, p, none⟩)
  | f :: up, p =>
    (f.item.1, .sided (some f.item.2) f.color (some (base.parent up)) p (ptr f.sibling) f.side)

def rest : Context (Item K V) → Multiset (ℕ × Node K V)
  | [] => 0
  | f :: up => cells (some f.item.1) f.sibling + ({base.top up (some f.item.1)} + rest up)

def hole (ctx : Context (Item K V)) (p : Ptr) : Multiset (ℕ × Node K V) :=
  {base.top ctx p} + base.rest ctx

/-- All nodes of a map that has `t` in the hole. -/
def shape (ctx : Context (Item K V)) (t : CTree (Item K V)) : Multiset (ℕ × Node K V) :=
  base.hole ctx (ptr t) + cells (some (base.parent ctx)) t

theorem shape_attach (f : Frame (Item K V)) (up : Context (Item K V)) (t : CTree (Item K V)) :
    base.shape (f :: up) t = base.shape up (f.attach t) := by
  simp only [shape, hole, rest, top, parent, Frame.attach, ptr_join, cells_join]
  abel

theorem shape_plug (ctx : Context (Item K V)) (t : CTree (Item K V)) :
    base.shape ctx t = base.shape [] (Context.plug ctx t) := by
  induction ctx generalizing t with
  | nil => rfl
  | cons f up ih => rw [shape_attach, ih, Context.plug]

theorem parent_cons (f : Frame (Item K V)) (up : Context (Item K V)) :
    base.parent (f :: up) = f.item.1 := rfl

@[simp] theorem fst_top (ctx : Context (Item K V)) (p : Ptr) : (base.top ctx p).1 = base.parent ctx := by
  cases ctx <;> rfl

theorem shape_near (s : Side) (c : Color) (near : CTree (Item K V)) (x : Item K V)
    (far : CTree (Item K V)) (up : Context (Item K V)) :
    base.shape (⟨s, c, x, far⟩ :: up) near = base.shape up (.join s c near x far) :=
  base.shape_attach ..

theorem shape_far (s : Side) (c : Color) (near : CTree (Item K V)) (x : Item K V)
    (far : CTree (Item K V)) (up : Context (Item K V)) :
    base.shape (⟨s.other, c, x, near⟩ :: up) far = base.shape up (.join s c near x far) := by
  rw [shape_near, CTree.join_other]

theorem shape_join (ctx : Context (Item K V)) (s : Side) (c : Color) (near : CTree (Item K V))
    (x : Item K V) (far : CTree (Item K V)) : base.shape ctx (.join s c near x far) =
      {(x.1, .sided (some x.2) c (some (base.parent ctx)) (ptr near) (ptr far) s)} +
        (base.hole ctx (some x.1) + (cells (some x.1) near + cells (some x.1) far)) := by
  rw [shape, ptr_join, cells_join]
  abel

variable {base} {h : Heap (Node K V)} {F : Multiset (ℕ × Node K V)} {ctx up : Context (Item K V)}
  {s : Side} {c : Color} {t near far : CTree (Item K V)} {x : Item K V} {f : Frame (Item K V)}

theorem shape_nil (ctx : Context (Item K V)) : base.shape ctx .nil = base.hole ctx none :=
  add_zero _

/-- The node above the hole, apart from the other nodes. -/
theorem holds_hole {l : List (ℕ × Node K V)} {p : Ptr} : Holds h l (base.hole ctx p + F) ↔
    Holds h (base.top ctx p :: l) (base.rest ctx + F) := by
  constructor <;> intro hs <;> apply hs.congr <;>
    rw [hole, ← Multiset.cons_coe, ← Multiset.singleton_add] <;> abel

theorem wp_fill_head {Q : Unit → Heap (Node K V) → Prop} {l : List (ℕ × Node K V)} {p q : Ptr}
    (hs : Holds h l (base.hole [] p + F))
    (hQ : ∀ h', Holds h' l (base.hole [] q + F) → Q () h') :
    wp (assign (some base.head) fun n => { n with left := q }) Q h := by
  apply wp_assign (holds_hole.mp hs) 0 rfl
    (show _ = (⟨none, base.color, none, q, none⟩ : Node K V) from rfl)
  exact fun h' hs' => hQ h' (holds_hole.mpr hs')

theorem wp_fill {Q : Unit → Heap (Node K V) → Prop} {l : List (ℕ × Node K V)} {p q : Ptr}
    (hs : Holds h l (base.hole (f :: up) p + F))
    (hQ : ∀ h', Holds h' l (base.hole (f :: up) q + F) → Q () h') :
    wp (assign (some f.item.1) fun n => n.setChild q f.side) Q h := by
  apply wp_assign (holds_hole.mp hs) 0 rfl (setChild_sided ..)
  exact fun h' hs' => hQ h' (holds_hole.mpr hs')

/-- A leaf in the hole, apart from the other nodes. -/
theorem holds_leaf : Holds h [] (base.shape ctx (.node c .nil x .nil) + F) ↔
    Holds h [(x.1, ⟨some x.2, c, some (base.parent ctx), none, none⟩)]
      (base.hole ctx (some x.1) + F) := by
  constructor <;> intro hs <;> apply hs.congr <;>
    simp only [shape, cells, ptr, Multiset.coe_nil, Multiset.coe_singleton] <;> abel

/-- The root of the subtree in the hole, apart from the other nodes. -/
theorem holds_join : Holds h [] (base.shape ctx (.join s c near x far) + F) ↔
    Holds h [(x.1, .sided (some x.2) c (some (base.parent ctx)) (ptr near) (ptr far) s)]
      (base.hole ctx (some x.1) + (cells (some x.1) near + cells (some x.1) far) + F) := by
  constructor <;> intro hs <;> apply hs.congr <;>
    rw [shape_join, Multiset.coe_nil, Multiset.coe_singleton] <;> abel

theorem wp_deref_root {Q : Node K V → Heap (Node K V) → Prop}
    (hs : Holds h [] (base.shape ctx (.join s c near x far) + F))
    (hQ : Q (.sided (some x.2) c (some (base.parent ctx)) (ptr near) (ptr far) s) h) :
    wp (deref (some x.1)) Q h := wp_deref (holds_join.mp hs) 0 rfl hQ

theorem wp_deref_parent {Q : Node K V → Heap (Node K V) → Prop}
    (hs : Holds h [] (base.shape (f :: up) t + F))
    (hQ : Q (.sided (some f.item.2) f.color (some (base.parent up)) (ptr t) (ptr f.sibling) f.side)
      h) : wp (deref (some f.item.1)) Q h := by
  rw [shape_attach] at hs
  exact wp_deref_root hs hQ

theorem wp_paint_root {Q : Unit → Heap (Node K V) → Prop} {c' : Color}
    (hs : Holds h [] (base.shape ctx (.join s c near x far) + F))
    (hQ : ∀ h', Holds h' [] (base.shape ctx (.join s c' near x far) + F) → Q () h') :
    wp (paint (some x.1) c') Q h :=
  wp_assign (holds_join.mp hs) 0 rfl (setColor_sided ..) fun h' hs' => hQ h' (holds_join.mpr hs')

theorem wp_paint_near {Q : Unit → Heap (Node K V) → Prop} {s' : Side} {c' d : Color}
    {y : Item K V} {u v : CTree (Item K V)}
    (hs : Holds h [] (base.shape ctx (.join s c (.join s' d u y v) x far) + F))
    (hQ : ∀ h', Holds h' [] (base.shape ctx (.join s c (.join s' c' u y v) x far) + F) → Q () h') :
    wp (paint (some y.1) c') Q h := by
  rw [← shape_near] at hs
  apply wp_paint_root hs
  intro h' hs'
  apply hQ
  rwa [← shape_near]

theorem wp_paint_far {Q : Unit → Heap (Node K V) → Prop} {q : Side} {c' d : Color}
    {y : Item K V} {u v : CTree (Item K V)}
    (hs : Holds h [] (base.shape ctx (.join s c near x (.join q d u y v)) + F))
    (hQ : ∀ h', Holds h' [] (base.shape ctx (.join s c near x (.join q c' u y v)) + F) → Q () h') :
    wp (paint (some y.1) c') Q h := by
  rw [← shape_far] at hs
  apply wp_paint_root hs
  intro h' hs'
  apply hQ
  rwa [← shape_far]

/-- The two subtrees of a node have different roots. -/
theorem ptr_sibling_ne (hs : Holds h [] (base.shape (f :: up) t + F)) (ht : t ≠ .nil) :
    ptr f.sibling ≠ ptr t := by
  obtain ⟨c, near, x, far, rfl⟩ := CTree.eq_join .left ht
  rw [ptr_join]
  have hsub : cells (some f.item.1) f.sibling ⊆
      base.hole (f :: up) (some x.1) + (cells (some x.1) near + cells (some x.1) far) + F :=
    fun c hc => by simp [hole, rest, hc]
  exact ptr_ne (i := 0) (holds_join.mp hs) rfl hsub

theorem wp_sibling {Q : Ptr → Heap (Node K V) → Prop}
    (hs : Holds h [] (base.shape (f :: up) t + F)) (ht : t ≠ .nil) (hQ : Q (ptr f.sibling) h) :
    wp (sibling (ptr t) (some f.item.1)) Q h := by
  have hne := ptr_sibling_ne hs ht
  simp only [sibling, wp_bind, wp_pure]
  apply wp_deref_parent hs
  cases hf : f.side with
  | left =>
    rw [Node.sided, if_pos rfl]
    exact hQ
  | right =>
    rw [Node.sided, if_neg hne.symm]
    exact hQ

theorem wp_isRed {Q : Bool → Heap (Node K V) → Prop} (hs : Holds h [] (base.shape ctx t + F))
    (hQ : Q (t.color = .red) h) : wp (isRed (ptr t)) Q h := by
  cases t with
  | nil =>
    rw [isRed, ptr, if_pos rfl, wp_pure]
    exact hQ
  | node c near x far =>
    rw [isRed, ptr, if_neg (Option.some_ne_none _), wp_bind]
    apply wp_deref_root (s := .left) hs
    rw [wp_pure, color_sided]
    exact hQ

theorem wp_deref_head {Q : Node K V → Heap (Node K V) → Prop}
    (hs : Holds h [] (base.shape ctx t + F))
    (hQ : Q ⟨none, base.color, none, ptr (Context.plug ctx t), none⟩ h) :
    wp (deref (some base.head)) Q h := by
  rw [shape_plug] at hs
  have hmem : (base.head, ⟨none, base.color, none, ptr (Context.plug ctx t), none⟩) ∈
      base.shape [] (Context.plug ctx t) + F := by
    simp [shape, hole, top]
  exact wp_deref_of_mem hs hmem hQ

/-- Below another node the subtree is not the whole tree. -/
theorem ptr_plug_ne (hs : Holds h [] (base.shape (f :: up) t + F)) (ht : t ≠ .nil) :
    ptr (Context.plug (f :: up) t) ≠ ptr t := by
  have hmem : ∀ (f : Frame (Item K V)) t p, ∃ a m, ptr (Context.plug (f :: up) t) = some a ∧
      (a, m) ∈ base.hole (f :: up) p := by
    clear hs
    induction up with
    | nil =>
      intro f t p
      exact ⟨_, _, ptr_join .., Multiset.mem_add.mpr (.inl (Multiset.mem_singleton_self _))⟩
    | cons g up ih =>
      intro f t p
      obtain ⟨a, m, ha, hm⟩ := ih g (f.attach t) (some f.item.1)
      refine ⟨a, m, ha, ?_⟩
      simp only [hole, rest, Multiset.mem_add] at hm ⊢
      tauto
  obtain ⟨c, near, x, far, rfl⟩ := CTree.eq_join .left ht
  obtain ⟨a, m, ha, hm⟩ := hmem f (.join .left c near x far) (some x.1)
  have hin : (a, m) ∈ base.hole (f :: up) (some x.1) +
      (cells (some x.1) near + cells (some x.1) far) + F := by
    simp [hm]
  rw [ha, ptr_join]
  exact fun heq => (holds_join.mp hs).ne_of_mem (i := 0) rfl hin (Option.some.inj heq)

/-- The nodes above the hole are not the head. -/
theorem parent_ne_head (hs : Holds h [] (base.shape (f :: up) t + F)) :
    base.parent (f :: up) ≠ base.head := by
  have hhead : ∃ n, (base.head, n) ∈ base.hole up (some f.item.1) := by
    generalize some f.item.1 = p
    clear hs
    induction up generalizing p with
    | nil => exact ⟨_, Multiset.mem_add.mpr (.inl (Multiset.mem_singleton_self _))⟩
    | cons g up ih =>
      obtain ⟨n, hn⟩ := ih (some g.item.1)
      exact ⟨n, by
        simp only [hole, rest, Multiset.mem_add] at hn ⊢
        tauto⟩
  obtain ⟨n, hn⟩ := hhead
  rw [shape_attach] at hs
  have hmem : (base.head, n) ∈ base.hole up (some f.item.1) +
      (cells (some f.item.1) t + cells (some f.item.1) f.sibling) + F := by
    simp [hn]
  exact ((holds_join.mp hs).ne_of_mem (i := 0) rfl hmem).symm

end Base

end Course.Stl.Map
