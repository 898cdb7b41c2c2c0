import Course.Lib.StrictWeak
import Course.Stl.Insertion

/-! The search for a key in an STLite map, and the insertion of a new one. -/

open Course.Lib Heap RedBlack

namespace Course.Stl.Map

variable {K V : Type} {cmp : K → K → Bool} {h : Heap (Node K V)} {F : Multiset (ℕ × Node K V)}
  {base : Base} {ctx : Context (Item K V)} {t : CTree (Item K V)} {x : Item K V} {key : K}

/-! ### Order -/

/-- The keys increase. -/
def Sorted (cmp : K → K → Bool) (l : List (Item K V)) : Prop :=
  l.Pairwise fun x y => cmp x.2.1 y.2.1 = true

/-- Keys that the order does not tell apart. -/
def Same (cmp : K → K → Bool) (key key' : K) : Prop := cmp key key' = false ∧ cmp key' key = false

/-- The place of a key among the nodes of a context. -/
structure Around (cmp : K → K → Bool) (key : K) (ctx : Context (Item K V)) : Prop where
  before : ∀ x ∈ Context.before ctx, cmp x.2.1 key = true
  after : ∀ x ∈ Context.after ctx, cmp key x.2.1 = true

/-- The way to a key: to its node, or to where there is none. -/
def locate (cmp : K → K → Bool) (key : K) :
    Context (Item K V) → CTree (Item K V) → Context (Item K V) × CTree (Item K V)
  | ctx, .nil => (ctx, .nil)
  | ctx, .node c l x r =>
    if cmp key x.2.1 then locate cmp key (⟨.left, c, x, r⟩ :: ctx) l
    else if cmp x.2.1 key then locate cmp key (⟨.right, c, x, l⟩ :: ctx) r
    else (ctx, .node c l x r)

theorem plug_locate (cmp : K → K → Bool) (key : K) (ctx : Context (Item K V))
    (t : CTree (Item K V)) :
    Context.plug (locate cmp key ctx t).1 (locate cmp key ctx t).2 = Context.plug ctx t := by
  induction t generalizing ctx with
  | nil => rfl
  | node c l x r ihl ihr =>
    rw [locate]
    split
    · exact ihl _
    · split
      · exact ihr _
      · rfl

theorem same_locate (cmp : K → K → Bool) (key : K) (ctx : Context (Item K V))
    (t : CTree (Item K V)) : (locate cmp key ctx t).2 = .nil ∨
      ∃ c l x r, (locate cmp key ctx t).2 = .node c l x r ∧ Same cmp key x.2.1 := by
  induction t generalizing ctx with
  | nil => exact .inl rfl
  | node c l x r ihl ihr =>
    rw [locate]
    split
    · exact ihl _
    next hlt =>
      split
      · exact ihr _
      next hgt => exact .inr ⟨c, l, x, r, rfl, Bool.eq_false_iff.mpr hlt, Bool.eq_false_iff.mpr hgt⟩

theorem around_locate (hcmp : StrictWeak cmp) (ht : Sorted cmp t.inorder)
    (hctx : Around cmp key ctx) : Around cmp key (locate cmp key ctx t).1 := by
  induction t generalizing ctx with
  | nil => exact hctx
  | node c l x r ihl ihr =>
    obtain ⟨hl, hxr, hlx⟩ := List.pairwise_append.mp ht
    obtain ⟨hx, hr⟩ := List.pairwise_cons.mp hxr
    have htrans := hcmp.toIsStrictOrder.toIsTrans.trans
    rw [locate]
    split
    next hlt =>
      apply ihl hl
      refine ⟨by simpa [Context.before, Frame.before] using hctx.before, fun y hy => ?_⟩
      rcases List.mem_append.mp hy with hy | hy
      · rcases List.mem_cons.mp hy with rfl | hy
        · exact hlt
        · exact htrans _ _ _ hlt (hx y hy)
      · exact hctx.after y hy
    · split
      next hgt =>
        apply ihr hr
        refine ⟨fun y hy => ?_, by simpa [Context.after, Frame.after] using hctx.after⟩
        rcases List.mem_append.mp hy with hy | hy
        · exact hctx.before y hy
        · rcases List.mem_append.mp hy with hy | hy
          · exact htrans _ _ _ (hlx y hy x List.mem_cons_self) hgt
          · rwa [List.mem_singleton.mp hy]
      next => exact hctx

/-! ### Loops -/

theorem wp_entry {Q : K × V → Heap (Node K V) → Prop} {p : ℕ} {n : Node K V} {e : K × V}
    (hp : h.cells p = some n) (hn : n.val = some e) (hQ : Q e h) : wp (entry (some p)) Q h :=
  ⟨e, h, by simp [entry, deref, hp, hn], hQ⟩

theorem cells_root {s : Side} {c : Color} {near far : CTree (Item K V)}
    (hs : Holds h [] (base.shape ctx (.join s c near x far) + F)) : h.cells x.1 =
      some (.sided (some x.2) c (some (base.parent ctx)) (ptr near) (ptr far) s) :=
  (Base.holds_join.mp hs).cells_of_getElem? (i := 0) rfl

theorem wp_seek {Q : Ptr → Heap (Node K V) → Prop} (hs : Holds h [] (base.shape ctx t + F))
    (hQ : Q (ptr (locate cmp key ctx t).2) h) : wp (seek cmp key (ptr t)) Q h := by
  induction t generalizing ctx with
  | nil =>
    rw [seek, ptr, if_pos rfl, wp_pure]
    exact hQ
  | node c l x r ihl ihr =>
    have hx := cells_root (s := .left) hs
    have hl := hs
    rw [show CTree.node c l x r = .join .left c l x r from rfl, ← Base.shape_near] at hl
    have hr := hs
    rw [show CTree.node c l x r = .join .right c r x l from rfl, ← Base.shape_near] at hr
    rw [locate] at hQ
    rw [seek, ptr, if_neg (Option.some_ne_none _), wp_bind]
    apply wp_entry hx rfl
    split at hQ
    next hlt =>
      rw [if_pos hlt, wp_bind]
      apply wp_deref_of_cells hx
      exact ihl hl hQ
    next hlt =>
      rw [if_neg hlt, wp_bind]
      apply wp_entry hx rfl
      split at hQ
      next hgt =>
        rw [if_pos hgt, wp_bind]
        apply wp_deref_of_cells hx
        exact ihr hr hQ
      next hgt =>
        rw [if_neg hgt, wp_pure]
        exact hQ

theorem wp_descend {Q : Ptr × Ptr → Heap (Node K V) → Prop}
    (hs : Holds h [] (base.shape ctx t + F))
    (hQ : Q (ptr (locate cmp key ctx t).2, some (base.parent (locate cmp key ctx t).1)) h) :
    wp (descend cmp key (some (base.parent ctx)) (ptr t)) Q h := by
  induction t generalizing ctx with
  | nil =>
    rw [descend, ptr, if_pos rfl, wp_pure]
    exact hQ
  | node c l x r ihl ihr =>
    have hx := cells_root (s := .left) hs
    have hl := hs
    rw [show CTree.node c l x r = .join .left c l x r from rfl, ← Base.shape_near] at hl
    have hr := hs
    rw [show CTree.node c l x r = .join .right c r x l from rfl, ← Base.shape_near] at hr
    rw [locate] at hQ
    rw [descend, ptr, if_neg (Option.some_ne_none _), wp_bind]
    apply wp_entry hx rfl
    split at hQ
    next hlt =>
      rw [if_pos hlt, wp_bind]
      apply wp_deref_of_cells hx
      exact ihl hl hQ
    next hlt =>
      rw [if_neg hlt, wp_bind]
      apply wp_entry hx rfl
      split at hQ
      next hgt =>
        rw [if_pos hgt, wp_bind]
        apply wp_deref_of_cells hx
        exact ihr hr hQ
      next hgt =>
        rw [if_neg hgt, wp_pure]
        exact hQ

/-! ### What is found -/

/-- The node of a key, or nothing. -/
inductive Finds (cmp : K → K → Bool) (key : K) (l : List (Item K V)) : Ptr → Prop
  | found {x : Item K V} : x ∈ l → Same cmp key x.2.1 → Finds cmp key l (some x.1)
  | absent : (∀ x ∈ l, ¬Same cmp key x.2.1) → Finds cmp key l none

theorem Around.nil : Around cmp key ([] : Context (Item K V)) :=
  ⟨fun _ hx => absurd hx List.not_mem_nil, fun _ hx => absurd hx List.not_mem_nil⟩

theorem Around.not_same (h : Around cmp key ctx) :
    ∀ x ∈ (Context.plug ctx .nil).inorder, ¬Same cmp key x.2.1 := by
  intro x hx hsame
  rw [Context.inorder_plug, CTree.inorder, List.append_nil] at hx
  rcases List.mem_append.mp hx with hx | hx
  · exact Bool.eq_false_iff.mp hsame.2 (h.before x hx)
  · exact Bool.eq_false_iff.mp hsame.1 (h.after x hx)

theorem finds_locate (hcmp : StrictWeak cmp) (ht : Sorted cmp t.inorder) :
    Finds cmp key t.inorder (ptr (locate cmp key [] t).2) := by
  have hplug := plug_locate cmp key [] t
  rcases same_locate cmp key [] t with hnil | ⟨c, l, x, r, hnode, hsame⟩
  · rw [hnil] at hplug ⊢
    have haround : Around cmp key (locate cmp key [] t).1 := around_locate hcmp ht Around.nil
    apply Finds.absent
    rw [show t = Context.plug [] t from rfl, ← hplug]
    exact haround.not_same
  · rw [hnode] at hplug ⊢
    refine .found ?_ hsame
    rw [show t = Context.plug [] t from rfl, ← hplug, Context.inorder_plug]
    simp [CTree.inorder]

/-! ### Insertion -/

theorem wp_hang {Q : Unit → Heap (Node K V) → Prop} {f : Frame (Item K V)} {up : Context (Item K V)}
    {c : Color} (hs : Holds h [(x.1, ⟨some x.2, c, some f.item.1, none, none⟩)]
      (base.shape (f :: up) .nil + F))
    (hQ : ∀ h', Holds h' [] (base.shape (f :: up) (.node c .nil x .nil) + F) → Q () h') :
    wp (assign (some f.item.1) fun n => n.setChild (some x.1) f.side) Q h := by
  rw [Base.shape_nil] at hs
  apply Base.wp_fill hs
  exact fun h' hs' => hQ h' (Base.holds_leaf.mpr hs')

/-- The side that `insert` takes is the one that the search took. -/
theorem Around.side {f : Frame (Item K V)} {up : Context (Item K V)} (hcmp : StrictWeak cmp)
    (h : Around cmp key (f :: up)) :
    (if cmp key f.item.2.1 then Side.left else .right) = f.side := by
  cases hf : f.side with
  | left =>
    rw [if_pos]
    apply h.after
    simp [Context.after, Frame.after, hf]
  | right =>
    have hbefore : cmp f.item.2.1 key = true := by
      apply h.before
      simp [Context.before, Frame.before, hf]
    rw [if_neg (Bool.eq_false_iff.mp (hcmp.asymm hbefore))]

theorem wp_insert {Q : Map × Iterator × Bool → Heap (Node K V) → Prop} {n : ℕ} {value : K × V}
    (hcmp : StrictWeak cmp) (hs : Holds h [] (base.shape [] t + F)) (hrb : t.IsRedBlack)
    (ht : Sorted cmp t.inorder) (hn : n = t.inorder.length)
    (hold : ∀ x ∈ t.inorder, Same cmp value.1 x.2.1 →
      Q (⟨base.head, n⟩, ⟨some x.1, base.head⟩, false) h)
    (hnew : ∀ p h' t' before after, Holds h' [] (base.shape [] t' + F) → t'.IsRedBlack →
      t.inorder = before ++ after → t'.inorder = before ++ (p, value) :: after →
      (∀ x ∈ before, cmp x.2.1 value.1 = true) → (∀ x ∈ after, cmp value.1 x.2.1 = true) →
      Q (⟨base.head, n + 1⟩, ⟨some p, base.head⟩, true) h') :
    wp (insert cmp ⟨base.head, n⟩ value) Q h := by
  rw [insert]
  by_cases hzero : n = 0
  · obtain rfl : t = .nil := by
      cases t with
      | nil => rfl
      | node c l x r => simp [CTree.inorder, hzero] at hn
    rw [if_pos hzero]
    simp only [wp_bind]
    apply wp_new hs
    intro p h hs
    have hs : Holds h [(base.head, ⟨none, base.color, none, none, none⟩),
        (p, ⟨some value, .black, some base.head, none, none⟩)] F := by
      apply hs.congr
      simp only [Base.shape, Base.hole, Base.rest, Base.top, cells, ptr,
        ← Multiset.cons_coe, ← Multiset.singleton_add, Multiset.coe_nil]
      abel
    apply wp_assign hs 0 rfl (show _ = (⟨none, base.color, none, some p, none⟩ : Node K V) from rfl)
    intro h hs
    rw [wp_pure]
    apply hnew p h (.node .black .nil (p, value) .nil) [] []
    · apply hs.congr
      simp only [Base.shape, Base.hole, Base.rest, Base.top, Base.parent, cells, ptr,
        List.set_cons_zero, ← Multiset.cons_coe, ← Multiset.singleton_add, Multiset.coe_nil]
      abel
    · exact ⟨rfl, 1, 0, rfl, rfl, rfl⟩
    · rfl
    · rfl
    · exact fun _ hx => absurd hx List.not_mem_nil
    · exact fun _ hx => absurd hx List.not_mem_nil
  · rw [if_neg hzero]
    simp only [wp_bind]
    apply Base.wp_deref_head hs
    have hdescend := @wp_descend K V cmp h F base [] t value.1
    have hplug := plug_locate cmp value.1 [] t
    have haround : Around cmp value.1 (locate cmp value.1 [] t).1 :=
      around_locate hcmp ht Around.nil
    have hsame := same_locate cmp value.1 [] t
    apply hdescend hs
    clear hdescend
    generalize locate cmp value.1 [] t = place at hplug haround hsame
    obtain ⟨ctx, u⟩ := place
    dsimp only at hplug haround hsame ⊢
    rw [Context.plug] at hplug
    subst hplug
    rcases hsame with rfl | ⟨c, l, x, r, rfl, hsame⟩
    · cases ctx with
      | nil => exact absurd (by rw [hn]; rfl) hzero
      | cons f up =>
        have hparent := hs
        rw [← Base.shape_plug, Base.shape_attach] at hparent
        obtain ⟨_, rfl, hfits⟩ := Context.fits_of_plug hrb
        rw [if_neg (by simp [ptr]), wp_bind, Base.parent_cons]
        apply wp_entry (cells_root hparent) (val_sided ..)
        rw [haround.side hcmp, wp_bind]
        apply wp_new hs
        intro p h hs
        rw [← Base.shape_plug] at hs
        simp only [wp_bind]
        apply wp_hang (x := (p, value)) hs
        intro h hs
        apply wp_adjustInsert (t := .node .red .nil (p, value) .nil) hs rfl (n := 0)
          ⟨rfl, rfl, rfl, rfl⟩ hfits (List.cons_ne_nil _ _)
        intro h t' hs hrb' hinorder
        rw [wp_pure]
        apply hnew p h t' _ _ hs hrb' _ _ haround.before haround.after
        · simp [Context.inorder_plug, CTree.inorder]
        · simp [hinorder, Context.inorder_plug, CTree.inorder]
    · rw [if_pos (by simp [ptr]), wp_pure]
      apply hold x _ hsame
      simp [Context.inorder_plug, CTree.inorder]

end Course.Stl.Map
