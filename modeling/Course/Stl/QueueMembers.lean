import Course.Stl.Selection

/-! What the members of the priority queue do to a queue and its trees. -/

open Course.Lib Heap

namespace Course.Stl.PriorityQueue

open Forest

variable {T : Type} {cmp : T → T → Bool} {h : Heap (Node T)} {F : Multiset (ℕ × Node T)}
  {q other : PriorityQueue} {f g : Forest T}

/-- The trees of a queue; `prior` is a greatest one of them. -/
structure Represents (cmp : T → T → Bool) (q : PriorityQueue) (f : Forest T) : Prop where
  root : q.root = some f.ptr
  length : q.length = f.keys.card
  ordered : f.Ordered cmp
  prior : ∀ p, f ≠ nil → q.prior = some p → ∃ r ∈ f.roots, r.addr = p ∧ Tops cmp r.key f.keys

namespace Represents

theorem create : Represents cmp create nil :=
  ⟨rfl, rfl, trivial, fun _ hne => absurd rfl hne⟩

theorem of_keys {n : ℕ} {s : Multiset T} (hf : f.Ordered cmp) (hkeys : f.keys = s)
    (hn : n = s.card) : Represents cmp ⟨some f.ptr, n, none⟩ f :=
  ⟨rfl, hkeys ▸ hn, hf, fun _ _ hp => absurd hp (by simp)⟩

theorem eq_nil_iff (hq : Represents cmp q f) : f = nil ↔ q.length = 0 := by
  rw [hq.length]
  cases f with
  | nil => simp
  | node a k d ch nx => simp [keys]

theorem readRoot (hq : Represents cmp q f) {Q : Ptr → Heap (Node T) → Prop} (hQ : Q f.ptr h) :
    wp q.readRoot Q h :=
  ⟨f.ptr, h, by simp [PriorityQueue.readRoot, hq.root], hQ⟩

end Represents

/-- The new node of `push`. -/
theorem wp_create {Q : ℕ → Heap (Node T) → Prop} {e : T} (hs : Holds h [] F)
    (hQ : ∀ a h', Holds h' [] ((node a e 0 nil nil).cells + F) → Q a h') :
    wp (new (.create e)) Q h := by
  apply wp_new hs
  intro a h' hs
  apply hQ
  apply hs.congr
  simp [Forest.cells, Node.create]

theorem keys_push (f : Forest T) (a : ℕ) (e : T) :
    (Forest.mergeTrees cmp (Forest.link f (node a e 0 nil nil))).keys = e ::ₘ f.keys := by
  rw [keys_mergeTrees, keys_link]
  simp only [keys, ← Multiset.singleton_add]
  abel

theorem wp_push {Q : PriorityQueue → Heap (Node T) → Prop} {e : T} (hcmp : StrictWeak cmp)
    (hq : Represents cmp q f) (hs : Holds h [] (f.cells + F))
    (hQ : ∀ a q' h',
      Represents cmp q' (Forest.mergeTrees cmp (Forest.link f (node a e 0 nil nil))) →
      Holds h' [] ((Forest.mergeTrees cmp (Forest.link f (node a e 0 nil nil))).cells + F) →
      Q q' h') : wp (push cmp q e) Q h := by
  simp only [push, wp_bind, wp_pure]
  apply hq.readRoot
  apply wp_create hs
  intro a h hs
  have hs' : Holds h [] (f.cells + ((node a e 0 nil nil).cells + F)) := by
    apply hs.congr
    abel
  apply wp_link hs'
  intro h hs
  apply wp_mergeTrees hs
  intro h hs
  have hsingle : (node a e 0 nil nil).Ordered cmp := ⟨Tops.zero, trivial, trivial⟩
  apply hQ a _ h _ hs
  exact .of_keys ((hq.ordered.link hsingle).mergeTrees hcmp) (keys_push f a e)
    (by simp [hq.length])

theorem keys_merge (f g : Forest T) :
    (Forest.mergeTrees cmp (Forest.link f g)).keys = f.keys + g.keys := by
  rw [keys_mergeTrees, keys_link]

theorem wp_merge {Q : PriorityQueue × PriorityQueue → Heap (Node T) → Prop}
    (hcmp : StrictWeak cmp) (hq : Represents cmp q f) (hother : Represents cmp other g)
    (hs : Holds h [] (f.cells + (g.cells + F)))
    (hQ : ∀ q' other' h', Represents cmp q' (Forest.mergeTrees cmp (Forest.link f g)) →
      Represents cmp other' nil →
      Holds h' [] ((Forest.mergeTrees cmp (Forest.link f g)).cells + F) → Q (q', other') h') :
    wp (merge cmp q other) Q h := by
  simp only [merge, wp_bind, wp_pure]
  apply hq.readRoot
  apply hother.readRoot
  apply wp_link hs
  intro h hs
  apply wp_mergeTrees hs
  intro h hs
  apply hQ _ _ h _ _ hs
  · exact .of_keys ((hq.ordered.link hother.ordered).mergeTrees hcmp) (keys_merge f g)
      (by simp [hq.length, hother.length])
  · exact ⟨rfl, rfl, trivial, fun _ hne => absurd rfl hne⟩

theorem wp_destroy {Q : Unit → Heap (Node T) → Prop} (hq : Represents cmp q f)
    (hs : Holds h [] (f.cells + F)) (hQ : ∀ h', Holds h' [] F → Q () h') :
    wp (destroy q) Q h := by
  simp only [destroy, wp_bind]
  apply hq.readRoot
  exact wp_remove hs fun h' hs' _ => hQ h' hs'

theorem destroy_stuck (hroot : ∀ p, q.root = some p → remove p h = none) :
    destroy q h = none := by
  obtain ⟨root, n, prior⟩ := q
  cases root with
  | none => rfl
  | some p =>
    rw [destroy, ← hroot p rfl]
    rfl

/-! ### Copying -/

theorem wp_copyRoot {Q : Option Ptr → Heap (Node T) → Prop} {root : Option Ptr}
    (hother : Represents cmp other g) (hroot : g = nil → root = some none)
    (hs : Holds h [] (g.cells + F))
    (hQ : ∀ (x : Forest T) h', x.Ordered cmp → x.keys = g.keys →
      Holds h' [] (x.cells + (g.cells + F)) → Q (some x.ptr) h') : wp (copyRoot root other) Q h := by
  by_cases hlen : other.length = 0
  · have hnil := hother.eq_nil_iff.mpr hlen
    rw [copyRoot, if_pos hlen, wp_pure, hroot hnil]
    apply hQ nil h trivial (by rw [hnil])
    exact hs.congr (by simp)
  · rw [copyRoot, if_neg hlen]
    simp only [wp_bind, wp_pure]
    apply hother.readRoot
    cases g with
    | nil => exact absurd (hother.eq_nil_iff.mp rfl) hlen
    | node b k d child next =>
      apply wp_deref (hs.congr unfold_node) 0 rfl
      apply wp_new hs
      intro a h hs
      apply copied _ rfl hs
      intro h x hx hforget hs
      have hkeys : x.keys = (node b k d child next).keys := by
        rw [← keys_forget, hforget, keys_forget]
      have hordered : x.Ordered cmp := by
        rw [← ordered_forget, hforget, ordered_forget]
        exact hother.ordered
      rw [← hx]
      exact hQ x h hordered hkeys hs

/-- The empty queue is not copied. -/
theorem wp_createCopy {Q : PriorityQueue → Heap (Node T) → Prop} (hother : Represents cmp other g)
    (hne : other.length ≠ 0) (hs : Holds h [] (g.cells + F))
    (hQ : ∀ q' x h', Represents cmp q' x → x.keys = g.keys →
      Holds h' [] (x.cells + (g.cells + F)) → Q q' h') : wp (createCopy other) Q h := by
  simp only [createCopy, wp_bind, wp_pure]
  apply wp_copyRoot hother (fun hnil => absurd (hother.eq_nil_iff.mp hnil) hne) hs
  intro x h hordered hkeys hs
  exact hQ _ x h (.of_keys hordered hkeys hother.length) hkeys hs

theorem wp_assignFrom {Q : PriorityQueue → Heap (Node T) → Prop} (hq : Represents cmp q f)
    (hother : Represents cmp other g) (hne : other.length ≠ 0 ∨ q.length = 0)
    (hs : Holds h [] (f.cells + (g.cells + F)))
    (hQ : ∀ q' x h', Represents cmp q' x → x.keys = g.keys →
      Holds h' [] (x.cells + (g.cells + F)) → Q q' h') : wp (assignFrom q other) Q h := by
  simp only [assignFrom, wp_bind, wp_pure]
  apply hq.readRoot
  apply wp_remove hs
  intro h hs _
  have hroot : g = nil → q.root = some none := by
    intro hnil
    have hf := hq.eq_nil_iff.mpr (hne.resolve_left (not_not_intro (hother.eq_nil_iff.mp hnil)))
    rw [hq.root, hf, ptr_nil]
  apply wp_copyRoot hother hroot hs
  intro x h hordered hkeys hs
  exact hQ _ x h (.of_keys hordered hkeys hother.length) hkeys hs

/-- The copy of an empty queue has no root. -/
theorem createCopy_empty (hother : other.length = 0) :
    createCopy other h = some (⟨none, 0, none⟩, h) := by
  simp only [createCopy, copyRoot, hother]
  rfl

/-- An empty queue leaves the root of the other one where it was. -/
theorem wp_assignFrom_empty {Q : PriorityQueue → Heap (Node T) → Prop}
    (hq : Represents cmp q f) (hne : q.length ≠ 0) (hother : other.length = 0)
    (hs : Holds h [] (f.cells + F))
    (hQ : ∀ a h', h'.cells a = none → Q ⟨some (some a), 0, none⟩ h') :
    wp (assignFrom q other) Q h := by
  simp only [assignFrom, copyRoot, hother, if_pos, wp_bind, wp_pure]
  apply hq.readRoot
  apply wp_remove hs
  intro h' _ hfreed
  rw [hq.root]
  cases f with
  | nil => exact absurd (hq.eq_nil_iff.mp rfl) hne
  | node a k d child next => exact hQ a h' (hfreed a rfl)

/-! ### Greatest elements -/

theorem wp_top {Q : Except Exception T × PriorityQueue → Heap (Node T) → Prop}
    (hcmp : StrictWeak cmp) (hq : Represents cmp q f) (hne : q.length ≠ 0)
    (hs : Holds h [] (f.cells + F))
    (hQ : ∀ t q', t ∈ f.keys → Tops cmp t f.keys → Represents cmp q' f → Q (.ok t, q') h) :
    wp (top cmp q) Q h := by
  obtain ⟨rs, rfl⟩ := exists_eq_ofRoots f
  have hmem : ∀ c ∈ (ofRoots rs).cells, h.cells c.1 = some c.2 := by
    intro c hc
    exact hs.cells_of_mem (Multiset.mem_add.mpr (.inl hc))
  have hnil := hq.eq_nil_iff.not.mpr hne
  have hrs : rs ≠ [] := by
    rintro rfl
    exact hnil ofRoots_nil
  rw [top, if_neg hne]
  by_cases hp : q.prior = none
  · obtain ⟨root, tail, rfl⟩ := List.exists_cons_of_ne_nil hrs
    rw [if_neg (not_not_intro hp)]
    simp only [wp_bind, wp_pure]
    apply hq.readRoot
    apply wp_deref_of_cells (hmem _ (mem_cells_of_getElem? (i := 0) rfl))
    apply wp_topLoop hcmp hmem
    intro t prior hfrom _ hall
    have htops : Tops cmp t (ofRoots (root :: tail)).keys := hq.ordered.tops hcmp hall
    rcases hfrom with ⟨rfl, rfl⟩ | ⟨r, hr, rfl, rfl⟩
    · exact hQ _ _ (key_mem List.mem_cons_self) htops hq
    · refine hQ _ _ (key_mem hr) htops ⟨hq.root, hq.length, hq.ordered, fun p _ hp => ?_⟩
      exact ⟨r, by rwa [roots_ofRoots], Option.some.inj hp, htops⟩
  · rw [if_pos hp]
    obtain ⟨p, hp⟩ := Option.ne_none_iff_exists'.mp hp
    obtain ⟨r, hr, rfl, htops⟩ := hq.prior p hnil hp
    rw [roots_ofRoots] at hr
    obtain ⟨i, hi⟩ := List.mem_iff_getElem?.mp hr
    simp only [wp_bind, wp_pure, hp]
    apply wp_deref_of_cells (hmem _ (mem_cells_of_getElem? hi))
    exact hQ r.key q (key_mem hr) htops hq

theorem keys_pop (l : List (Root T)) (m : Root T) (s : List (Root T)) :
    (ofRoots (l ++ m :: s)).keys =
      m.key ::ₘ (Forest.adopt cmp (ofRoots (l ++ s)) m.child).keys := by
  rw [keys_adopt, keys_append, keys_append, ofRoots_cons]
  simp only [keys, ← Multiset.singleton_add]
  abel

/-- The tree whose children stay is the first of the greatest. -/
theorem wp_pop {Q : Except Exception Unit × PriorityQueue → Heap (Node T) → Prop}
    (hcmp : StrictWeak cmp) (hq : Represents cmp q f) (hne : q.length ≠ 0)
    (hs : Holds h [] (f.cells + F))
    (hQ : ∀ l m s q' h', f = ofRoots (l ++ m :: s) → Tops cmp m.key f.keys →
      (∀ r ∈ l, cmp r.key m.key = true) →
      Represents cmp q' (Forest.adopt cmp (ofRoots (l ++ s)) m.child) →
      Holds h' [] ((Forest.adopt cmp (ofRoots (l ++ s)) m.child).cells + F) → Q (.ok (), q') h') :
    wp (pop cmp q) Q h := by
  obtain ⟨rs, rfl⟩ := exists_eq_ofRoots f
  have hrs : rs ≠ [] := by
    rintro rfl
    exact hne (hq.eq_nil_iff.mp ofRoots_nil)
  rw [pop, if_neg hne]
  simp only [wp_bind, wp_pure]
  apply hq.readRoot
  apply wp_detach hcmp hrs hs
  intro h₁ l m s p hm hfirst hs₁
  obtain ⟨rfl, hmax⟩ := hm
  dsimp only
  apply wp_deref hs₁ 0 rfl
  have hs' : Holds h₁ [] ((ofRoots (l ++ s)).cells + (m.child.cells +
      ({(m.addr, ⟨m.key, m.degree, m.child.ptr, p⟩)} + F))) := by
    apply hs₁.congr
    simp only [← Multiset.cons_coe, ← Multiset.singleton_add, Multiset.coe_nil]
    abel
  apply wp_adopt hs'
  intro h hs
  have hs'' : Holds h [(m.addr, ⟨m.key, m.degree, m.child.ptr, p⟩)]
      ((Forest.adopt cmp (ofRoots (l ++ s)) m.child).cells + F) := by
    apply hs.congr
    simp only [← Multiset.cons_coe, ← Multiset.singleton_add, Multiset.coe_nil]
    abel
  apply wp_delete hs'' 0 rfl
  intro h hs
  obtain ⟨hl, -, hchild, hrest⟩ := ordered_append.mp hq.ordered
  have hordered := (ordered_append.mpr ⟨hl, hrest⟩).adopt hcmp hchild
  apply hQ l m s _ h rfl (hq.ordered.tops hcmp hmax) hfirst _ hs
  refine .of_keys hordered rfl ?_
  rw [hq.length, @keys_pop T cmp l m s, Multiset.card_cons, Nat.add_sub_cancel]

end Course.Stl.PriorityQueue
