import Course.Stl.Linking

/-! What the copying functions of the priority queue make of its trees, and which
trees its searches find. -/

open Course.Lib Heap

namespace Course.Stl.PriorityQueue

open Forest

variable {T : Type} {cmp : T → T → Bool} {h : Heap (Node T)} {l : List (ℕ × Node T)}
  {F : Multiset (ℕ × Node T)} {a b i j : ℕ} {f : Forest T} {rs : List (Root T)}

/-! ### Copies -/

/-- What `copy` does with the forest `f`, for a new node at `a`. -/
def Copied (f : Forest T) : Prop :=
  ∀ {a b : ℕ} {k : T} {d : ℕ} {child next : Forest T} {h : Heap (Node T)}
    {F : Multiset (ℕ × Node T)} {Q : Unit → Heap (Node T) → Prop}, f = node b k d child next →
    Holds h [(a, ⟨k, d, none, none⟩)] (f.cells + F) →
    (∀ (h' : Heap (Node T)) (g : Forest T), g.ptr = some a → g.forget = f.forget →
      Holds h' [] (g.cells + (f.cells + F)) → Q () h') → wp (copy (some a) (some b)) Q h

theorem Copied.wp_link {Q : Unit → Heap (Node T) → Prop} {set : Ptr → Ptr → Prog (Node T) Unit}
    {m : Ptr → Node T} (hf : Copied f)
    (hset : ∀ {Q : Unit → Heap (Node T) → Prop} {h : Heap (Node T)} {F : Multiset (ℕ × Node T)}
      (p : Ptr), Holds h [(a, m none)] F → (∀ h', Holds h' [(a, m p)] F → Q () h') →
        wp (set (some a) p) Q h)
    (hs : Holds h [(a, m none)] (f.cells + F))
    (hQ : ∀ (h' : Heap (Node T)) (g : Forest T), g.forget = f.forget →
      Holds h' [(a, m g.ptr)] (g.cells + (f.cells + F)) → Q () h') :
    wp (if f.ptr = none then pure () else do
      let n ← new (← deref f.ptr).createCopy
      set (some a) (some n)
      copy (some n) f.ptr) Q h := by
  cases f with
  | nil =>
    rw [if_pos ptr_nil, wp_pure]
    exact hQ h nil rfl (hs.congr (by simp))
  | node b k d child next =>
    rw [if_neg (by simp)]
    simp only [wp_bind]
    apply wp_deref (hs.congr unfold_node) 0 rfl
    apply wp_new hs
    intro n h hs
    have hs' : Holds h [(a, m none)] ({(n, ⟨k, d, none, none⟩)} +
        ((node b k d child next).cells + F)) := by
      apply hs.congr
      simp only [Node.createCopy, ← Multiset.cons_coe, ← Multiset.singleton_add]
      abel
    apply hset (some n) hs'
    intro h hs
    have hs'' : Holds h [(n, ⟨k, d, none, none⟩)] ((node b k d child next).cells +
        ({(a, m (some n))} + F)) := by
      apply hs.congr
      simp only [← Multiset.cons_coe, ← Multiset.singleton_add]
      abel
    apply hf rfl hs''
    intro h' g hg hforget hs
    apply hQ h' g hforget
    apply hs.congr
    simp only [hg, ← Multiset.cons_coe, ← Multiset.singleton_add]
    abel

theorem copied (f : Forest T) : Copied f := by
  induction f with
  | nil =>
    intro a b k d child next h F Q hf
    cases hf
  | node b k d child next hchild hnext =>
    intro a b k d child next h F Q hf hs hQ
    cases hf
    rw [copy]
    simp only [wp_bind]
    have hs' : Holds h [(b, ⟨k, d, child.ptr, next.ptr⟩), (a, ⟨k, d, none, none⟩)]
        (child.cells + (next.cells + F)) := by
      apply hs.congr
      simp only [Forest.cells, ← Multiset.cons_coe, ← Multiset.singleton_add]
      abel
    apply wp_deref hs' 0 rfl
    have hs'' : Holds h [(a, ⟨k, d, none, none⟩)] (child.cells +
        ({(b, ⟨k, d, child.ptr, next.ptr⟩)} + (next.cells + F))) := by
      apply hs.congr
      simp only [Forest.cells, ← Multiset.cons_coe, ← Multiset.singleton_add]
      abel
    apply hchild.wp_link (m := fun p => ⟨k, d, p, none⟩)
      (fun p hs hQ => wp_setChild hs 0 rfl hQ) hs''
    intro h x hx hs
    have hs' : Holds h [(a, ⟨k, d, x.ptr, none⟩)] (next.cells +
        (x.cells + (child.cells + ({(b, ⟨k, d, child.ptr, next.ptr⟩)} + F)))) := by
      apply hs.congr
      abel
    apply hnext.wp_link (m := fun p => ⟨k, d, x.ptr, p⟩)
      (fun p hs hQ => wp_setNext hs 0 rfl hQ) hs'
    intro h y hy hs
    apply hQ h (node a k d x y) rfl
    · rw [forget, forget, hx, hy]
    apply hs.congr
    simp only [Forest.cells, ← Multiset.cons_coe, ← Multiset.singleton_add, Multiset.coe_nil]
    abel

/-! ### Searches -/

section Searches

variable (hcmp : StrictWeak cmp) (hmem : ∀ c ∈ (ofRoots rs).cells, h.cells c.1 = some c.2)

include hcmp hmem

theorem wp_topLoop {Q : T × Ptr → Heap (Node T) → Prop} {t : T} {prior : Ptr}
    (hQ : ∀ t' prior', (t' = t ∧ prior' = prior) ∨ (∃ r ∈ rs, t' = r.key ∧ prior' = some r.addr) →
      cmp t' t = false → (∀ r ∈ rs, cmp t' r.key = false) → Q (t', prior') h) :
    wp (topLoop cmp t prior (ofRoots rs).ptr) Q h := by
  induction rs generalizing t prior with
  | nil =>
    rw [topLoop, ofRoots_nil, if_pos ptr_nil, wp_pure]
    exact hQ t prior (.inl ⟨rfl, rfl⟩) (hcmp.irrefl t) (fun r hr => absurd hr List.not_mem_nil)
  | cons r rs ih =>
    have hr := hmem _ (mem_cells_of_getElem? (i := 0) rfl)
    have hrs : ∀ c ∈ (ofRoots rs).cells, h.cells c.1 = some c.2 := by
      intro c hc
      exact hmem c (Multiset.mem_add.mpr (.inr (Multiset.mem_add.mpr (.inr hc))))
    have hnext : ((r :: rs)[1]?.map Root.addr) = (ofRoots rs).ptr := by
      rw [ptr_follow, List.getElem?_cons_succ, List.head?_eq_getElem?, ptr_nil, Option.or_none]
    rw [topLoop, ofRoots_cons, ptr_node, if_neg (Option.some_ne_none _), wp_bind]
    apply wp_deref_of_cells hr
    rw [zero_add, hnext]
    by_cases hlt : cmp t r.key = true
    · rw [if_pos hlt]
      apply ih hrs
      intro t' prior' hfrom ht' hall
      refine hQ t' prior' (.inr ?_) (hcmp.ge_trans ht' (hcmp.asymm hlt)) ?_
      · rcases hfrom with ⟨rfl, rfl⟩ | ⟨s, hs, hst⟩
        · exact ⟨r, List.mem_cons_self, rfl, rfl⟩
        · exact ⟨s, List.mem_cons_of_mem r hs, hst⟩
      · exact List.forall_mem_cons.mpr ⟨ht', hall⟩
    · rw [if_neg hlt]
      apply ih hrs
      intro t' prior' hfrom ht' hall
      refine hQ t' prior' (hfrom.imp_right ?_) ht' ?_
      · rintro ⟨s, hs, hst⟩
        exact ⟨s, List.mem_cons_of_mem r hs, hst⟩
      · have hge := hcmp.ge_trans ht' (Bool.eq_false_iff.mpr hlt)
        exact List.forall_mem_cons.mpr ⟨hge, hall⟩

/-- No tree but the first exceeds the one after the result, which exceeds those
before it. -/
theorem wp_findPrev {Q : Ptr → Heap (Node T) → Prop} {r s : Root T} (hi : rs[i]? = some r)
    (hj : rs[j]? = some s) (hij : i < j ∨ i = 0 ∧ j = 0)
    (hmax : ∀ m, rs[i + 1]? = some m → ∀ k x, 1 ≤ k → k ≤ j → rs[k]? = some x →
      cmp m.key x.key = false)
    (hfirst : ∀ m, rs[i + 1]? = some m → ∀ k x, 1 ≤ k → k ≤ i → rs[k]? = some x →
      cmp x.key m.key = true)
    (hQ : ∀ i r, rs[i]? = some r → (rs[i + 1]? = none → rs.length = 1) →
      (∀ m, rs[i + 1]? = some m → ∀ k x, 1 ≤ k → rs[k]? = some x → cmp m.key x.key = false) →
      (∀ m, rs[i + 1]? = some m → ∀ k x, 1 ≤ k → k ≤ i → rs[k]? = some x →
        cmp x.key m.key = true) →
      Q (some r.addr) h) : wp (findPrev cmp (some r.addr) (some s.addr)) Q h := by
  induction hd : rs.length - j using Nat.strongRecOn generalizing i j r s with
  | ind d ih =>
    rw [findPrev]
    simp only [wp_bind]
    apply wp_deref_of_cells (hmem _ (mem_cells_of_getElem? hj))
    have hjlt := (List.getElem?_eq_some_iff.mp hj).1
    cases hx : rs[j + 1]? with
    | none =>
      rw [Option.map_none, if_pos rfl, wp_pure]
      have hlen := List.getElem?_eq_none_iff.mp hx
      apply hQ i r hi
      · intro hnone
        have := List.getElem?_eq_none_iff.mp hnone
        omega
      · intro m hm k x hk hkx
        have hklt := (List.getElem?_eq_some_iff.mp hkx).1
        exact hmax m hm k x hk (by omega) hkx
      · exact hfirst
    | some x =>
      have hxlt := (List.getElem?_eq_some_iff.mp hx).1
      obtain ⟨m, hm⟩ : ∃ m, rs[i + 1]? = some m :=
        ⟨rs[i + 1], List.getElem?_eq_getElem (by omega)⟩
      rw [Option.map_some, if_neg (Option.some_ne_none _), wp_bind]
      apply wp_deref_of_cells (hmem _ (mem_cells_of_getElem? hi))
      rw [hm, Option.map_some, wp_bind]
      apply wp_deref_of_cells (hmem _ (mem_cells_of_getElem? hm))
      rw [wp_bind]
      apply wp_deref_of_cells (hmem _ (mem_cells_of_getElem? hx))
      by_cases hlt : cmp m.key x.key = true
      · rw [if_pos hlt]
        apply ih (rs.length - (j + 1)) (by omega) hj hx (.inl (Nat.lt_succ_self j)) _ _ rfl
        · intro x' hx' k y hk hkj hy
          obtain rfl : x = x' := by simpa [hx] using hx'
          rcases Nat.lt_or_eq_of_le hkj with hkj | rfl
          · exact hcmp.ge_trans (hcmp.asymm hlt) (hmax m hm k y hk (by omega) hy)
          · obtain rfl : x = y := by simpa [hx] using hy
            exact hcmp.irrefl _
        · intro x' hx' k y hk hkj hy
          obtain rfl : x = x' := by simpa [hx] using hx'
          exact hcmp.lt_of_ge_of_lt (hmax m hm k y hk hkj hy) hlt
      · rw [if_neg hlt]
        apply ih (rs.length - (j + 1)) (by omega) hi hx (.inl (by omega)) _ hfirst rfl
        intro m' hm' k y hk hkj hy
        obtain rfl : m = m' := by simpa [hm] using hm'
        rcases Nat.lt_or_eq_of_le hkj with hkj | rfl
        · exact hmax m hm k y hk (by omega) hy
        · obtain rfl : x = y := by simpa [hx] using hy
          exact Bool.eq_false_iff.mpr hlt

end Searches

/-- One tree of the list apart from the others, as `detach` leaves it. -/
structure Detached (cmp : T → T → Bool) (rs : List (Root T)) (l : List (Root T)) (m : Root T)
    (s : List (Root T)) : Prop where
  eq : rs = l ++ m :: s
  tops : ∀ r ∈ rs, cmp m.key r.key = false

theorem exists_eq_append {α : Type} {l : List α} {i : ℕ} {x y : α} (hx : l[i]? = some x)
    (hy : l[i + 1]? = some y) : ∃ l₁ l₂, l = l₁ ++ x :: y :: l₂ ∧ l₁.length = i := by
  obtain ⟨hlt, rfl⟩ := List.getElem?_eq_some_iff.mp hx
  obtain ⟨hlt', rfl⟩ := List.getElem?_eq_some_iff.mp hy
  refine ⟨l.take i, l.drop (i + 2), ?_, List.length_take_of_le (Nat.le_of_lt hlt)⟩
  rw [← List.drop_eq_getElem_cons hlt', ← List.drop_eq_getElem_cons hlt, List.take_append_drop]

theorem wp_unlink {Q : Unit → Heap (Node T) → Prop} {l s : List (Root T)} {r m : Root T}
    (hs : Holds h [] ((ofRoots (l ++ r :: m :: s)).cells + F))
    (hQ : ∀ h' p, Holds h' [(m.addr, ⟨m.key, m.degree, m.child.ptr, p⟩)]
      (m.child.cells + ((ofRoots (l ++ r :: s)).cells + F)) → Q () h') :
    wp (setNext (some r.addr) (ofRoots s).ptr) Q h := by
  have hs' : Holds h [(r.addr, ⟨r.key, r.degree, r.child.ptr, some m.addr⟩),
      (m.addr, ⟨m.key, m.degree, m.child.ptr, (ofRoots s).ptr⟩)] (m.child.cells +
        (before (some r.addr) l + (r.child.cells + ((ofRoots s).cells + F)))) := by
    apply hs.congr
    rw [cells_append]
    simp only [ofRoots_cons, Forest.cells, ptr_node, ← Multiset.cons_coe,
      ← Multiset.singleton_add, Multiset.coe_nil]
    abel
  apply wp_setNext hs' 0 rfl
  intro h' hs
  apply hQ h' (ofRoots s).ptr
  apply hs.congr
  rw [cells_append]
  simp only [List.set_cons_zero, ofRoots_cons, Forest.cells, ptr_node, ← Multiset.cons_coe,
    ← Multiset.singleton_add]
  abel

theorem wp_detach {Q : Ptr × Ptr → Heap (Node T) → Prop} (hcmp : StrictWeak cmp) (hne : rs ≠ [])
    (hs : Holds h [] ((ofRoots rs).cells + F))
    (hQ : ∀ h' l m s p, Detached cmp rs l m s → (∀ r ∈ l, cmp r.key m.key = true) →
      Holds h' [(m.addr, ⟨m.key, m.degree, m.child.ptr, p⟩)]
        (m.child.cells + ((ofRoots (l ++ s)).cells + F)) →
      Q (some m.addr, (ofRoots (l ++ s)).ptr) h') :
    wp (findPrev cmp (ofRoots rs).ptr (ofRoots rs).ptr)
      (fun prev => wp (detach cmp (ofRoots rs).ptr prev) Q) h := by
  have hmem : ∀ c ∈ (ofRoots rs).cells, h.cells c.1 = some c.2 := by
    intro c hc
    exact hs.cells_of_mem (Multiset.mem_add.mpr (.inl hc))
  obtain ⟨root, tail, rfl⟩ := List.exists_cons_of_ne_nil hne
  rw [ofRoots_cons, ptr_node]
  have hroot : (root :: tail)[0]? = some root := rfl
  apply wp_findPrev hcmp hmem hroot hroot (.inr ⟨rfl, rfl⟩)
  · intro m _ k x hk hk0
    omega
  · intro m _ k x hk hk0
    omega
  intro i r hi hlast hmax hfirstMax
  simp only [detach, wp_bind]
  apply wp_deref_of_cells (hmem _ (mem_cells_of_getElem? hi))
  -- the first tree is removed unless the tree found exceeds it
  have hfirst : (∀ m, (root :: tail)[i + 1]? = some m → cmp root.key m.key = false) →
      wp (do return (some root.addr, (← deref (some root.addr)).next)) Q h := by
    intro hge
    simp only [wp_bind, wp_pure]
    have hs' := hs.congr unfold_node
    apply wp_deref hs' 0 rfl
    have hdetached : Detached cmp (root :: tail) [] root tail := by
      refine ⟨rfl, fun x hx => ?_⟩
      obtain ⟨k, hk⟩ := List.mem_iff_getElem?.mp hx
      cases k with
      | zero =>
        obtain rfl : root = x := by simpa using hk
        exact hcmp.irrefl _
      | succ k =>
        cases hm : (root :: tail)[i + 1]? with
        | none =>
          have hlen := hlast hm
          have hklt := (List.getElem?_eq_some_iff.mp hk).1
          omega
        | some m => exact hcmp.ge_trans (hge m hm) (hmax m hm (k + 1) x (Nat.le_add_left ..) hk)
    exact hQ h [] root tail _ hdetached (fun r hr => absurd hr List.not_mem_nil) hs'
  cases hm : (root :: tail)[i + 1]? with
  | none =>
    rw [Option.map_none, isExceeded, if_pos rfl, wp_pure, if_neg Bool.false_ne_true]
    exact hfirst (by simp [hm])
  | some m =>
    rw [Option.map_some, isExceeded, if_neg (Option.some_ne_none _)]
    simp only [wp_bind, wp_pure]
    apply wp_deref_of_cells (hmem _ (mem_cells_of_getElem? hroot))
    apply wp_deref_of_cells (hmem _ (mem_cells_of_getElem? hm))
    by_cases hlt : cmp root.key m.key = true
    · obtain ⟨l, s, heq, hlen⟩ := exists_eq_append hi hm
      have hcell : (m.addr, (⟨m.key, m.degree, m.child.ptr, (ofRoots s).ptr⟩ : Node T)) ∈
          (ofRoots (root :: tail)).cells := by
        rw [heq, cells_append, ofRoots_cons, ofRoots_cons]
        simp [Forest.cells]
      have hptr : some root.addr = (ofRoots (l ++ r :: s)).ptr := by
        rw [← ptr_node root.addr root.key root.degree root.child (ofRoots tail), ← ofRoots_cons,
          heq, ptr_follow, ptr_follow]
        cases l <;> rfl
      have hdetached : Detached cmp (root :: tail) (l ++ [r]) m s := by
        refine ⟨by simp [heq], fun x hx => ?_⟩
        obtain ⟨k, hk⟩ := List.mem_iff_getElem?.mp hx
        cases k with
        | zero =>
          obtain rfl : root = x := by simpa using hk
          exact hcmp.asymm hlt
        | succ k => exact hmax m hm (k + 1) x (Nat.le_add_left ..) hk
      have hbefore : ∀ x ∈ l ++ [r], cmp x.key m.key = true := by
        intro x hx
        obtain ⟨k, hk⟩ := List.mem_iff_getElem?.mp hx
        have hki : k < i + 1 := by
          have hklt := (List.getElem?_eq_some_iff.mp hk).1
          rwa [List.length_append, hlen] at hklt
        have hkx : (root :: tail)[k]? = some x := by
          rw [heq, List.append_cons, List.getElem?_append_left (by simpa [hlen] using hki), hk]
        cases k with
        | zero =>
          obtain rfl : root = x := by simpa using hkx
          exact hlt
        | succ k => exact hfirstMax m hm (k + 1) x (Nat.le_add_left ..) (by omega) hkx
      rw [if_pos hlt, wp_bind]
      apply wp_deref_of_cells (hmem _ hcell)
      rw [heq] at hs
      simp only [wp_bind, wp_pure]
      apply wp_unlink hs
      intro h' p hs
      rw [List.append_cons] at hptr hs
      rw [hptr]
      exact hQ h' (l ++ [r]) m s p hdetached hbefore hs
    · rw [if_neg hlt]
      apply hfirst
      intro m' hm'
      obtain rfl : m = m' := by simpa [hm] using hm'
      exact Bool.eq_false_iff.mpr hlt

end Course.Stl.PriorityQueue
