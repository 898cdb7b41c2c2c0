import Course.Lib.StrictWeak
import Course.Stl.ListLoops
import Mathlib.Data.List.Perm.Basic

/-! The quicksort of the list. One node of the range is a hole, whose element is the
pivot or has been moved; the elements themselves stay where they are in memory. -/

open Course.Lib Heap HeapRing

namespace Course.Stl.LinkedList

variable {T : Type} {h : Heap (Cell T)} {F : Multiset (ℕ × Cell T)} {s d : ℕ} {pv : T}
  {A B M : List (Item T)} {e z : Item T} {lt : T → T → Bool}

namespace Item

/-- The node of `z` with the element of `e`. -/
def fill (z e : Item T) : Item T := ⟨z.addr, e.data, e.val⟩

/-- The element, with its address. -/
def content (e : Item T) : ℕ × T := (e.data, e.val)

@[simp] theorem fill_addr : (z.fill e).addr = z.addr := rfl

@[simp] theorem fill_val : (z.fill e).val = e.val := rfl

@[simp] theorem fill_content : (z.fill e).content = e.content := rfl

end Item

/-- The elements of a range are in memory. -/
def Stored (F : Multiset (ℕ × Cell T)) (g : List (Item T)) : Prop :=
  ∀ e ∈ g, (e.data, .object e.val) ∈ F

theorem Stored.of_perm {g g' : List (Item T)} (hg : Stored F g)
    (hperm : (g'.map Item.content).Perm (g.map Item.content)) : Stored F g' := by
  intro e he
  obtain ⟨e', he', heq⟩ :=
    List.mem_map.mp (hperm.subset (List.mem_map_of_mem (f := Item.content) he))
  have hmem := hg e' he'
  obtain ⟨hdata, hval⟩ := Prod.mk.inj heq
  rwa [hdata, hval] at hmem

theorem values_perm {g g' : List (Item T)}
    (hperm : (g'.map Item.content).Perm (g.map Item.content)) :
    (values g').Perm (values g) := by
  have hvalues := hperm.map Prod.snd
  rwa [List.map_map, List.map_map] at hvalues

theorem addr_ne_of_mem (hs : Holds h [] (nodes s (A ++ z :: (M ++ B)) + F)) (he : e ∈ M) :
    z.addr ≠ e.addr := by
  have hnodup := addrs_nodup hs
  simp only [List.map_append, List.map_cons, List.nodup_cons, List.nodup_append] at hnodup
  have hmem : e.addr ∈ M.map Item.addr := List.mem_map_of_mem he
  grind

theorem addr_ne_head (hs : Holds h [] (nodes s (A ++ z :: (M ++ B)) + F)) :
    z.addr ≠ head s (chain B) := by
  cases B with
  | nil => exact addr_ne hs
  | cons b B =>
    have hs' : Holds h [] (nodes s (A ++ z :: ((M ++ [b]) ++ B)) + F) := by simpa using hs
    exact addr_ne_of_mem hs' (by simp)

theorem wp_fill {Q : Unit → Heap (Cell T) → Prop}
    (hs : Holds h [] (nodes s (A ++ z :: B) + F))
    (hQ : ∀ h', Holds h' [] (nodes s (A ++ z.fill e :: B) + F) → Q () h') :
    wp (setData (some z.addr) (some e.data)) Q h :=
  wp_setData_nodes e.data e.val hs hQ

theorem wp_readNode_nodes {Q : Node → Heap (Cell T) → Prop}
    (hs : Holds h [] (nodes s (A ++ e :: B) + F))
    (hQ : Q ⟨some e.data, some (last s (chain A)), some (head s (chain B))⟩ h) :
    wp (readNode (some e.addr)) Q h :=
  wp_readNode_of_mem hs (Multiset.mem_add.mpr (.inl (mem_node s A e B))) hQ

/-- From the right to an element that is less than the pivot. -/
theorem wp_sortDown {Q : Ptr × Ptr → Heap (Cell T) → Prop}
    (hs : Holds h [] (nodes s (A ++ z :: (M ++ B)) + F)) (hM : Stored F M)
    (hd : (d, .object pv) ∈ F)
    (hnone : (∀ e ∈ M, lt e.val pv = false) → Q (some z.addr, some z.addr) h)
    (hsome : ∀ h' M₁ y M₂, M = M₁ ++ y :: M₂ → lt y.val pv = true →
      (∀ e ∈ M₂, lt e.val pv = false) →
      Holds h' [] (nodes s (A ++ z.fill y :: (M ++ B)) + F) →
      Q (some (head y.addr (chain M₁)), some y.addr) h') :
    wp (sortDown lt (some z.addr) (some (last z.addr (chain M))) (some d)) Q h := by
  induction M using List.reverseRecOn generalizing B with
  | nil =>
    rw [sortDown, chain_nil, last_nil, if_pos rfl, wp_pure]
    exact hnone (by simp)
  | append_singleton M y ih =>
    have hlast : last z.addr (chain (M ++ [y])) = y.addr := by simp
    have hne : z.addr ≠ y.addr := addr_ne_of_mem hs (by simp)
    have hlist : A ++ z :: (M ++ [y] ++ B) = (A ++ z :: M) ++ y :: B := by simp
    have hs' : Holds h [] (nodes s ((A ++ z :: M) ++ y :: B) + F) := by rwa [← hlist]
    have hy : (y.data, .object y.val) ∈ nodes s ((A ++ z :: M) ++ y :: B) + F :=
      Multiset.mem_add.mpr (.inr (hM y (by simp)))
    rw [hlast, sortDown, if_neg (by simpa using hne)]
    simp only [wp_bind]
    apply wp_readNode_nodes hs'
    apply wp_readObject_of_mem hs' hy
    apply wp_readObject_of_mem hs' (Multiset.mem_add.mpr (.inr hd))
    by_cases hlt : lt y.val pv = true
    · rw [if_pos hlt]
      simp only [wp_bind, wp_pure]
      apply wp_readNode_nodes hs'
      apply wp_fill hs
      intro h' hs
      apply wp_readNode_nodes (e := z.fill y) hs
      have hq := hsome h' M y [] rfl hlt (by simp) hs
      simpa using hq
    · rw [if_neg hlt]
      simp only [wp_bind]
      apply wp_readNode_nodes hs'
      have hprev : last s (chain (A ++ z :: M)) = last z.addr (chain M) := by simp
      rw [hprev]
      apply ih (B := y :: B)
      · simpa using hs
      · exact fun e he => hM e (List.mem_append_left [y] he)
      · intro hge
        apply hnone
        intro e he
        rcases List.mem_append.mp he with he | he
        · exact hge e he
        · rw [List.mem_singleton.mp he]
          exact Bool.eq_false_iff.mpr hlt
      · rintro h' M₁ u M₂ rfl hu hge hs
        apply hsome h' M₁ u (M₂ ++ [y]) (by simp) hu
        · intro e he
          rcases List.mem_append.mp he with he | he
          · exact hge e he
          · rw [List.mem_singleton.mp he]
            exact Bool.eq_false_iff.mpr hlt
        · simpa using hs

/-- From the left to an element that is not less than the pivot. -/
theorem wp_sortUp {Q : Ptr × Ptr → Heap (Cell T) → Prop}
    (hs : Holds h [] (nodes s (A ++ (M ++ z :: B)) + F)) (hM : Stored F M)
    (hd : (d, .object pv) ∈ F)
    (hnone : (∀ e ∈ M, lt e.val pv = true) → Q (some z.addr, some z.addr) h)
    (hsome : ∀ h' M₁ y M₂, M = M₁ ++ y :: M₂ → lt y.val pv = false →
      (∀ e ∈ M₁, lt e.val pv = true) →
      Holds h' [] (nodes s (A ++ (M ++ z.fill y :: B)) + F) →
      Q (some y.addr, some (last y.addr (chain M₂))) h') :
    wp (sortUp lt (some (head z.addr (chain M))) (some z.addr) (some d)) Q h := by
  induction M generalizing A with
  | nil =>
    rw [sortUp, chain_nil, head_nil, if_pos rfl, wp_pure]
    exact hnone (by simp)
  | cons y M ih =>
    have hne : y.addr ≠ z.addr := by
      have hs' : Holds h [] (nodes s (A ++ y :: ((M ++ [z]) ++ B)) + F) := by simpa using hs
      exact addr_ne_of_mem hs' (by simp)
    have hs' : Holds h [] (nodes s ((A ++ y :: M) ++ z :: B) + F) := by simpa using hs
    have hy : (y.data, .object y.val) ∈ nodes s (A ++ (y :: M ++ z :: B)) + F :=
      Multiset.mem_add.mpr (.inr (hM y (by simp)))
    rw [List.cons_append] at hs
    rw [chain_cons, head_cons, sortUp, if_neg (by simpa using hne)]
    simp only [wp_bind]
    apply wp_readNode_nodes hs
    apply wp_readObject_of_mem hs hy
    apply wp_readObject_of_mem hs (Multiset.mem_add.mpr (.inr hd))
    by_cases hlt : lt y.val pv = true
    · rw [if_pos hlt]
      simp only [wp_bind]
      apply wp_readNode_nodes hs
      have hnext : head s (chain (M ++ z :: B)) = head z.addr (chain M) := by simp
      rw [hnext]
      apply ih (A := A ++ [y])
      · simpa using hs
      · exact fun e he => hM e (List.mem_cons_of_mem y he)
      · exact fun hl => hnone (List.forall_mem_cons.mpr ⟨hlt, hl⟩)
      · rintro h' M₁ u M₂ rfl hu hl hs
        apply hsome h' (y :: M₁) u M₂ rfl hu (List.forall_mem_cons.mpr ⟨hlt, hl⟩)
        simpa using hs
    · rw [if_neg hlt]
      simp only [wp_bind, wp_pure]
      apply wp_readNode_nodes hs
      apply wp_fill hs'
      intro h' hs
      apply wp_readNode_nodes (e := z.fill y) hs
      have hq := hsome h' [] y M rfl (Bool.eq_false_iff.mpr hlt) (by simp) (by simpa using hs)
      simpa using hq

/-- What the outer loop does to a hole `z` and the range `M` after it: `X` and `Y` are the
ranges before and after the hole where the loop ends. -/
structure Parted (lt : T → T → Bool) (pv : T) (z : Item T) (M X : List (Item T)) (w : Item T)
    (Y : List (Item T)) : Prop where
  addrs : (X ++ w :: Y).map Item.addr = (z :: M).map Item.addr
  contents : ((X ++ Y).map Item.content).Perm (M.map Item.content)
  less : ∀ e ∈ X, lt e.val pv = true
  ge : ∀ e ∈ Y, lt e.val pv = false

theorem Parted.of_ge (hM : ∀ e ∈ M, lt e.val pv = false) : Parted lt pv z M [] z M :=
  ⟨rfl, .rfl, by simp, hM⟩

theorem Parted.of_less {M₁ M₂ : List (Item T)} {y : Item T} (hy : lt y.val pv = true)
    (h₁ : ∀ e ∈ M₁, lt e.val pv = true) (h₂ : ∀ e ∈ M₂, lt e.val pv = false) :
    Parted lt pv z (M₁ ++ y :: M₂) (z.fill y :: M₁) y M₂ := by
  refine ⟨by simp, ?_, List.forall_mem_cons.mpr ⟨hy, h₁⟩, h₂⟩
  simp only [List.cons_append, List.map_cons, List.map_append, Item.fill_content]
  exact List.perm_middle.symm

theorem Parted.step {N₁ N₂ M₂ X Y : List (Item T)} {u w y : Item T} (hy : lt y.val pv = true)
    (h₁ : ∀ e ∈ N₁, lt e.val pv = true) (hu : lt u.val pv = false)
    (h₂ : ∀ e ∈ M₂, lt e.val pv = false) (hp : Parted lt pv u N₂ X w Y) :
    Parted lt pv z (N₁ ++ u :: N₂ ++ y :: M₂) (z.fill y :: (N₁ ++ X)) w
      (Y ++ y.fill u :: M₂) := by
  constructor
  · have haddrs := congrArg (· ++ (y :: M₂).map Item.addr) hp.addrs
    simpa using haddrs
  · have hcontents := Multiset.coe_eq_coe.mpr hp.contents
    apply Multiset.coe_eq_coe.mp
    simp only [List.map_append, List.map_cons, List.cons_append, Item.fill_content,
      ← Multiset.coe_add, ← Multiset.cons_coe, ← Multiset.singleton_add] at hcontents ⊢
    rw [← hcontents]
    abel
  · intro e he
    simp only [List.mem_cons, List.mem_append] at he
    rcases he with rfl | he | he
    · exact hy
    · exact h₁ e he
    · exact hp.less e he
  · intro e he
    simp only [List.mem_cons, List.mem_append] at he
    rcases he with he | rfl | he
    · exact hp.ge e he
    · exact hu
    · exact h₂ e he

theorem wp_sortLoop {Q : Ptr → Heap (Cell T) → Prop}
    (hs : Holds h [] (nodes s (A ++ z :: (M ++ B)) + F)) (hM : Stored F M)
    (hd : (d, .object pv) ∈ F)
    (hQ : ∀ h' X w Y, Parted lt pv z M X w Y →
      Holds h' [] (nodes s (A ++ (X ++ w :: (Y ++ B))) + F) → Q (some w.addr) h') :
    wp (sortLoop lt (some z.addr) (some (last z.addr (chain M))) (some d)) Q h := by
  induction hn : M.length using Nat.strong_induction_on generalizing h A z M B with
  | _ n ih =>
    -- where one of the inner loops ends with `i` and `j` the same, so does this one
    have hstop : ∀ {h X w Y}, Parted lt pv z M X w Y →
        Holds h [] (nodes s (A ++ (X ++ w :: (Y ++ B))) + F) →
        wp (sortLoop lt (some w.addr) (some w.addr) (some d)) Q h := by
      intro h X w Y hp hs
      rw [sortLoop, if_pos rfl, wp_pure]
      exact hQ h X w Y hp hs
    rcases List.eq_nil_or_concat M with rfl | ⟨M', x, rfl⟩
    · exact hstop (Parted.of_ge (by simp)) hs
    · rw [List.concat_eq_append] at *
      have hne : some z.addr ≠ some x.addr := by
        simpa using addr_ne_of_mem (e := x) hs (by simp)
      rw [sortLoop, if_neg (by simpa using hne)]
      simp only [wp_bind]
      apply wp_sortDown hs hM hd
      · intro hge
        rw [sortUp, if_pos rfl, wp_pure]
        exact hstop (Parted.of_ge hge) hs
      · intro h M₁ y M₂ hM' hy hge hs
        have hs' : Holds h [] (nodes s ((A ++ [z.fill y]) ++ (M₁ ++ y :: (M₂ ++ B))) + F) := by
          simpa [hM'] using hs
        have hM₁ : Stored F M₁ := fun e he => hM e (by simp [hM', he])
        apply wp_sortUp hs' hM₁ hd
        · intro hless
          apply hstop (hM' ▸ Parted.of_less hy hless hge)
          simpa using hs'
        · rintro h N₁ u N₂ rfl hu hless hs
          have hs'' : Holds h [] (nodes s ((A ++ z.fill y :: N₁) ++ u :: (N₂ ++
              (y.fill u :: (M₂ ++ B)))) + F) := by simpa using hs
          have hN₂ : Stored F N₂ := fun e he => hM₁ e (by simp [he])
          apply ih N₂.length _ hs'' hN₂ _ rfl
          · rw [← hn, hM']
            simp only [List.length_append, List.length_cons]
            omega
          · intro h' X w Y hp hs
            apply hQ h' (z.fill y :: (N₁ ++ X)) w (Y ++ y.fill u :: M₂)
            · rw [hM']
              exact Parted.step hy hless hu hge hp
            · simpa using hs

/-- What sorting does to a range. -/
structure Sorted (lt : T → T → Bool) (M M' : List (Item T)) : Prop where
  addrs : M'.map Item.addr = M.map Item.addr
  contents : (M'.map Item.content).Perm (M.map Item.content)
  pairwise : (values M').Pairwise fun x y => lt y x = false

/-- The sorted parts around the pivot. -/
theorem Sorted.of_parted (hlt : StrictWeak lt) {X X' Y Y' : List (Item T)} {w : Item T}
    (hp : Parted lt e.val e M X w Y) (hX : Sorted lt X X') (hY : Sorted lt Y Y') :
    Sorted lt (e :: M) (X' ++ w.fill e :: Y') := by
  have hless : ∀ x ∈ values X', lt x e.val = true := fun x hx => by
    obtain ⟨x', hx', rfl⟩ := List.mem_map.mp ((values_perm hX.contents).subset hx)
    exact hp.less x' hx'
  have hge : ∀ y ∈ values Y', lt y e.val = false := fun y hy => by
    obtain ⟨y', hy', rfl⟩ := List.mem_map.mp ((values_perm hY.contents).subset hy)
    exact hp.ge y' hy'
  constructor
  · rw [← hp.addrs, List.map_append, List.map_append, List.map_cons, List.map_cons, hX.addrs,
      hY.addrs, Item.fill_addr]
  · have hcontents := hp.contents
    rw [List.map_append] at hcontents
    rw [List.map_append, List.map_cons, List.map_cons, Item.fill_content]
    exact List.perm_middle.trans (((hX.contents.append hY.contents).trans hcontents).cons _)
  · rw [values_append, values_cons, Item.fill_val]
    apply List.pairwise_append.mpr
    refine ⟨hX.pairwise, List.pairwise_cons.mpr ⟨hge, hY.pairwise⟩, fun x hx y hy => ?_⟩
    rcases List.mem_cons.mp hy with rfl | hy
    · exact hlt.asymm (hless x hx)
    · exact hlt.ge_trans (hge y hy) (hlt.asymm (hless x hx))

theorem head_of_addrs {X Y : List (Item T)} {a b : Item T}
    (haddrs : (X ++ a :: Y).map Item.addr = (b :: M).map Item.addr) :
    head a.addr (chain X) = b.addr := by
  cases X with
  | nil => exact (List.cons.inj haddrs).1
  | cons x X => exact (List.cons.inj haddrs).1

theorem wp_sortRange (hlt : StrictWeak lt) {Q : Unit → Heap (Cell T) → Prop}
    (hs : Holds h [] (nodes s (A ++ (M ++ B)) + F)) (hM : Stored F M)
    (hQ : ∀ h' M', Sorted lt M M' → Holds h' [] (nodes s (A ++ (M' ++ B)) + F) → Q () h') :
    wp (sortRange lt (some (head s (chain (M ++ B)))) (some (head s (chain B)))) Q h := by
  induction hn : M.length using Nat.strong_induction_on generalizing h A M B Q with
  | _ n ih =>
    rw [sortRange, wp_bind]
    cases M with
    | nil =>
      rw [List.nil_append] at hs ⊢
      obtain ⟨d, n, hnode⟩ := exists_node s A B
      apply wp_readNode_of_mem hs (Multiset.mem_add.mpr (.inl hnode))
      rw [if_pos rfl, ite_self, wp_pure]
      exact hQ h [] ⟨rfl, .rfl, .nil⟩ hs
    | cons e M =>
      rw [List.cons_append] at hs
      apply wp_readNode_nodes hs
      split
      case isTrue hnext =>
        have hnil : M = [] := by
          cases M with
          | nil => rfl
          | cons x M =>
            have hs' : Holds h [] (nodes s ((A ++ [e]) ++ x :: (M ++ B)) + F) := by
              simpa using hs
            exact absurd (Option.some.inj hnext) (addr_ne_head hs')
        subst hnil
        rw [wp_pure]
        exact hQ h [e] ⟨rfl, .rfl, List.pairwise_singleton _ _⟩ hs
      case isFalse =>
        have hne := addr_ne_head hs
        rw [List.cons_append, chain_cons, head_cons, if_neg (by simpa using hne)]
        simp only [wp_bind]
        have hlist : A ++ e :: (M ++ B) = (A ++ e :: M) ++ B := by simp
        obtain ⟨d, n, hstop⟩ := exists_node s (A ++ e :: M) B
        rw [← hlist] at hstop
        apply wp_readNode_of_mem hs (Multiset.mem_add.mpr (.inl hstop))
        apply wp_readNode_nodes hs
        have hlast : last s (chain (A ++ e :: M)) = last e.addr (chain M) := by simp
        rw [hlast]
        have he : (e.data, .object e.val) ∈ F := hM e (by simp)
        apply wp_sortLoop hs (fun x hx => hM x (List.mem_cons_of_mem e hx)) he
        intro h X w Y hp hs
        have hlen := congrArg List.length hp.addrs
        simp only [List.length_map, List.length_append, List.length_cons] at hlen hn
        have hXY := Stored.of_perm (fun x hx => hM x (List.mem_cons_of_mem e hx)) hp.contents
        rw [← List.append_assoc] at hs
        apply wp_fill (e := e) hs
        intro h hs
        rw [List.append_assoc] at hs
        have hstart : e.addr = head s (chain (X ++ w.fill e :: (Y ++ B))) := by
          rw [← head_of_addrs hp.addrs, chain_append, head_append, chain_cons, head_cons,
            Item.fill_addr]
        rw [hstart]
        apply ih X.length (by omega) hs (fun x hx => hXY x (List.mem_append_left Y hx)) _ rfl
        intro h X' hX hs
        rw [← List.append_assoc] at hs
        apply wp_readNode_nodes hs
        have hs' : Holds h [] (nodes s ((A ++ X' ++ [w.fill e]) ++ (Y ++ B)) + F) := by
          simpa using hs
        apply ih Y.length (by omega) hs' (fun x hx => hXY x (List.mem_append_right X hx)) _ rfl
        intro h' Y' hY hs
        apply hQ h' _ (Sorted.of_parted hlt hp hX hY)
        simpa using hs

theorem objects_eq (g : List (Item T)) : objects g =
    ↑((g.map Item.content).map fun c => ((c.1, .object c.2) : ℕ × Cell T)) := by
  induction g with
  | nil => rfl
  | cons e g ih =>
    rw [objects_cons, ih, List.map_cons, List.map_cons, ← Multiset.cons_coe,
      Multiset.singleton_add]
    rfl

theorem wp_sort (hlt : StrictWeak lt) {Q : Unit → Heap (Cell T) → Prop} {o : LinkedList}
    {g : List (Item T)} (hs : Holds h [] (whole o.node g + F))
    (hQ : ∀ h' g', (values g').Perm (values g) →
      (values g').Pairwise (fun x y => lt y x = false) →
      Holds h' [] (whole o.node g' + F) → Q () h') : wp (sort lt o) Q h := by
  simp only [sort, wp_bind]
  apply wp_readNode_of_mem hs mem_whole_sentinel
  have hs' : Holds h [] (nodes o.node ([] ++ (g ++ [])) + (objects g + F)) := by
    rwa [List.nil_append, List.append_nil, ← add_assoc]
  have hrange := wp_sortRange hlt (Q := Q) hs'
    (fun e he => Multiset.mem_add.mpr (.inl (mem_object e he)))
  rw [List.append_nil] at hrange
  apply hrange
  intro h' g' hg' hs
  apply hQ h' g' (values_perm hg'.contents) hg'.pairwise
  have hobjects : objects g' = objects g := by
    rw [objects_eq, objects_eq]
    exact Multiset.coe_eq_coe.mpr (hg'.contents.map _)
  rwa [List.nil_append, List.append_nil, ← hobjects, ← add_assoc] at hs

end Course.Stl.LinkedList
