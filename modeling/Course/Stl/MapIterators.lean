import Course.Stl.Maps
import Course.Stl.MapWalks

/-! Iterators of an STLite map: the way from one end to the other, and what stays behind
an iterator. -/

open Course.Lib Heap RedBlack

namespace Course.Stl.Map

variable {K V : Type} {cmp : K → K → Bool}

/-- The iterator `k` elements from the first. -/
def position (head : ℕ) (l : List (Item K V)) (k : ℕ) : Iterator :=
  ⟨(l.map Prod.fst ++ [head])[k]?, head⟩

/-- `k` steps; an exception ends them. -/
def steps (move : Iterator → Prog (Node K V) (Except Exception Iterator)) :
    ℕ → Iterator → Prog (Node K V) (Except Exception Iterator)
  | 0, it => return .ok it
  | k + 1, it => do
    match ← steps move k it with
    | .ok it => move it
    | .error e => return .error e

/-- The iterators of a map go through its elements, in the order of their keys. -/
structure Iterates (cmp : K → K → Bool) (h : Heap (Node K V)) (m : Map) (l : List (Item K V)) :
    Prop where
  size : m.size = l.length
  increasing : (l.map fun x => x.2.1).Pairwise fun key key' => cmp key key' = true
  first : cbegin m h = some (position m.head l 0, h)
  last : m.cend = position m.head l l.length
  distinct : ∀ j k, j ≤ l.length → position m.head l j = position m.head l k → j = k
  value : ∀ (k : ℕ) (hk : k < l.length), (position m.head l k).value h = some (.ok l[k].2, h)
  increment : ∀ k < l.length,
    (position m.head l k).increment h = some (.ok (position m.head l (k + 1)), h)
  decrement : ∀ k < l.length,
    (position m.head l (k + 1)).decrement h = some (.ok (position m.head l k), h)
  found : ∀ x ∈ l, find cmp m x.2.1 h = some (⟨some x.1, m.head⟩, h)
  stopped : m.cend.increment h = some (.error .invalid_iterator, h) ∧
    (position m.head l 0).decrement h = some (.error .invalid_iterator, h)

section Iterates

variable {h : Heap (Node K V)} {F : Multiset (ℕ × Node K V)} {base : Base}
  {t : CTree (Item K V)} {head k : ℕ} {l : List (Item K V)} {x : Item K V}

theorem position_of_lt (hk : k < l.length) : position head l k = ⟨some l[k].1, head⟩ := by
  rw [position, List.getElem?_append_left (by simpa using hk), List.getElem?_map,
    List.getElem?_eq_getElem hk, Option.map_some]

theorem position_length : position head l l.length = ⟨some head, head⟩ := by
  rw [position, List.getElem?_append_right (by simp), List.length_map, Nat.sub_self]
  rfl

theorem position_eq_front (hk : k ≤ l.length) :
    position head l k = ⟨some (front head (l.drop k)), head⟩ := by
  rcases Nat.lt_or_eq_of_le hk with hlt | rfl
  · rw [position_of_lt hlt, List.drop_eq_getElem_cons hlt, front]
  · rw [position_length, List.drop_length, front]

theorem front_reverse_take (hk : k < l.length) :
    front head (l.take (k + 1)).reverse = l[k].1 := by
  rw [List.take_add_one, List.getElem?_eq_getElem hk, Option.toList_some, List.reverse_append,
    List.reverse_singleton, List.singleton_append, front]

variable (hs : Holds h [] (base.shape [] t + F))

include hs

theorem position_inj {j : ℕ} (hj : j ≤ t.inorder.length)
    (heq : position base.head t.inorder j = position base.head t.inorder k) : j = k := by
  have hnodup : (t.inorder.map Prod.fst ++ [base.head]).Nodup :=
    (List.perm_append_singleton _ _).nodup_iff.mpr (shape_nodup hs)
  apply (List.getElem?_inj ?_ hnodup).mp (congrArg Iterator.target heq)
  simpa [Nat.lt_succ_iff] using hj

theorem wp_value (hx : x ∈ t.inorder) {Q : Except Exception (K × V) → Heap (Node K V) → Prop}
    (hQ : Q (.ok x.2) h) : wp (Iterator.value ⟨some x.1, base.head⟩) Q h := by
  have hhead : ¬(some x.1 = none ∨ some x.1 = some base.head) := by
    simpa using ne_head_of_mem hs hx
  rw [Iterator.value, if_neg hhead, wp_bind]
  apply wp_entry_of_mem hs hx
  rw [wp_pure]
  exact hQ

theorem wp_increment {Q : Except Exception Iterator → Heap (Node K V) → Prop}
    (hk : k < t.inorder.length) (hQ : Q (.ok (position base.head t.inorder (k + 1))) h) :
    wp (position base.head t.inorder k).increment Q h := by
  have hhead : ¬(some t.inorder[k].1 = none ∨ some t.inorder[k].1 = some base.head) := by
    simpa using ne_head_of_mem hs (List.getElem_mem hk)
  have heq : t.inorder = t.inorder.take k ++ t.inorder[k] :: t.inorder.drop (k + 1) := by
    rw [← List.drop_eq_getElem_cons hk, List.take_append_drop]
  rw [position_of_lt hk, Iterator.increment, if_neg hhead, wp_bind]
  rw [position_eq_front hk] at hQ
  generalize t.inorder[k] = x at *
  obtain ⟨ctx, c, near, far, ht, -, hback⟩ := Context.exists_of_inorder heq
  rw [ht, ← Base.shape_plug] at hs
  rw [hback] at hQ
  apply wp_neighbour (s := .right) hs (.inl rfl)
  rw [wp_pure]
  exact hQ

theorem wp_decrement {Q : Except Exception Iterator → Heap (Node K V) → Prop}
    (hk : k < t.inorder.length) (hQ : Q (.ok (position base.head t.inorder k)) h) :
    wp (position base.head t.inorder (k + 1)).decrement Q h := by
  have hfirst : position base.head t.inorder 0 = ⟨some (front base.head t.inorder), base.head⟩ :=
    position_eq_front (Nat.zero_le _)
  have hne : position base.head t.inorder (k + 1) ≠ position base.head t.inorder 0 :=
    fun heq => Nat.succ_ne_zero k (position_inj hs hk heq)
  rw [hfirst, position_eq_front hk] at hne
  rw [position_eq_front hk, Iterator.decrement, if_neg (Option.some_ne_none _), wp_bind]
  apply wp_furthest_head hs
  rw [if_neg fun heq => hne (congrArg (Iterator.mk · base.head) heq), wp_bind]
  rw [position_eq_front (Nat.le_of_lt hk)] at hQ
  have hfront : front base.head (t.inorder.take (k + 1)).reverse =
      front base.head (t.inorder.drop k) := by
    rw [front_reverse_take hk, List.drop_eq_getElem_cons hk, front]
  rw [← hfront] at hQ
  rcases Nat.lt_or_eq_of_le (Nat.succ_le_of_lt hk) with hlt | heq
  · have hsplit : t.inorder = t.inorder.take (k + 1) ++ t.inorder[k + 1] ::
        t.inorder.drop (k + 2) := by
      rw [← List.drop_eq_getElem_cons hlt, List.take_append_drop]
    have htake : t.inorder.take (k + 1) ≠ [] := by
      simpa using List.length_pos_iff.mp (Nat.zero_lt_of_lt hk)
    rw [List.drop_eq_getElem_cons hlt, front]
    generalize t.inorder[k + 1] = x at *
    obtain ⟨ctx, c, near, far, ht, hfront, -⟩ := Context.exists_of_inorder hsplit
    rw [ht, ← Base.shape_plug] at hs
    rw [hfront] at hQ htake
    apply wp_neighbour (s := .left) hs (.inr _)
    · rw [wp_pure]
      simpa [CTree.walk, Context.ahead] using hQ
    · simpa [CTree.walk, Context.ahead, and_comm] using htake
  · have ht : t ≠ .nil := by
      rintro rfl
      cases hk
    rw [Nat.succ_eq_add_one] at heq
    rw [List.drop_eq_nil_of_le (Nat.le_of_eq heq.symm), front]
    apply wp_neighbour_head hs ht
    rw [wp_pure]
    rwa [List.take_of_length_le (Nat.le_of_eq heq.symm)] at hQ

theorem find_of_mem (hcmp : StrictWeak cmp) (ht : WellShaped cmp t) (hx : x ∈ t.inorder) :
    find cmp (base.over t) x.2.1 h = some (⟨some x.1, base.head⟩, h) := by
  have hself : Same cmp x.2.1 x.2.1 := ⟨hcmp.irrefl _, hcmp.irrefl _⟩
  have hwp : wp (find cmp (base.over t) x.2.1) (fun it h' =>
      it = ⟨some x.1, base.head⟩ ∧ h' = h) h := by
    apply wp_find hcmp hs ht.sorted
    · intro y hy hkey
      rw [ht.sorted.eq_of_same hcmp hx hy hself hkey]
      exact ⟨rfl, rfl⟩
    · exact fun habsent => absurd hself (habsent x hx)
  obtain ⟨_, _, hrun, rfl, rfl⟩ := hwp
  exact hrun

theorem iterates_of_holds (hcmp : StrictWeak cmp) (ht : WellShaped cmp t) :
    Iterates cmp h (base.over t) t.inorder := by
  have hend : (base.over t).cend = position base.head t.inorder t.inorder.length :=
    position_length.symm
  have hfirst : position base.head t.inorder 0 = ⟨some (front base.head t.inorder), base.head⟩ :=
    position_eq_front (Nat.zero_le _)
  refine ⟨rfl, List.pairwise_map.mpr ht.sorted, ?_, hend, fun j k => position_inj hs,
    fun k hk => ?_, fun k hk => ?_, fun k hk => ?_, fun x => find_of_mem hs hcmp ht, ?_, ?_⟩
  · have hwp : wp (cbegin (base.over t)) (fun it h' =>
        it = ⟨some (front base.head t.inorder), base.head⟩ ∧ h' = h) h :=
      wp_cbegin hs ⟨rfl, rfl⟩
    obtain ⟨_, _, hrun, rfl, rfl⟩ := hwp
    exact hfirst ▸ hrun
  · have hwp : wp (position base.head t.inorder k).value (fun r h' =>
        r = .ok t.inorder[k].2 ∧ h' = h) h := by
      rw [position_of_lt hk]
      exact wp_value hs (List.getElem_mem hk) ⟨rfl, rfl⟩
    obtain ⟨_, _, hrun, rfl, rfl⟩ := hwp
    exact hrun
  · have hwp : wp (position base.head t.inorder k).increment (fun r h' =>
        r = .ok (position base.head t.inorder (k + 1)) ∧ h' = h) h :=
      wp_increment hs hk ⟨rfl, rfl⟩
    obtain ⟨_, _, hrun, rfl, rfl⟩ := hwp
    exact hrun
  · have hwp : wp (position base.head t.inorder (k + 1)).decrement (fun r h' =>
        r = .ok (position base.head t.inorder k) ∧ h' = h) h :=
      wp_decrement hs hk ⟨rfl, rfl⟩
    obtain ⟨_, _, hrun, rfl, rfl⟩ := hwp
    exact hrun
  · rw [Iterator.increment, if_pos (.inr rfl)]
    rfl
  · have hwp : wp (position base.head t.inorder 0).decrement (fun r h' =>
        r = .error .invalid_iterator ∧ h' = h) h := by
      rw [hfirst, Iterator.decrement, if_neg (Option.some_ne_none _), wp_bind]
      apply wp_furthest_head hs
      rw [if_pos rfl, wp_pure]
      exact ⟨rfl, rfl⟩
    obtain ⟨_, _, hrun, rfl, rfl⟩ := hwp
    exact hrun

end Iterates

/-! ### Loops -/

namespace Iterates

variable {h : Heap (Node K V)} {m : Map} {l : List (Item K V)} {k : ℕ}

theorem steps_succ {move : Iterator → Prog (Node K V) (Except Exception Iterator)}
    {it it' : Iterator} {r : Except Exception Iterator}
    (hsteps : steps move k it h = some (.ok it', h)) (hmove : move it' h = some (r, h)) :
    steps move (k + 1) it h = some (r, h) :=
  Option.bind_eq_some_iff.mpr ⟨_, hsteps, hmove⟩

theorem steps_increment (hm : Iterates cmp h m l) (hk : k ≤ l.length) :
    steps Iterator.increment k (position m.head l 0) h = some (.ok (position m.head l k), h) := by
  induction k with
  | zero => rfl
  | succ k ih => exact steps_succ (ih (Nat.le_of_succ_le hk)) (hm.increment k hk)

theorem steps_decrement (hm : Iterates cmp h m l) (hk : k ≤ l.length) :
    steps Iterator.decrement k m.cend h = some (.ok (position m.head l (l.length - k)), h) := by
  induction k with
  | zero =>
    rw [hm.last]
    rfl
  | succ k ih =>
    have hstep := hm.decrement (l.length - (k + 1)) (by omega)
    rw [show l.length - (k + 1) + 1 = l.length - k by omega] at hstep
    exact steps_succ (ih (Nat.le_of_succ_le hk)) hstep

end Iterates

/-! ### What stays -/

/-- The operation leaves the element with the key alone. -/
def Action.Spares (cmp : K → K → Bool) (key : K) : Action K V → Prop
  | .clear => False
  | .write key' _ | .erase key' => ¬Same cmp key' key
  | _ => True

/-- The operation leaves the element with the key in the map `i` alone. -/
def Op.Spares (cmp : K → K → Bool) (i : ℕ) (key : K) : Op K V → Prop
  | .assign j k => j = i → k = i
  | .destroy j => j ≠ i
  | .act j a => j = i → a.Spares cmp key
  | _ => True

section Keeps

variable [Inhabited V] {ls ls' : Rows K V} {i p : ℕ} {l l' : List (Item K V)} {x : Item K V}
  {a : Action K V} {op : Op K V} {r : Answer K V} {w w' : World K V}

theorem Makes.keeps (h : Makes cmp l a l' r) (hspares : a.Spares cmp x.2.1) (hx : x ∈ l) :
    x ∈ l' := by
  have hmiddle : ∀ {l l' : List (Item K V)} {y z : Item K V}, x ≠ y → x ∈ l ++ y :: l' →
      x ∈ l ++ z :: l' := by
    intro l l' y z hne hmem
    simp only [List.mem_append, List.mem_cons, hne, false_or] at hmem ⊢
    tauto
  have hnew : ∀ {l l' : List (Item K V)} {y : Item K V}, x ∈ l ++ l' → x ∈ l ++ y :: l' := by
    intro l l' y hmem
    simp only [List.mem_append, List.mem_cons] at hmem ⊢
    tauto
  cases h with
  | clear => exact absurd hspares id
  | insert p => exact hnew hx
  | subscript p => exact hnew hx
  | write p => exact hnew hx
  | writeOld hkey =>
    apply hmiddle _ hx
    rintro rfl
    exact hspares hkey
  | @erase l l' key y hkey =>
    have hne : x ≠ y := by
      rintro rfl
      exact hspares hkey
    simp only [List.mem_append, List.mem_cons, hne, false_or] at hx ⊢
    exact hx
  | _ => exact hx

theorem Alters.keeps (h : Alters cmp ls op ls' r) (hspares : op.Spares cmp i x.2.1)
    (hi : ls[i]? = some (some ⟨p, l⟩)) (hx : x ∈ l) :
    ∃ l', ls'[i]? = some (some ⟨p, l'⟩) ∧ x ∈ l' := by
  have hlt : i < ls.length := (List.getElem?_eq_some_iff.mp hi).1
  cases h with
  | create p => exact ⟨l, by rw [List.getElem?_append_left hlt, hi], hx⟩
  | copy p' => exact ⟨l, by rw [List.getElem?_append_left hlt, hi], hx⟩
  | @assign j k q q' m m' m'' hjk =>
    have hne : j ≠ i := fun hji => hjk (hji.trans (hspares hji).symm)
    exact ⟨l, by rw [List.getElem?_set_ne hne, hi], hx⟩
  | assignSelf => exact ⟨l, hi, hx⟩
  | destroy => exact ⟨l, by rw [List.getElem?_set_ne hspares, hi], hx⟩
  | @act j q a m m' r hj hmakes =>
    by_cases hji : j = i
    · subst hji
      obtain ⟨rfl, rfl⟩ := Row.mk.inj (Option.some.inj (Option.some.inj (hj.symm.trans hi)))
      exact ⟨m', by rw [List.getElem?_set_self hlt], hmakes.keeps (hspares rfl) hx⟩
    · exact ⟨l, by rw [List.getElem?_set_ne hji, hi], hx⟩

/-- An element stays where it is in any run that leaves it alone. -/
theorem Shows.keeps (hcmp : StrictWeak cmp) (hw : Shows cmp w ls)
    (hi : ls[i]? = some (some ⟨p, l⟩)) (hx : x ∈ l) {more : List (Op K V)}
    (hmore : ∀ op ∈ more, op.Spares cmp i x.2.1) (hexec : (machine cmp).exec w more = some w') :
    ∃ ls' l', Shows cmp w' ls' ∧ ls'[i]? = some (some ⟨p, l'⟩) ∧ x ∈ l' := by
  induction more generalizing w ls l with
  | nil =>
    obtain rfl : w = w' := Option.some.inj hexec
    exact ⟨ls, l, hw, hi, hx⟩
  | cons op more ih =>
    obtain ⟨hop, hmore⟩ := List.forall_mem_cons.mp hmore
    obtain ⟨w₁, hstep, hexec⟩ := Option.bind_eq_some_iff.mp hexec
    have hfits : op.Fits w := by
      by_contra hfits
      rw [show (machine cmp).step w op = step cmp w op from rfl, step_eq_none hfits] at hstep
      cases hstep
    obtain ⟨w₂, ls₁, r, hstep', -, halters, hw₁⟩ := step_spec hcmp hw hfits
    obtain rfl : w₁ = w₂ := Option.some.inj (hstep.symm.trans hstep')
    obtain ⟨l₁, hi₁, hx₁⟩ := halters.keeps hop hi hx
    exact ih hw₁ hi₁ hx₁ hmore hexec

end Keeps

/-! ### Any run -/

/-- The elements of the finite map, and the way through them in memory. -/
structure Walked (cmp : K → K → Bool) (w : World K V) (d : Dicts K V) (i : ℕ) (m : Map)
    (l : List (Item K V)) : Prop where
  map : w.map i = some m
  entries : ∃ s, d.map i = some s ∧ (l.map Prod.snd).Perm s
  iterates : Iterates cmp w.heap m l
  forward : ∀ k ≤ l.length,
    steps Iterator.increment k (position m.head l 0) w.heap =
      some (.ok (position m.head l k), w.heap)
  backward : ∀ k ≤ l.length,
    steps Iterator.decrement k m.cend w.heap =
      some (.ok (position m.head l (l.length - k)), w.heap)

/-- In a run that leaves an element alone, an iterator to it denotes it at the end. -/
def Stays [Inhabited V] (cmp : K → K → Bool) (w : World K V) (i : ℕ) (m : Map) (x : Item K V) :
    Prop :=
  ∀ (more : List (Op K V)) (w' : World K V), (∀ op ∈ more, op.Spares cmp i x.2.1) →
    (machine cmp).exec w more = some w' → ∃ m' l', w'.map i = some m' ∧ m'.head = m.head ∧
      Iterates cmp w'.heap m' l' ∧ x ∈ l' ∧
      (Iterator.mk (some x.1) m.head).value w'.heap = some (.ok x.2, w'.heap)

section Runs

variable {w : World K V} {d : Dicts K V} {ls : Rows K V} {i : ℕ} {m : Map} {l : List (Item K V)}
  {x : Item K V} (hcmp : StrictWeak cmp) (hw : Shows cmp w ls)

include hcmp hw

theorem Shows.walked (hd : entries ls = d.entries) (hm : w.map i = some m) :
    ∃ l, ls[i]? = some (some ⟨m.head, l⟩) ∧ Walked cmp w d i m l := by
  obtain ⟨⟨base, t⟩, F, hf⟩ := hw.focus hm
  obtain ⟨rfl, ht⟩ := hf.rep
  have hiterates := iterates_of_holds hf.holds hcmp ht
  exact ⟨t.inorder, hf.value, hm, exists_dict hd hf.value, hiterates,
    fun k hk => hiterates.steps_increment hk, fun k hk => hiterates.steps_decrement hk⟩

theorem Shows.stays [Inhabited V] (hi : ls[i]? = some (some ⟨m.head, l⟩)) (hx : x ∈ l) :
    Stays cmp w i m x := by
  intro more w' hmore hexec
  obtain ⟨ls', l', hw', hi', hx'⟩ := hw.keeps hcmp hi hx hmore hexec
  obtain ⟨m', hm'⟩ := Option.isSome_iff_exists.mp (hw'.isSome hi')
  obtain ⟨⟨base, t⟩, F, hf⟩ := hw'.focus hm'
  obtain ⟨rfl, ht⟩ := hf.rep
  have hrow := Row.mk.inj (Option.some.inj (Option.some.inj (hi'.symm.trans hf.value)))
  have hwp : wp (Iterator.mk (some x.1) base.head).value (fun r h' =>
      r = .ok x.2 ∧ h' = w'.heap) w'.heap := wp_value hf.holds (hrow.2 ▸ hx') ⟨rfl, rfl⟩
  obtain ⟨_, _, hrun, rfl, rfl⟩ := hwp
  refine ⟨base.over t, t.inorder, hm', hrow.1.symm, iterates_of_holds hf.holds hcmp ht,
    hrow.2 ▸ hx', ?_⟩
  rw [hrow.1]
  exact hrun

end Runs

/-- In any map of any run `++` and `--` go through the elements of the finite map, one by
one and in order, and an iterator to an element stays one as long as the element is left
alone. -/
theorem walked_and_stays [Inhabited V] {w : World K V} {i : ℕ} {m : Map} {ops : List (Op K V)}
    (hcmp : StrictWeak cmp) (hexec : (machine cmp).exec World.start ops = some w)
    (hm : w.map i = some m) : ∃ d l, (Dicts.machine cmp).exec Dicts.start ops = some d ∧
      Walked cmp w d i m l ∧ ∀ x ∈ l, Stays cmp w i m x := by
  have hmatches := exec_matches hcmp ops
  rw [hexec] at hmatches
  generalize (Dicts.machine cmp).exec Dicts.start ops = d at hmatches
  cases hmatches with
  | some hmatch =>
    obtain ⟨ls, hw, hd, -⟩ := hmatch
    obtain ⟨l, hi, hwalked⟩ := hw.walked hcmp hd hm
    exact ⟨_, l, rfl, hwalked, fun x hx => hw.stays hcmp hi hx⟩

theorem walked_and_stays_eraseCopied : ∃ w m l, (machine fun x y => decide (x < y)).exec World.start
    eraseCopied = some w ∧ Walked (fun x y => decide (x < y)) w eraseCopiedDicts 0 m l ∧
    ∀ x ∈ l, Stays (fun x y => decide (x < y)) w 0 m x := by
  have hmatches := exec_matches (K := ℕ) .of_linearOrder eraseCopied
  rw [exec_eraseCopied] at hmatches
  generalize hexec : (machine fun x y : ℕ => decide (x < y)).exec World.start eraseCopied = w
    at hmatches
  cases hmatches with
  | some hmatch =>
    rename_i w
    have hne : w.map 0 ≠ none := fun hnone => nomatch (hmatch.agrees.destroyed 0).mp hnone
    obtain ⟨m, hm⟩ := Option.ne_none_iff_exists'.mp hne
    obtain ⟨d, l, hd, hwalked, hstays⟩ := walked_and_stays .of_linearOrder hexec hm
    obtain rfl : eraseCopiedDicts = d := Option.some.inj (exec_eraseCopied.symm.trans hd)
    exact ⟨w, m, l, rfl, hwalked, hstays⟩

end Course.Stl.Map
