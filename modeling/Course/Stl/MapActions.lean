import Course.Stl.MapEntries
import Course.Stl.MapMembers

/-! One operation on an STLite map: what it does to the nodes, and to the entries. -/

open Course.Lib Heap RedBlack

namespace Course.Stl.Map

/-- The operations on one map; `write` is `map[key] = v`, and `erase` goes through the
iterator that `find` gives. -/
inductive Action (K V : Type)
  | clear
  | insert (value : K × V)
  | subscript (key : K)
  | write (key : K) (v : V)
  | erase (key : K)
  | find (key : K)
  | at' (key : K)
  | count (key : K)
  | size
  | empty

inductive Answer (K V : Type)
  | done
  | thrown (e : Exception)
  | inserted (e : K × V) (fresh : Bool)
  | value (v : V)
  | entry (e : Option (K × V))
  | size (n : ℕ)
  | flag (b : Bool)

variable {K V : Type} [Inhabited V]

def Node.setSecond (n : Node K V) (v : V) : Node K V :=
  { n with val := n.val.map fun e => (e.1, v) }

def act (cmp : K → K → Bool) (m : Map) : Action K V → Prog (Node K V) (Map × Answer K V)
  | .clear => return (← clear m, .done)
  | .insert value => do
    let (m, pos, fresh) ← insert cmp m value
    return (m, .inserted (← entry pos.target) fresh)
  | .subscript key => do
    let (m, p) ← subscript cmp m key
    return (m, .value (← entry p).2)
  | .write key v => do
    let (m, p) ← subscript cmp m key
    assign p fun n => n.setSecond v
    return (m, .done)
  | .erase key => do
    match ← erase m (← find cmp m key) with
    | .ok m => return (m, .done)
    | .error e => return (m, .thrown e)
  | .find key => do
    let pos ← find cmp m key
    if pos.target = m.cend.target then return (m, .entry none)
    else return (m, .entry (some (← entry pos.target)))
  | .at' key => do
    match ← at' cmp m key with
    | .ok v => return (m, .value v)
    | .error e => return (m, .thrown e)
  | .count key => return (m, .size (← count cmp m key))
  | .size => return (m, .size m.size)
  | .empty => return (m, .flag m.empty)

/-! ### Association lists -/

/-- The same operations on the entries of a finite map. -/
def Action.on (cmp : K → K → Bool) (l : List (K × V)) :
    Action K V → List (K × V) × Answer K V
  | .clear => ([], .done)
  | .insert value =>
    match lookup cmp value.1 l with
    | some e => (l, .inserted e false)
    | none => (value :: l, .inserted value true)
  | .subscript key =>
    match lookup cmp key l with
    | some e => (l, .value e.2)
    | none => ((key, default) :: l, .value default)
  | .write key v =>
    match lookup cmp key l with
    | some _ => (l.map fun e => if Same cmp key e.1 then (e.1, v) else e, .done)
    | none => ((key, v) :: l, .done)
  | .erase key =>
    match lookup cmp key l with
    | some _ => (l.filter fun e => ¬Same cmp key e.1, .done)
    | none => (l, .thrown .index_out_of_bound)
  | .find key => (l, .entry (lookup cmp key l))
  | .at' key =>
    match lookup cmp key l with
    | some e => (l, .value e.2)
    | none => (l, .thrown .index_out_of_bound)
  | .count key => (l, .size (if (lookup cmp key l).isSome then 1 else 0))
  | .size => (l, .size l.length)
  | .empty => (l, .flag l.isEmpty)

/-! ### Nodes -/

variable {cmp : K → K → Bool}

/-- What an operation makes of the nodes, in the order of their keys, and what it answers. -/
inductive Makes (cmp : K → K → Bool) :
    List (Item K V) → Action K V → List (Item K V) → Answer K V → Prop
  | clear {l : List (Item K V)} : Makes cmp l .clear [] .done
  | insert {l l' : List (Item K V)} {value : K × V} (p : ℕ) : Absent cmp value.1 (l ++ l') →
    Makes cmp (l ++ l') (.insert value) (l ++ (p, value) :: l') (.inserted value true)
  | insertOld {l : List (Item K V)} {value : K × V} {x : Item K V} : x ∈ l →
    Same cmp value.1 x.2.1 → Makes cmp l (.insert value) l (.inserted x.2 false)
  | subscript {l l' : List (Item K V)} {key : K} (p : ℕ) : Absent cmp key (l ++ l') →
    Makes cmp (l ++ l') (.subscript key) (l ++ (p, key, default) :: l') (.value default)
  | subscriptOld {l : List (Item K V)} {key : K} {x : Item K V} : x ∈ l →
    Same cmp key x.2.1 → Makes cmp l (.subscript key) l (.value x.2.2)
  | write {l l' : List (Item K V)} {key : K} {v : V} (p : ℕ) : Absent cmp key (l ++ l') →
    Makes cmp (l ++ l') (.write key v) (l ++ (p, key, v) :: l') .done
  | writeOld {l l' : List (Item K V)} {key : K} {v : V} {x : Item K V} : Same cmp key x.2.1 →
    Makes cmp (l ++ x :: l') (.write key v) (l ++ (x.1, x.2.1, v) :: l') .done
  | erase {l l' : List (Item K V)} {key : K} {x : Item K V} : Same cmp key x.2.1 →
    Makes cmp (l ++ x :: l') (.erase key) (l ++ l') .done
  | eraseAbsent {l : List (Item K V)} {key : K} : Absent cmp key l →
    Makes cmp l (.erase key) l (.thrown .index_out_of_bound)
  | find {l : List (Item K V)} {key : K} {x : Item K V} : x ∈ l → Same cmp key x.2.1 →
    Makes cmp l (.find key) l (.entry (some x.2))
  | findAbsent {l : List (Item K V)} {key : K} : Absent cmp key l →
    Makes cmp l (.find key) l (.entry none)
  | at' {l : List (Item K V)} {key : K} {x : Item K V} : x ∈ l → Same cmp key x.2.1 →
    Makes cmp l (.at' key) l (.value x.2.2)
  | atAbsent {l : List (Item K V)} {key : K} : Absent cmp key l →
    Makes cmp l (.at' key) l (.thrown .index_out_of_bound)
  | count {l : List (Item K V)} {key : K} {x : Item K V} : x ∈ l → Same cmp key x.2.1 →
    Makes cmp l (.count key) l (.size 1)
  | countAbsent {l : List (Item K V)} {key : K} : Absent cmp key l →
    Makes cmp l (.count key) l (.size 0)
  | size {l : List (Item K V)} : Makes cmp l .size l (.size l.length)
  | empty {l : List (Item K V)} : Makes cmp l .empty l (.flag l.isEmpty)

/-- What is made of the nodes is done to the entries. -/
theorem Makes.on {l l' : List (Item K V)} {a : Action K V} {r : Answer K V} {s : List (K × V)}
    (hcmp : StrictWeak cmp) (h : Makes cmp l a l' r) (hl : Sorted cmp l)
    (hs : (l.map Prod.snd).Perm s) :
    (a.on cmp s).2 = r ∧ (l'.map Prod.snd).Perm (a.on cmp s).1 := by
  cases h with
  | clear => exact ⟨rfl, .nil⟩
  | insert p habsent =>
    rw [Action.on, lookup_of_absent hs habsent]
    exact ⟨rfl, perm_insert p hs⟩
  | insertOld hx hkey =>
    rw [Action.on, lookup_of_mem hcmp hl hs hx hkey]
    exact ⟨rfl, hs⟩
  | subscript p habsent =>
    rw [Action.on, lookup_of_absent hs habsent]
    exact ⟨rfl, perm_insert p hs⟩
  | subscriptOld hx hkey =>
    rw [Action.on, lookup_of_mem hcmp hl hs hx hkey]
    exact ⟨rfl, hs⟩
  | write p habsent =>
    rw [Action.on, lookup_of_absent hs habsent]
    exact ⟨rfl, perm_insert p hs⟩
  | @writeOld l l' key v x hkey =>
    have habsent := hl.absent_others hcmp hkey
    rw [Action.on, lookup_of_mem hcmp hl hs (by simp) hkey]
    refine ⟨rfl, ?_⟩
    have hmap := hs.map fun e => if Same cmp key e.1 then (e.1, v) else e
    rw [List.map_append, List.map_cons, List.map_append, List.map_cons,
      map_of_absent habsent.left, map_of_absent habsent.right, if_pos hkey] at hmap
    rwa [List.map_append, List.map_cons]
  | @erase l l' key x hkey =>
    have habsent := hl.absent_others hcmp hkey
    rw [Action.on, lookup_of_mem hcmp hl hs (by simp) hkey]
    refine ⟨rfl, ?_⟩
    have hfilter := hs.filter fun e => ¬Same cmp key e.1
    rw [List.map_append, List.map_cons, List.filter_append,
      List.filter_cons_of_neg (by simpa using hkey), filter_of_absent habsent.left,
      filter_of_absent habsent.right] at hfilter
    rwa [List.map_append]
  | eraseAbsent habsent =>
    rw [Action.on, lookup_of_absent hs habsent]
    exact ⟨rfl, hs⟩
  | find hx hkey =>
    rw [Action.on, lookup_of_mem hcmp hl hs hx hkey]
    exact ⟨rfl, hs⟩
  | findAbsent habsent =>
    rw [Action.on, lookup_of_absent hs habsent]
    exact ⟨rfl, hs⟩
  | at' hx hkey =>
    rw [Action.on, lookup_of_mem hcmp hl hs hx hkey]
    exact ⟨rfl, hs⟩
  | atAbsent habsent =>
    rw [Action.on, lookup_of_absent hs habsent]
    exact ⟨rfl, hs⟩
  | count hx hkey =>
    rw [Action.on, lookup_of_mem hcmp hl hs hx hkey]
    exact ⟨rfl, hs⟩
  | countAbsent habsent =>
    rw [Action.on, lookup_of_absent hs habsent]
    exact ⟨rfl, hs⟩
  | size =>
    have hlength := hs.length_eq
    rw [List.length_map] at hlength
    exact ⟨congrArg Answer.size hlength.symm, hs⟩
  | empty =>
    refine ⟨congrArg Answer.flag ?_, hs⟩
    rw [← hs.isEmpty_eq]
    cases l <;> rfl

/-! ### Nodes in memory -/

/-- The tree is balanced, and the keys in it increase. -/
structure WellShaped (cmp : K → K → Bool) (t : CTree (Item K V)) : Prop where
  balanced : t.IsRedBlack
  sorted : Sorted cmp t.inorder

/-- The map object over a tree. -/
def Base.over (base : Base) (t : CTree (Item K V)) : Map := ⟨base.head, t.inorder.length⟩

section

variable {h : Heap (Node K V)} {F : Multiset (ℕ × Node K V)} {base : Base}
  {t : CTree (Item K V)} {key : K} {v : V} {n : ℕ}

omit [Inhabited V]

theorem wp_setSecond {Q : Unit → Heap (Node K V) → Prop} {l l' : List (Item K V)} {x : Item K V}
    (hs : Holds h [] (base.shape [] t + F)) (hrb : t.IsRedBlack)
    (heq : t.inorder = l ++ x :: l')
    (hQ : ∀ h' t', Holds h' [] (base.shape [] t' + F) → t'.IsRedBlack →
      t'.inorder = l ++ (x.1, x.2.1, v) :: l' → Q () h') :
    wp (assign (some x.1) fun n => n.setSecond v) Q h := by
  obtain ⟨ctx, c, near, far, rfl, rfl, rfl⟩ := Context.exists_of_inorder heq
  rw [← Base.shape_plug] at hs
  apply wp_assign (Base.holds_join (s := .left) |>.mp hs) 0 rfl rfl
  intro h hs
  apply hQ h (Context.plug ctx (.node c near (x.1, x.2.1, v) far))
  · rw [← Base.shape_plug]
    exact (Base.holds_join (s := .left) (x := (x.1, x.2.1, v))).mpr hs
  · refine Context.isRedBlack_plug_congr ?_ hrb
    rfl
  · simp [Context.inorder_plug, CTree.inorder]

end

section Steps

variable {Q : Map × Answer K V → Heap (Node K V) → Prop} {h : Heap (Node K V)}
  {F : Multiset (ℕ × Node K V)} {base : Base} {t : CTree (Item K V)} {key : K}

/-- What holds after an operation on a map. -/
def Leaves (cmp : K → K → Bool) (F : Multiset (ℕ × Node K V)) (base : Base)
    (t : CTree (Item K V)) (a : Action K V) (Q : Map × Answer K V → Heap (Node K V) → Prop) :
    Prop :=
  ∀ h' t' r, Holds h' [] (base.shape [] t' + F) → WellShaped cmp t' →
    Makes cmp t.inorder a t'.inorder r → Q (base.over t', r) h'

variable (hcmp : StrictWeak cmp) (hs : Holds h [] (base.shape [] t + F)) (ht : WellShaped cmp t)

include ht in
/-- With one more node. -/
theorem Leaves.insert {a : Action K V} {h' : Heap (Node K V)} {t' : CTree (Item K V)}
    {before after : List (Item K V)} {x : Item K V} {r : Answer K V}
    (hQ : Leaves cmp F base t a Q) (hs : Holds h' [] (base.shape [] t' + F))
    (hrb : t'.IsRedBlack) (hold : t.inorder = before ++ after)
    (hnew : t'.inorder = before ++ x :: after) (hbefore : ∀ y ∈ before, cmp y.2.1 x.2.1 = true)
    (hafter : ∀ y ∈ after, cmp x.2.1 y.2.1 = true)
    (hmakes : Absent cmp x.2.1 (before ++ after) →
      Makes cmp (before ++ after) a (before ++ x :: after) r) :
    Q (⟨base.head, t.inorder.length + 1⟩, r) h' := by
  have hsorted := ht.sorted
  have hmakes := hmakes (absent_of_between hbefore hafter)
  have hlength : t.inorder.length + 1 = t'.inorder.length := by
    rw [hold, hnew, List.length_append, List.length_append, List.length_cons, Nat.add_assoc]
  rw [hold] at hsorted
  rw [← hold, ← hnew] at hmakes
  rw [hlength]
  exact hQ h' t' r hs ⟨hrb, hnew ▸ hsorted.insert hbefore hafter⟩ hmakes

include hcmp hs ht

theorem wp_act_insert {value : K × V} (hQ : Leaves cmp F base t (.insert value) Q) :
    wp (act cmp (base.over t) (.insert value)) Q h := by
  simp only [act, wp_bind]
  apply wp_insert hcmp hs ht.balanced ht.sorted rfl
  · intro x hx hkey
    apply wp_entry_of_mem hs hx
    rw [wp_pure]
    exact hQ h t _ hs ht (.insertOld hx hkey)
  · intro p h t' before after hs hrb hold hnew hbefore hafter
    have hmem : (p, value) ∈ t'.inorder := by simp [hnew]
    apply wp_entry_of_mem hs hmem
    rw [wp_pure]
    exact hQ.insert ht hs hrb hold hnew hbefore hafter (.insert p)

theorem wp_act_subscript (hQ : Leaves cmp F base t (.subscript key) Q) :
    wp (act cmp (base.over t) (.subscript key)) Q h := by
  simp only [act, wp_bind]
  apply wp_subscript hcmp hs ht.sorted ht.balanced rfl
  · intro x hx hkey
    apply wp_entry_of_mem hs hx
    rw [wp_pure]
    exact hQ h t _ hs ht (.subscriptOld hx hkey)
  · intro p h t' before after hs hrb hold hnew hbefore hafter
    have hmem : (p, key, default) ∈ t'.inorder := by simp [hnew]
    apply wp_entry_of_mem hs hmem
    rw [wp_pure]
    exact hQ.insert ht hs hrb hold hnew hbefore hafter (.subscript p)

theorem wp_act_write {v : V} (hQ : Leaves cmp F base t (.write key v) Q) :
    wp (act cmp (base.over t) (.write key v)) Q h := by
  simp only [act, wp_bind]
  apply wp_subscript hcmp hs ht.sorted ht.balanced rfl
  · intro x hx hkey
    obtain ⟨before, after, heq⟩ := List.append_of_mem hx
    apply wp_setSecond hs ht.balanced heq
    intro h t' hs hrb hnew
    have hsorted := ht.sorted
    have hlength : t.inorder.length = t'.inorder.length := by simp [heq, hnew]
    have hmakes : Makes cmp (before ++ x :: after) (.write key v)
        (before ++ (x.1, x.2.1, v) :: after) .done := .writeOld hkey
    rw [heq] at hsorted
    rw [← heq, ← hnew] at hmakes
    rw [wp_pure, hlength]
    exact hQ h t' _ hs ⟨hrb, hnew ▸ hsorted.congr (by simp)⟩ hmakes
  · intro p h t' before after hs hrb hold hnew hbefore hafter
    apply wp_setSecond hs hrb hnew
    intro h t' hs hrb hnew
    rw [wp_pure]
    exact hQ.insert ht hs hrb hold hnew hbefore hafter (.write p)

theorem wp_act_erase (hQ : Leaves cmp F base t (.erase key) Q) :
    wp (act cmp (base.over t) (.erase key)) Q h := by
  simp only [act, wp_bind]
  apply wp_find hcmp hs ht.sorted
  · intro x hx hkey
    have hhead := ne_head_of_mem hs hx
    obtain ⟨before, after, heq⟩ := List.append_of_mem hx
    obtain ⟨ctx, c, near, far, rfl, hfront, hback⟩ := Context.exists_of_inorder heq
    have hsorted := ht.sorted
    have hmakes : Makes cmp (before ++ x :: after) (.erase key) (before ++ after) .done :=
      .erase hkey
    rw [heq] at hsorted
    rw [← Base.shape_plug] at hs
    apply wp_erase hhead hs ht.balanced
    intro h t' hs hrb hnew
    have hnew : t'.inorder = before ++ after := by
      rw [hnew, hfront, hback]
      simp only [List.append_assoc]
    have hlength : (Context.plug ctx (.node c near x far)).inorder.length - 1 =
        t'.inorder.length := by
      rw [heq, hnew, List.length_append, List.length_append, List.length_cons, ← Nat.add_assoc,
        Nat.add_sub_cancel]
    rw [← heq, ← hnew] at hmakes
    rw [hlength]
    dsimp only
    rw [wp_pure]
    exact hQ h t' _ hs ⟨hrb, hnew ▸ hsorted.erase⟩ hmakes
  · intro hnone
    rw [erase, if_pos (.inr rfl), wp_pure]
    dsimp only
    rw [wp_pure]
    exact hQ h t _ hs ht (.eraseAbsent hnone)

theorem wp_act_find (hQ : Leaves cmp F base t (.find key) Q) :
    wp (act cmp (base.over t) (.find key)) Q h := by
  simp only [act, wp_bind]
  apply wp_find hcmp hs ht.sorted
  · intro x hx hkey
    have hhead : some x.1 ≠ (base.over t).cend.target :=
      fun heq => ne_head_of_mem hs hx (Option.some.inj heq)
    rw [if_neg hhead, wp_bind]
    apply wp_entry_of_mem hs hx
    rw [wp_pure]
    exact hQ h t _ hs ht (.find hx hkey)
  · intro hnone
    have hhead : some base.head = (base.over t).cend.target := rfl
    rw [if_pos hhead, wp_pure]
    exact hQ h t _ hs ht (.findAbsent hnone)

theorem wp_act_at (hQ : Leaves cmp F base t (.at' key) Q) :
    wp (act cmp (base.over t) (.at' key)) Q h := by
  simp only [act, wp_bind]
  apply wp_at hcmp hs ht.sorted
  · intro x hx hkey
    dsimp only
    rw [wp_pure]
    exact hQ h t _ hs ht (.at' hx hkey)
  · intro hnone
    dsimp only
    rw [wp_pure]
    exact hQ h t _ hs ht (.atAbsent hnone)

theorem wp_act_count (hQ : Leaves cmp F base t (.count key) Q) :
    wp (act cmp (base.over t) (.count key)) Q h := by
  simp only [act, wp_bind]
  apply wp_count hcmp hs ht.sorted
  · intro x hx hkey
    rw [wp_pure]
    exact hQ h t _ hs ht (.count hx hkey)
  · intro hnone
    rw [wp_pure]
    exact hQ h t _ hs ht (.countAbsent hnone)

theorem wp_act {a : Action K V} (hQ : Leaves cmp F base t a Q) :
    wp (act cmp (base.over t) a) Q h := by
  cases a with
  | clear =>
    simp only [act, wp_bind]
    apply wp_clear hs
    intro h hs
    rw [wp_pure]
    exact hQ h .nil .done hs ⟨⟨rfl, 0, rfl⟩, .nil⟩ .clear
  | insert value => exact wp_act_insert hcmp hs ht hQ
  | subscript key => exact wp_act_subscript hcmp hs ht hQ
  | write key v => exact wp_act_write hcmp hs ht hQ
  | erase key => exact wp_act_erase hcmp hs ht hQ
  | find key => exact wp_act_find hcmp hs ht hQ
  | at' key => exact wp_act_at hcmp hs ht hQ
  | count key => exact wp_act_count hcmp hs ht hQ
  | size =>
    rw [act, wp_pure]
    exact hQ h t _ hs ht .size
  | empty =>
    rw [act, wp_pure]
    have hempty : (base.over t).empty = t.inorder.isEmpty := by
      rw [Base.over, Map.empty, Bool.eq_iff_iff, decide_eq_true_iff, List.isEmpty_iff,
        List.length_eq_zero_iff]
    rw [hempty]
    exact hQ h t _ hs ht .empty

end Steps

end Course.Stl.Map
