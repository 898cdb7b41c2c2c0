import Course.Stl.Storage

/-! One operation on a vector: what it does to the elements where it stays inside
the storage, and when it does. -/

namespace Course.Stl.Vector

/-- What is passed for a `const DataType &`: some other object, or the element
`k` of the vector itself. -/
inductive Value (V : Type)
  | const (x : V)
  | element (k : ℕ)

/-- The operations on one vector; an iterator is given by the slot it points to. -/
inductive Action (V : Type)
  | pushBack (value : Value V)
  | popBack
  | insert (pos : ℕ) (value : Value V)
  | insertAt (ind : ℕ) (value : Value V)
  | erase (pos : ℕ)
  | eraseAt (ind : ℕ)
  | clear

variable {V : Type} {v v' other : Vector V} {l a m : List V} {x : V}

def Value.ref (v : Vector V) : Value V → Ref V
  | .const x => .outside x
  | .element k => .slot v.block k

/-- An operation that throws leaves the vector as it is. -/
def settle (v : Vector V) (r : Except Error (Vector V)) : Vector V := r.toOption.getD v

def act (v : Vector V) : Action V → Option (Vector V)
  | .pushBack value => v.pushBack (value.ref v)
  | .popBack => v.popBack.map v.settle
  | .insert pos value => (v.insert pos (value.ref v)).map Prod.fst
  | .insertAt ind value => (v.insertAt ind (value.ref v)).map fun r => v.settle (r.map Prod.fst)
  | .erase pos => (v.erase pos).map Prod.fst
  | .eraseAt ind => (v.eraseAt ind).map fun r => v.settle (r.map Prod.fst)
  | .clear => v.clear

/-! ### The same operations on sequences -/

/-- The value at the moment of the call. -/
def Value.eval (l : List V) : Value V → Option V
  | .const x => some x
  | .element k => l[k]?

def Action.on (l : List V) : Action V → List V
  | .pushBack value => l ++ (value.eval l).toList
  | .popBack => l.dropLast
  | .insert pos value => l.take pos ++ (value.eval l).toList ++ l.drop pos
  | .insertAt pos value =>
    if pos < l.length then l.take pos ++ (value.eval l).toList ++ l.drop pos else l
  | .erase pos => l.eraseIdx pos
  | .eraseAt ind => l.eraseIdx ind
  | .clear => []

/-! ### Conditions on an operation -/

/-- A reference to an element is to one that exists. -/
def Value.Fits (v : Vector V) : Value V → Prop
  | .const _ => True
  | .element k => k < v.last

/-- Iterators are in range. -/
def Action.Fits (v : Vector V) : Action V → Prop
  | .pushBack value => value.Fits v
  | .insert pos value => pos ≤ v.last ∧ value.Fits v
  | .insertAt _ value => value.Fits v
  | .erase pos => pos < v.last
  | _ => True

/-- The reference is to an element that growing moves away. -/
def Value.Dangles (v : Vector V) : Value V → Prop
  | .const _ => False
  | .element _ => v.last = v.slots.length

/-- No element is erased, none is inserted at an index, and no reference
dangles. -/
def Action.Safe (v : Vector V) : Action V → Prop
  | .pushBack value => ¬value.Dangles v
  | .insert _ value => ¬value.Dangles v
  | .insertAt ind _ => v.last ≤ ind
  | .erase _ => False
  | .eraseAt ind => v.last ≤ ind
  | _ => True

/-- What the reference reads after the elements from `pos` on have moved up. -/
def Value.shifted (l : List V) (pos : ℕ) : Value V → Option V
  | .const x => some x
  | .element k => if k ≤ pos then l[k]? else l[k - 1]?

/-! ### One operation -/

theorem Holds.grow (h : Holds v l) :
    ∃ v', v.grow = some v' ∧ Holds v' l ∧
      l.length < v'.slots.length ∧
      (v.last ≠ v.slots.length → v' = v) ∧ (v.last = v.slots.length → v'.block = v.block + 1) := by
  have hle := h.filled.length_le
  by_cases hfull : v.last = v.slots.length
  · obtain ⟨v', hv', hholds, hblock, hlen⟩ := h.expand
    refine ⟨v', by rw [Vector.grow, if_pos hfull, hv'], hholds, ?_, fun hne => absurd hfull hne,
      fun _ => hblock⟩
    have := h.pos
    omega
  · refine ⟨v, by rw [Vector.grow, if_neg hfull], h, ?_, fun _ => rfl, fun heq => absurd heq hfull⟩
    have := h.last
    omega

/-- The value that is constructed behind the last element. -/
theorem deref_grown {value : Value V} (h : Holds v l) (hfits : value.Fits v)
    (hdangles : ¬value.Dangles v) (hsame : v.last ≠ v.slots.length → v' = v) :
    ∃ x, v'.deref (value.ref v) = some x ∧ value.eval l = some x := by
  cases value with
  | const x => exact ⟨x, rfl, rfl⟩
  | element k =>
    obtain rfl := hsame hdangles
    have hk : k < l.length := h.last ▸ hfits
    refine ⟨l[k], ?_, List.getElem?_eq_getElem hk⟩
    simp [Value.ref, deref, read_filled h.filled hfits, hk]

theorem deref_dangling {value : Value V} (hdangles : value.Dangles v)
    (hblock : v.last = v.slots.length → v'.block = v.block + 1) :
    v'.deref (value.ref v) = none := by
  cases value with
  | const x => cases hdangles
  | element k =>
    rw [Value.ref, deref, hblock hdangles]
    exact if_neg (Nat.ne_of_lt (Nat.lt_succ_self _))

theorem Holds.pushBack {value : Value V} (h : Holds v l) (hfits : value.Fits v)
    (hdangles : ¬value.Dangles v) :
    ∃ v', v.pushBack (value.ref v) = some v' ∧ Holds v' (l ++ (value.eval l).toList) := by
  obtain ⟨v₁, hgrow, h₁, hlt, hsame, -⟩ := h.grow
  obtain ⟨x, hderef, heval⟩ := deref_grown h hfits hdangles hsame
  obtain ⟨b, hb, hfill, hlen⟩ := h₁.filled.construct hlt x
  rw [← h₁.last] at hb
  refine ⟨{ v₁ with slots := b, last := v₁.last + 1 }, ?_, ?_⟩
  · rw [Vector.pushBack]
    simp [hgrow, hderef, hb]
  · rw [heval]
    refine ⟨hfill, ?_, ?_⟩
    · simp [h₁.last]
    · simp only
      omega

theorem pushBack_dangling {value : Value V} (h : Holds v l) (hdangles : value.Dangles v) :
    v.pushBack (value.ref v) = none := by
  obtain ⟨v₁, hgrow, -, -, -, hblock⟩ := h.grow
  rw [Vector.pushBack]
  simp [hgrow, deref_dangling hdangles hblock]

theorem getElem?_shifted (a m : List V) (x : V) {k : ℕ} (hk : k < (a ++ m).length) :
    (a ++ m.headD x :: m)[k]? =
      if k ≤ a.length then (a ++ m)[k]? else (a ++ m)[k - 1]? := by
  rcases Nat.lt_trichotomy k a.length with hlt | rfl | hgt
  · rw [if_pos (Nat.le_of_lt hlt), List.getElem?_append_left hlt, List.getElem?_append_left hlt]
  · cases m with
    | nil => simp at hk
    | cons z m => simp
  · rw [if_neg (Nat.not_le.mpr hgt), List.getElem?_append_right (Nat.le_of_lt hgt),
      List.getElem?_append_right (by omega)]
    obtain ⟨j, rfl⟩ : ∃ j, k = a.length + 1 + j := ⟨k - a.length - 1, by omega⟩
    have hsub : a.length + 1 + j - a.length = j + 1 := by omega
    have hsub' : a.length + 1 + j - 1 - a.length = j := by omega
    rw [hsub, hsub', List.getElem?_cons_succ]

theorem Holds.insert {value : Value V} (h : Holds v (a ++ m)) (hfits : value.Fits v)
    (hdangles : ¬value.Dangles v) :
    ∃ v', v.insert a.length (value.ref v) = some (v', a.length) ∧
      Holds v' (a ++ (value.shifted (a ++ m) a.length).toList ++ m) := by
  obtain ⟨v₁, hgrow, h₁, hlt, hsame, -⟩ := h.grow
  obtain ⟨x, hderef, heval⟩ := deref_grown h hfits hdangles hsame
  obtain ⟨b, hb, hfill, hlen⟩ := h₁.filled.construct hlt x
  obtain ⟨v₂, hshift, hfill₂, hlen₂, hlast₂, hblock₂⟩ :=
    shiftUp_spec (v := { v₁ with slots := b }) (a := a) (y := x) (c := []) m
      (by simpa using hfill) (Nat.le_of_eq h₁.last.symm)
  rw [List.append_nil] at hfill₂
  -- the reference now reads the shifted slots
  have hread : ∃ z, v₂.deref (value.ref v) = some z ∧
      value.shifted (a ++ m) a.length = some z := by
    cases value with
    | const z => exact ⟨z, rfl, rfl⟩
    | element k =>
      obtain rfl := hsame hdangles
      have hk : k < (a ++ m).length := h.last ▸ hfits
      have hread : v₂.read k = (Value.element k).shifted (a ++ m) a.length := by
        rw [read_filled hfill₂ (by rw [hlast₂]; exact hfits), getElem?_shifted a m x hk]
        rfl
      have hsome : ((Value.element k).shifted (a ++ m) a.length).isSome := by
        rw [Value.shifted]
        split
        · simpa using hk
        · rw [List.getElem?_eq_getElem (by omega)]
          rfl
      obtain ⟨z, hz⟩ := Option.isSome_iff_exists.mp hsome
      refine ⟨z, ?_, hz⟩
      rw [Value.ref, deref, if_pos hblock₂.symm, hread, hz]
  obtain ⟨z, hz, hshifted⟩ := hread
  obtain ⟨b', hb', hfill', hlen'⟩ := hfill₂.assign z
  rw [← h₁.last] at hb hshift
  refine ⟨{ v₂ with slots := b', last := v₂.last + 1 }, ?_, ?_⟩
  · rw [Vector.insert]
    simp [hgrow, hderef, hb, hshift, hz, hb']
  · rw [hshifted]
    refine ⟨by simpa using hfill', ?_, ?_⟩
    · have := h₁.last
      simp only [hlast₂, List.length_append, Option.toList_some, List.length_singleton] at this ⊢
      omega
    · simp only at hlen₂ ⊢
      omega

theorem insert_dangling {value : Value V} (h : Holds v l) (pos : ℕ)
    (hdangles : value.Dangles v) : v.insert pos (value.ref v) = none := by
  obtain ⟨v₁, hgrow, -, -, -, hblock⟩ := h.grow
  rw [Vector.insert]
  simp [hgrow, deref_dangling hdangles hblock]

theorem insertAt_eq_none {ind : ℕ} (h : ind < v.last) (r : Ref V) : v.insertAt ind r = none := by
  rw [insertAt, if_neg (Nat.not_le.mpr h)]
  cases v.deref r with
  | none => rfl
  | some x =>
    cases hb : construct v.slots v.last x with
    | none => simp [hb]
    | some b => simp [shiftFrom_eq_none _ h]

theorem erase_eq_none {pos : ℕ} (h : pos < v.last) : v.erase pos = none := by
  rw [erase, shiftDown_eq_none v h]
  rfl

theorem eraseAt_eq_none {ind : ℕ} (h : ind < v.last) : v.eraseAt ind = none := by
  rw [eraseAt, if_neg (Nat.not_le.mpr h), shiftDownFrom_eq_none v h]
  rfl

theorem Holds.popBack (h : Holds v l) :
    ∃ r, v.popBack = some r ∧ Holds (v.settle r) l.dropLast := by
  rcases List.eq_nil_or_concat l with rfl | ⟨l, x, rfl⟩
  · exact ⟨.error .containerIsEmpty, by simp [Vector.popBack, h.last], h⟩
  · rw [List.concat_eq_append] at h ⊢
    have hlast : v.last = l.length + 1 := by simp [h.last]
    obtain ⟨b, hb, hfill, hlen⟩ := h.filled.destroy
    refine ⟨.ok { v with slots := b, last := l.length }, ?_, ?_⟩
    · simp [Vector.popBack, dropLast, hlast, hb]
    · rw [List.dropLast_concat]
      exact ⟨hfill, rfl, hlen ▸ h.pos⟩

theorem Holds.create : Holds (Vector.create : Vector V) [] :=
  ⟨Filled.malloc 1, rfl, Nat.one_pos⟩

theorem Holds.clear (h : Holds v l) : ∃ v', v.clear = some v' ∧ Holds v' [] := by
  obtain ⟨b, hb⟩ := h.destroyAll
  refine ⟨{ block := v.block + 1, slots := malloc 1, last := 0 }, ?_, Filled.malloc 1, rfl,
    Nat.one_pos⟩
  rw [Vector.clear, hb]
  rfl

theorem Holds.createCopy (h : Holds other l) : ∃ v, createCopy other = some v ∧ Holds v l := by
  obtain ⟨b, hb, hfill, hlen⟩ := h.copyAll
  refine ⟨{ block := 0, slots := b, last := other.last }, ?_, hfill, h.last, ?_⟩
  · rw [Vector.createCopy, hb]
    rfl
  · exact hlen ▸ h.pos

theorem Holds.assignFrom (hv : Holds v m) (h : Holds other l) :
    ∃ v', v.assignFrom other = some v' ∧ Holds v' l := by
  obtain ⟨b₀, hb₀⟩ := hv.destroyAll
  obtain ⟨b, hb, hfill, hlen⟩ := h.copyAll
  refine ⟨{ block := v.block + 1, slots := b, last := other.last }, ?_, hfill, h.last, ?_⟩
  · rw [Vector.assignFrom, hb₀, hb]
    rfl
  · exact hlen ▸ h.pos

/-! ### Safe operations -/

/-- What a safe operation makes of the elements. -/
def Action.made (l : List V) : Action V → List V
  | .insert pos value => l.take pos ++ (value.shifted l pos).toList ++ l.drop pos
  | .insertAt _ _ => l
  | .eraseAt _ => l
  | a => a.on l

theorem act_spec {a : Action V} (h : Holds v l) (hfits : a.Fits v) (hsafe : a.Safe v) :
    ∃ v', v.act a = some v' ∧ Holds v' (a.made l) := by
  cases a with
  | pushBack value => exact h.pushBack hfits hsafe
  | popBack =>
    obtain ⟨r, hr, hholds⟩ := h.popBack
    exact ⟨v.settle r, by simp [act, hr], hholds⟩
  | insert pos value =>
    obtain ⟨hpos, hfits⟩ := hfits
    rw [h.last] at hpos
    have hsplit : l.take pos ++ l.drop pos = l := List.take_append_drop pos l
    rw [← hsplit] at h
    obtain ⟨v', hv', hholds⟩ := h.insert hfits hsafe
    rw [hsplit, List.length_take_of_le hpos] at hholds
    rw [List.length_take_of_le hpos] at hv'
    exact ⟨v', by simp [act, hv'], hholds⟩
  | insertAt ind value =>
    refine ⟨v, ?_, h⟩
    have hout : v.last ≤ ind := hsafe
    rw [act, insertAt, if_pos hout]
    rfl
  | erase pos => cases hsafe
  | eraseAt ind =>
    refine ⟨v, ?_, h⟩
    have hout : v.last ≤ ind := hsafe
    rw [act, eraseAt, if_pos hout]
    rfl
  | clear => exact h.clear

/-- Any other operation leaves the storage or reads a slot without an element. -/
theorem act_eq_none {a : Action V} (h : Holds v l) (hfits : a.Fits v) (hsafe : ¬a.Safe v) :
    v.act a = none := by
  cases a with
  | pushBack value => exact pushBack_dangling h (not_not.mp hsafe)
  | popBack => exact absurd trivial hsafe
  | insert pos value => rw [act, insert_dangling h pos (not_not.mp hsafe), Option.map_none]
  | insertAt ind value => rw [act, insertAt_eq_none (Nat.not_le.mp hsafe), Option.map_none]
  | erase pos => rw [act, erase_eq_none hfits, Option.map_none]
  | eraseAt ind => rw [act, eraseAt_eq_none (Nat.not_le.mp hsafe), Option.map_none]
  | clear => exact absurd trivial hsafe

end Course.Stl.Vector
