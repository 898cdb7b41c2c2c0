import Course.Lib.Machine
import Course.Packing.Item
import Mathlib.Algebra.Group.Nat.Defs
import Mathlib.Algebra.Ring.Int.Defs
import Mathlib.Data.List.FinRange
import Mathlib.Data.List.Induction

/-! The environment in which an agent places one item after the other on the
footprint of a container. `α` are the references to items. -/

open Course.Packing.Item

namespace Course.Packing.Environment

/-- The height map is an array of `length` times `width` cells, whose `dtype=int`
is of 64 bits. -/
structure Container (α : Type) where
  name : String
  length : ℤ
  width : ℤ
  height : ℤ
  heightMap : ℤ → ℤ → ℤ
  items : List α

/-- What the agent decides: an item, a rotation and a cell. -/
structure Action where
  index : ℤ
  rotation : ℤ
  x : ℤ
  y : ℤ
  deriving DecidableEq

inductive Outcome
  | success
  | failure (reason : String)
  /-- An exception. -/
  | raised
  deriving DecidableEq

structure Env (α : Type) where
  heap : α → Item
  container : Container α
  unpackedItems : List α
  done : Bool

/-- The place that an index of Python, which may be negative, has in a list. -/
def pyIndex (size : ℕ) (i : ℤ) : Option ℕ :=
  if 0 ≤ i ∧ i < size then some i.toNat
  else if -size ≤ i ∧ i < 0 then some (size + i).toNat
  else none

def pyGet {γ : Type} (l : List γ) (i : ℤ) : Option γ := (pyIndex l.length i).bind (l[·]?)

/-- Where a bound of a slice, which may be negative, lies in an array. -/
def sliceBound (size i : ℤ) : ℤ := if i < 0 then max (i + size) 0 else min i size

/-- The test of `check_item_fit`, for a footprint of the size. -/
def offFootprint (length width : ℤ) (position dimension : Vector) : Bool :=
  position.x < 0 || position.x + dimension.x > length ||
    position.y < 0 || position.y + dimension.y > width

/-- What an array of `dtype=int` keeps of a sum, which wraps around. A summand
that itself has no 64 bits is not meant: numpy refuses it or makes a float. -/
def int64 (n : ℤ) : ℤ := n.bmod (2 ^ 64)

namespace Container

def new {α : Type} (name : String) (length width : ℤ) : Container α where
  name := name
  length := length
  width := width
  height := 0
  heightMap := fun _ _ => 0
  items := []

def reset {α : Type} (container : Container α) : Container α :=
  { container with height := 0, heightMap := fun _ _ => 0, items := [] }

variable {α : Type} [DecidableEq α]

/-- The cells of `height_map[x:x + length, y:y + width]`. -/
def OnSlice (container : Container α) (x y length width a b : ℤ) : Prop :=
  sliceBound container.length x ≤ a ∧ a < sliceBound container.length (x + length) ∧
    sliceBound container.width y ≤ b ∧ b < sliceBound container.width (y + width)

instance (container : Container α) (x y length width a b : ℤ) :
    Decidable (container.OnSlice x y length width a b) := inferInstanceAs (Decidable (_ ∧ _))

def heightsOn (container : Container α) (x y length width : ℤ) : List ℤ :=
  let x₀ := sliceBound container.length x
  let x₁ := sliceBound container.length (x + length)
  let y₀ := sliceBound container.width y
  let y₁ := sliceBound container.width (y + width)
  (List.range (x₁ - x₀).toNat).flatMap fun i : ℕ =>
    (List.range (y₁ - y₀).toNat).map fun j : ℕ => container.heightMap (x₀ + i) (y₀ + j)

/-- The items after it, and whether the item fits; `none` where `np.max` raises
an exception as there is no cell. -/
def checkItemFit (container : Container α) (heap : α → Item) (item : α) (position : Vector) :
    (α → Item) × Option Bool :=
  let d := (heap item).getDimension
  if offFootprint container.length container.width position d then (heap, some false)
  else
    match (container.heightsOn position.x position.y d.x d.y).max? with
    | none => (heap, none)
    | some z =>
      (Function.update heap item { heap item with position := ⟨position.x, position.y, z⟩ },
        some true)

/-- The container with an item in it, at its position. -/
def put (container : Container α) (item : α) (placed : Item) : Container α :=
  let d := placed.getDimension
  let p := placed.position
  let top := int64 (p.z + d.z)
  { container with
    items := container.items ++ [item]
    heightMap := fun x y =>
      if container.OnSlice p.x p.y d.x d.y x y then top else container.heightMap x y
    height := max container.height top }

def addItem (container : Container α) (heap : α → Item) (item : α) (position : Vector) :
    Container α × (α → Item) × Option Bool :=
  match container.checkItemFit heap item position with
  | (heap, some true) => (container.put item (heap item), heap, some true)
  | (heap, fits) => (container, heap, fits)

/-- What is tried fits at the position, and would end above what the height map
can hold. -/
def Overflows (container : Container α) (position dimension : Vector) : Prop :=
  offFootprint container.length container.width position dimension = false ∧
    ∃ z ∈ container.heightsOn position.x position.y dimension.x dimension.y,
      2 ^ 63 ≤ z + dimension.z

instance (container : Container α) (position dimension : Vector) :
    Decidable (container.Overflows position dimension) := inferInstanceAs (Decidable (_ ∧ _))

end Container

/-- The environment keeps copies of the items, each an object of its own. -/
def new (items : List Item) (container : Container (Fin items.length)) :
    Env (Fin items.length) where
  heap := items.get
  container := container
  unpackedItems := List.finRange items.length
  done := false

variable {α : Type} [DecidableEq α]

/-- The observation and the reward are computed from the state that it leaves,
and are not part of it. -/
def step (env : Env α) (action : Action) : Env α × Outcome :=
  match pyGet RotationType.all action.rotation with
  | none => (env, .raised)
  | some rotationType =>
    if action.index ≥ env.unpackedItems.length then (env, .failure "Index out of range")
    else
      match pyGet env.unpackedItems action.index with
      | none => (env, .raised)
      | some item =>
        let heap := Function.update env.heap item { env.heap item with rotationType }
        match env.container.addItem heap item ⟨action.x, action.y, 0⟩ with
        | (container, heap, some true) =>
          -- `remove` takes out the first item that is equal to it
          let unpackedItems :=
            env.unpackedItems.eraseP fun other => (heap other).key = (heap item).key
          ({ heap, container, unpackedItems, done := env.done || unpackedItems.isEmpty }, .success)
        | (_, heap, some false) => ({ env with heap }, .failure "Item does not fit")
        | (_, heap, none) => ({ env with heap }, .raised)

def run (env : Env α) (actions : List Action) : Env α :=
  actions.foldl (fun env action => (step env action).1) env

/-! ### One step -/

/-- The step places an item, and an equal item stands before it in
`unpacked_items`. -/
def Shadowed (env : Env α) (action : Action) : Prop :=
  ∃ rotationType i item, pyGet RotationType.all action.rotation = some rotationType ∧
    pyIndex env.unpackedItems.length action.index = some i ∧ env.unpackedItems[i]? = some item ∧
    offFootprint env.container.length env.container.width ⟨action.x, action.y, 0⟩
      { env.heap item with rotationType }.getDimension = false ∧
    ∃ other ∈ env.unpackedItems.take i, (env.heap other).key = (env.heap item).key

/-- The step places an item that ends above what the height map can hold. -/
def Overflows (env : Env α) (action : Action) : Prop :=
  ∃ rotationType ∈ pyGet RotationType.all action.rotation,
    ∃ item ∈ pyGet env.unpackedItems action.index,
      env.container.Overflows ⟨action.x, action.y, 0⟩
        { env.heap item with rotationType }.getDimension

instance (env : Env α) (action : Action) : Decidable (Overflows env action) :=
  inferInstanceAs (Decidable (∃ _ ∈ _, _))

variable {env : Env α} {action : Action}

/-- A step that places nothing turns at most the item it tried. -/
structure Stays (env env' : Env α) : Prop where
  container : env'.container = env.container
  unpackedItems : env'.unpackedItems = env.unpackedItems
  key : ∀ r, (env'.heap r).key = (env.heap r).key
  frame : ∀ r ∉ env.unpackedItems, env'.heap r = env.heap r

omit [DecidableEq α] in
theorem Stays.refl (env : Env α) : Stays env env := ⟨rfl, rfl, fun _ => rfl, fun _ _ => rfl⟩

theorem Stays.turn {i : ℕ} {item : α} (h : env.unpackedItems[i]? = some item)
    (rotationType : RotationType) :
    Stays env { env with
      heap := Function.update env.heap item { env.heap item with rotationType } } := by
  refine ⟨rfl, rfl, moved_update rfl, fun r hr => ?_⟩
  apply Function.update_of_ne
  rintro rfl
  exact hr (List.mem_of_getElem? h)

/-- A placed item lies on the highest cell under it. -/
structure Rests (container : Container α) (item : Item) : Prop where
  fits : offFootprint container.length container.width item.position item.getDimension = false
  above : ∀ x y, item.position.x ≤ x → x < item.position.x + item.getDimension.x →
    item.position.y ≤ y → y < item.position.y + item.getDimension.y →
    container.heightMap x y ≤ item.position.z

theorem sliceBound_of_le {size i : ℤ} (h : 0 ≤ i) (h' : i ≤ size) : sliceBound size i = i := by
  rw [sliceBound, if_neg (by omega), min_eq_left h']

omit [DecidableEq α] in
/-- On the footprint a slice is what it looks like. -/
theorem onSlice_iff {container : Container α} {position dimension : Vector}
    (hfits : offFootprint container.length container.width position dimension = false)
    (hx : 0 < dimension.x) (hy : 0 < dimension.y) (a b : ℤ) :
    container.OnSlice position.x position.y dimension.x dimension.y a b ↔
      position.x ≤ a ∧ a < position.x + dimension.x ∧
        position.y ≤ b ∧ b < position.y + dimension.y := by
  simp only [offFootprint, Bool.or_eq_false_iff, decide_eq_false_iff_not, not_lt] at hfits
  obtain ⟨⟨⟨hx₀, hx₁⟩, hy₀⟩, hy₁⟩ := hfits
  rw [Container.OnSlice, sliceBound_of_le hx₀ (by omega), sliceBound_of_le (by omega) hx₁,
    sliceBound_of_le hy₀ (by omega), sliceBound_of_le (by omega) hy₁]

omit [DecidableEq α] in
theorem mem_heightsOn {container : Container α} {x y length width v : ℤ} :
    v ∈ container.heightsOn x y length width ↔
      ∃ a b, container.OnSlice x y length width a b ∧ container.heightMap a b = v := by
  simp only [Container.heightsOn, Container.OnSlice, List.mem_flatMap, List.mem_map, List.mem_range]
  constructor
  · rintro ⟨i, hi, j, hj, rfl⟩
    exact ⟨_, _, by omega, rfl⟩
  · rintro ⟨a, b, ⟨ha, ha', hb, hb'⟩, rfl⟩
    refine ⟨(a - sliceBound container.length x).toNat, by omega,
      (b - sliceBound container.width y).toNat, by omega, ?_⟩
    congr <;> omega

theorem addItem_eq (container : Container α) (heap : α → Item) (item : α) (position : Vector) :
    container.addItem heap item position =
      let d := (heap item).getDimension
      if offFootprint container.length container.width position d then
        (container, heap, some false)
      else
        match (container.heightsOn position.x position.y d.x d.y).max? with
        | none => (container, heap, none)
        | some z =>
          let placed := { heap item with position := ⟨position.x, position.y, z⟩ }
          (container.put item placed, Function.update heap item placed, some true) := by
  simp only [Container.addItem, Container.checkItemFit]
  cases hoff : offFootprint container.length container.width position (heap item).getDimension with
  | true => rfl
  | false =>
    cases hmax : (container.heightsOn position.x position.y (heap item).getDimension.x
        (heap item).getDimension.y).max? with
    | none => simp
    | some z => simp

omit [DecidableEq α] in
/-- Under an item with a cell there is a greatest height. -/
theorem exists_max? {container : Container α} {position dimension : Vector}
    (hfits : offFootprint container.length container.width position dimension = false)
    (hx : 0 < dimension.x) (hy : 0 < dimension.y) :
    ∃ z, (container.heightsOn position.x position.y dimension.x dimension.y).max? = some z := by
  have hmem : container.heightMap position.x position.y ∈
      container.heightsOn position.x position.y dimension.x dimension.y :=
    mem_heightsOn.mpr ⟨_, _, (onSlice_iff hfits hx hy _ _).mpr (by omega), rfl⟩
  exact Option.ne_none_iff_exists'.mp fun hnone =>
    List.ne_nil_of_mem hmem (List.max?_eq_none_iff.mp hnone)

omit [DecidableEq α] in
theorem rests_of_max? {container : Container α} {item : Item} (hpos : item.Positive)
    (hfits : offFootprint container.length container.width item.position item.getDimension = false)
    (hmax : (container.heightsOn item.position.x item.position.y item.getDimension.x
      item.getDimension.y).max? = some item.position.z) : Rests container item := by
  obtain ⟨hx, hy, -⟩ := hpos.getDimension
  refine ⟨hfits, fun a b ha ha' hb hb' => ?_⟩
  have hslice := (onSlice_iff hfits hx hy a b).mpr ⟨ha, ha', hb, hb'⟩
  exact (List.max?_eq_some_iff.mp hmax).2 _ (mem_heightsOn.mpr ⟨a, b, hslice, rfl⟩)

theorem int64_of_lt {n : ℤ} (h : 0 ≤ n) (h' : n < 2 ^ 63) : int64 n = n :=
  Int.bmod_eq_of_le (by omega) (by omega)

theorem pyGet_eq_some {γ : Type} {l : List γ} {i : ℤ} {a : γ} (h : pyGet l i = some a) :
    ∃ n, pyIndex l.length i = some n ∧ l[n]? = some a :=
  Option.bind_eq_some_iff.mp h

omit [DecidableEq α] in
theorem shadowed_iff {rotationType : RotationType} {i : ℕ} {item : α}
    (hrotation : pyGet RotationType.all action.rotation = some rotationType)
    (hi : pyIndex env.unpackedItems.length action.index = some i)
    (hitem : env.unpackedItems[i]? = some item) :
    Shadowed env action ↔
      offFootprint env.container.length env.container.width ⟨action.x, action.y, 0⟩
        { env.heap item with rotationType }.getDimension = false ∧
      ∃ other ∈ env.unpackedItems.take i, (env.heap other).key = (env.heap item).key := by
  constructor
  · rintro ⟨rotationType', i', item', hrotation', hi', hitem', hfits, hequal⟩
    rw [hrotation] at hrotation'
    rw [hi] at hi'
    cases hrotation'
    cases hi'
    rw [hitem] at hitem'
    cases hitem'
    exact ⟨hfits, hequal⟩
  · rintro ⟨hfits, hequal⟩
    exact ⟨rotationType, i, item, hrotation, hi, hitem, hfits, hequal⟩

omit [DecidableEq α] in
theorem not_shadowed_of_rotation (h : pyGet RotationType.all action.rotation = none) :
    ¬Shadowed env action := by
  rintro ⟨rotationType, _, _, hrotation, -⟩
  rw [h] at hrotation
  cases hrotation

omit [DecidableEq α] in
theorem not_shadowed_of_ge (h : action.index ≥ env.unpackedItems.length) :
    ¬Shadowed env action := by
  rintro ⟨_, i, _, -, hi, -⟩
  rw [pyIndex, if_neg (by omega), if_neg (by omega)] at hi
  cases hi

omit [DecidableEq α] in
theorem not_shadowed_of_get (h : pyGet env.unpackedItems action.index = none) :
    ¬Shadowed env action := by
  rintro ⟨_, i, item, -, hi, hitem, -⟩
  rw [pyGet, hi] at h
  exact Option.some_ne_none _ (hitem.symm.trans h)

/-! ### What a step does -/

inductive Move (α : Type)
  | stay (outcome : Outcome)
  | turn (item : α) (rotationType : RotationType) (outcome : Outcome)
  | pack (item : α) (rotationType : RotationType) (position : Vector)

/-- What a step decides, from the dimensions of the items alone. -/
def move (env : Env α) (action : Action) : Move α :=
  match pyGet RotationType.all action.rotation with
  | none => .stay .raised
  | some rotationType =>
    if action.index ≥ env.unpackedItems.length then .stay (.failure "Index out of range")
    else
      match pyGet env.unpackedItems action.index with
      | none => .stay .raised
      | some item =>
        let d := { env.heap item with rotationType }.getDimension
        if offFootprint env.container.length env.container.width ⟨action.x, action.y, 0⟩ d then
          .turn item rotationType (.failure "Item does not fit")
        else
          match (env.container.heightsOn action.x action.y d.x d.y).max? with
          | none => .turn item rotationType .raised
          | some z => .pack item rotationType ⟨action.x, action.y, z⟩

def Move.apply (env : Env α) : Move α → Env α × Outcome
  | .stay outcome => (env, outcome)
  | .turn item rotationType outcome =>
    ({ env with heap := Function.update env.heap item { env.heap item with rotationType } },
      outcome)
  | .pack item rotationType position =>
    let placed := { env.heap item with rotationType, position }
    let unpackedItems :=
      env.unpackedItems.eraseP fun other => (env.heap other).key = (env.heap item).key
    ({ heap := Function.update env.heap item placed
       container := env.container.put item placed
       unpackedItems
       done := env.done || unpackedItems.isEmpty }, .success)

/-- The test for equality does not see that the item was moved. -/
theorem equal_update {heap : α → Item} {item : α} {placed : Item}
    (hkey : placed.key = (heap item).key) :
    (fun other => decide ((Function.update heap item placed other).key =
      (Function.update heap item placed item).key)) =
      fun other => decide ((heap other).key = (heap item).key) := by
  funext other
  rw [moved_update hkey other, moved_update hkey item]

theorem step_eq (env : Env α) (action : Action) :
    step env action = (move env action).apply env := by
  unfold step move
  cases pyGet RotationType.all action.rotation with
  | none => rfl
  | some rotationType =>
    dsimp only
    split
    · rfl
    cases pyGet env.unpackedItems action.index with
    | none => rfl
    | some item =>
      dsimp only
      rw [addItem_eq]
      simp only [Function.update_self, Function.update_idem]
      cases offFootprint env.container.length env.container.width ⟨action.x, action.y, 0⟩
        { env.heap item with rotationType }.getDimension with
      | true => rfl
      | false =>
        simp only [Bool.false_eq_true, if_false]
        cases (env.container.heightsOn action.x action.y
            { env.heap item with rotationType }.getDimension.x
            { env.heap item with rotationType }.getDimension.y).max? with
        | none => rfl
        | some z =>
          have hkey : ({ env.heap item with
              rotationType, position := ⟨action.x, action.y, z⟩ } : Item).key =
              (env.heap item).key := rfl
          simp only [equal_update hkey, Move.apply]

/-- A step places an item that was in the list, or stays; which of the two is
known before. -/
theorem step_cases (hpos : ∀ r, (env.heap r).Positive) (action : Action) :
    ¬Shadowed env action ∧ Stays env (step env action).1 ∨
    ∃ i item placed, env.unpackedItems[i]? = some item ∧ placed.key = (env.heap item).key ∧
      Rests env.container placed ∧
      (Shadowed env action ↔
        ∃ other ∈ env.unpackedItems.take i, (env.heap other).key = (env.heap item).key) ∧
      (¬Overflows env action → placed.position.z + placed.getDimension.z < 2 ^ 63) ∧
      ∃ done, (step env action).1 =
        ⟨Function.update env.heap item placed, env.container.put item placed,
          env.unpackedItems.eraseP fun other => (env.heap other).key = (env.heap item).key,
          done⟩ := by
  rw [step_eq]
  unfold move
  split
  next hrotation => exact .inl ⟨not_shadowed_of_rotation hrotation, .refl env⟩
  next rotationType hrotation =>
    split
    next hindex => exact .inl ⟨not_shadowed_of_ge hindex, .refl env⟩
    · split
      next hget => exact .inl ⟨not_shadowed_of_get hget, .refl env⟩
      next item hget =>
        obtain ⟨i, hi, hitem⟩ := pyGet_eq_some hget
        have hshadowed := shadowed_iff hrotation hi hitem
        dsimp only
        split
        next hoff =>
          refine .inl ⟨fun h => ?_, Stays.turn hitem rotationType⟩
          exact absurd (hshadowed.mp h).1 (by rw [hoff]; decide)
        next hfits =>
          have hfits := Bool.eq_false_of_not_eq_true hfits
          have hturned : ({ env.heap item with rotationType } : Item).Positive := hpos item
          obtain ⟨hx, hy, -⟩ := hturned.getDimension
          obtain ⟨z, hz⟩ := exists_max? hfits hx hy
          rw [hz]
          refine .inr ⟨i, item, { env.heap item with rotationType, position := ⟨_, _, z⟩ }, hitem,
            rfl, rests_of_max? hturned hfits hz, ?_, fun hlow => ?_, _, rfl⟩
          · rw [hshadowed]
            exact and_iff_right hfits
          · by_contra hhigh
            exact hlow ⟨rotationType, hrotation, item, hget, hfits, z,
              (List.max?_eq_some_iff.mp hz).1, not_lt.mp hhigh⟩

omit [DecidableEq α] in
/-- `remove` takes the item out, or an equal one that stands before it. -/
theorem eraseP_cases {l : List α} {i : ℕ} {item : α} (hitem : l[i]? = some item) {p : α → Bool}
    (hp : p item = true) :
    ∃ front back, l = front ++ item :: back ∧ l.take i = front ∧
      ((∀ other ∈ front, p other = false) ∧ l.eraseP p = front ++ back ∨
        (∃ other ∈ front, p other = true) ∧ item ∈ l.eraseP p) := by
  obtain ⟨hi, hget⟩ := List.getElem?_eq_some_iff.mp hitem
  have hcut : l.take i ++ item :: l.drop (i + 1) = l := by
    rw [← hget, ← List.drop_eq_getElem_cons hi, List.take_append_drop]
  refine ⟨l.take i, l.drop (i + 1), hcut.symm, rfl, ?_⟩
  by_cases hfirst : ∃ other ∈ l.take i, p other = true
  · obtain ⟨other, hother, hpo⟩ := hfirst
    refine .inr ⟨⟨other, hother, hpo⟩, ?_⟩
    rw [← hcut, List.eraseP_append_left hpo _ hother]
    exact List.mem_append_right _ List.mem_cons_self
  · push Not at hfirst
    refine .inl ⟨fun other hother => by simpa using hfirst other hother, ?_⟩
    conv_lhs => rw [← hcut]
    rw [List.eraseP_append_right _ hfirst, List.eraseP_cons_of_pos hp]

/-! ### Runs -/

variable {items : List Item} {length width : ℤ} {s s' : Env (Fin items.length)}

theorem positive_of_key {item item' : Item} (hkey : item'.key = item.key) (h : item.Positive) :
    item'.Positive := by
  simp only [Item.key, Prod.mk.injEq] at hkey
  rw [Item.Positive, hkey.2.1, hkey.2.2.1, hkey.2.2.2]
  exact h

/-- What is asked of the environment after every step. -/
structure Packs (items : List Item) (length width : ℤ) (s : Env (Fin items.length)) : Prop where
  distinct : (s.container.items ++ s.unpackedItems).Nodup
  conserved : ((s.container.items ++ s.unpackedItems).map fun r => (s.heap r).key).Perm
    (items.map Item.key)
  inside : ∀ r ∈ s.container.items,
    offFootprint length width (s.heap r).position (s.heap r).getDimension = false
  disjoint : s.container.items.Pairwise fun r r' => Disjoint (s.heap r).cells (s.heap r').cells

/-- The cells over an item in the container are free. -/
def Under (item : Item) (heightMap : ℤ → ℤ → ℤ) : Prop :=
  ∀ x y, item.position.x ≤ x → x < item.position.x + item.getDimension.x →
    item.position.y ≤ y → y < item.position.y + item.getDimension.y →
    item.position.z + item.getDimension.z ≤ heightMap x y

structure Sound (items : List Item) (length width : ℤ) (s : Env (Fin items.length)) : Prop where
  size : s.container.length = length ∧ s.container.width = width
  ground : ∀ x y, 0 ≤ s.container.heightMap x y
  key : ∀ r, (s.heap r).key = (items.get r).key
  all : (s.container.items ++ s.unpackedItems).Perm (List.finRange items.length)
  inside : ∀ r ∈ s.container.items,
    offFootprint length width (s.heap r).position (s.heap r).getDimension = false
  under : ∀ r ∈ s.container.items, Under (s.heap r) s.container.heightMap
  disjoint : s.container.items.Pairwise fun r r' => Disjoint (s.heap r).cells (s.heap r').cells

/-- An item on the heights is apart from what lies under them. -/
theorem Under.disjoint {container : Container (Fin items.length)} {item other : Item}
    (hother : Under other container.heightMap) (hrests : Rests container item) :
    Disjoint other.cells item.cells := by
  rw [Set.disjoint_left]
  rintro p ⟨hx, hx', hy, hy', -, hz⟩ ⟨gx, gx', gy, gy', gz, -⟩
  have htop := hother p.x p.y hx hx' hy hy'
  have hrest := hrests.above p.x p.y gx gx' gy gy'
  omega

/-- The heights do not sink where an item is placed. -/
theorem Under.put {container : Container (Fin items.length)} {item : Fin items.length}
    {placed other : Item} (hother : Under other container.heightMap)
    (hrests : Rests container placed) (hpos : placed.Positive)
    (htop : int64 (placed.position.z + placed.getDimension.z) =
      placed.position.z + placed.getDimension.z) :
    Under other (container.put item placed).heightMap := by
  intro x y hx hx' hy hy'
  have hunder := hother x y hx hx' hy hy'
  obtain ⟨hdx, hdy, hdz⟩ := hpos.getDimension
  simp only [Container.put, htop]
  split
  next hin =>
    obtain ⟨gx, gx', gy, gy'⟩ := (onSlice_iff hrests.fits hdx hdy x y).mp hin
    have habove := hrests.above x y gx gx' gy gy'
    omega
  · exact hunder

/-- What holds of the items in a container and of a placed one holds of both. -/
theorem forall_placed {α : Type} [DecidableEq α] {heap : α → Item} {refs : List α} {r : α}
    {placed : Item} {P : Item → Prop} (hr : r ∉ refs) (h : ∀ r' ∈ refs, P (heap r'))
    (hplaced : P placed) : ∀ r' ∈ refs ++ [r], P (Function.update heap r placed r') := by
  intro r' hr'
  rcases List.mem_append.mp hr' with hr' | hr'
  · rw [Function.update_of_ne (ne_of_mem_of_not_mem hr' hr)]
    exact h r' hr'
  · obtain rfl := List.mem_singleton.mp hr'
    rw [Function.update_self]
    exact hplaced

namespace Sound

theorem distinct (h : Sound items length width s) :
    (s.container.items ++ s.unpackedItems).Nodup :=
  h.all.nodup_iff.mpr (List.nodup_finRange _)

theorem packs (h : Sound items length width s) : Packs items length width s where
  distinct := h.distinct
  conserved := by
    have hmap := h.all.map fun r => (s.heap r).key
    have hkeys : (List.finRange items.length).map (fun r => (s.heap r).key) =
        items.map Item.key := by
      calc (List.finRange items.length).map (fun r => (s.heap r).key)
          = ((List.finRange items.length).map items.get).map Item.key := by
            rw [List.map_map]
            exact List.map_congr_left fun r _ => h.key r
        _ = items.map Item.key := by rw [List.map_get_finRange]
    rwa [hkeys] at hmap
  inside := h.inside
  disjoint := h.disjoint

theorem positive (h : Sound items length width s) (hpos : ∀ item ∈ items, item.Positive)
    (r : Fin items.length) : (s.heap r).Positive :=
  positive_of_key (h.key r) (hpos (items.get r) (List.get_mem items r))

theorem new (items : List Item) (name : String) (length width : ℤ) :
    Sound items length width (Environment.new items (.new name length width)) where
  size := ⟨rfl, rfl⟩
  ground _ _ := le_rfl
  key _ := rfl
  all := .refl _
  inside _ hr := absurd hr List.not_mem_nil
  under _ hr := absurd hr List.not_mem_nil
  disjoint := .nil

/-- The objects in the container are not among those a step tries. -/
theorem notMem (h : Sound items length width s) {r : Fin items.length}
    (hr : r ∈ s.container.items) : r ∉ s.unpackedItems :=
  (List.disjoint_of_nodup_append h.distinct) hr

theorem stays (h : Sound items length width s) (hstays : Stays s s') :
    Sound items length width s' := by
  have hsame : ∀ r ∈ s'.container.items, s'.heap r = s.heap r := by
    intro r hr
    rw [hstays.container] at hr
    exact hstays.frame r (h.notMem hr)
  refine ⟨?_, ?_, fun r => (hstays.key r).trans (h.key r), ?_, fun r hr => ?_, fun r hr => ?_, ?_⟩
  · rw [hstays.container]
    exact h.size
  · rw [hstays.container]
    exact h.ground
  · rw [hstays.container, hstays.unpackedItems]
    exact h.all
  · rw [hsame r hr]
    exact h.inside r (hstays.container ▸ hr)
  · rw [hsame r hr, hstays.container]
    exact h.under r (hstays.container ▸ hr)
  · rw [hstays.container]
    refine h.disjoint.imp_of_mem fun hr hr' hdisjoint => ?_
    rw [hsame _ (hstays.container ▸ hr), hsame _ (hstays.container ▸ hr')]
    exact hdisjoint

/-- A step that takes out the item it placed. -/
theorem place (h : Sound items length width s) {i : ℕ} {item : Fin items.length}
    {placed : Item} (hitem : s.unpackedItems[i]? = some item)
    (hkey : placed.key = (s.heap item).key) (hrests : Rests s.container placed)
    (hpos : placed.Positive) (hlow : placed.position.z + placed.getDimension.z < 2 ^ 63)
    (hfirst : ∀ other ∈ s.unpackedItems.take i, (s.heap other).key ≠ (s.heap item).key)
    (hheap : s'.heap = Function.update s.heap item placed)
    (hcontainer : s'.container = s.container.put item placed)
    (hunpacked : s'.unpackedItems =
      s.unpackedItems.eraseP fun other => (s.heap other).key = (s.heap item).key) :
    Sound items length width s' := by
  obtain ⟨front, back, hcut, htake, ⟨-, herase⟩ | ⟨⟨other, hother, hequal⟩, -⟩⟩ :=
    eraseP_cases hitem
      (p := fun other => decide ((s.heap other).key = (s.heap item).key)) (decide_eq_true rfl)
  case inr => exact absurd (of_decide_eq_true hequal) (hfirst other (htake ▸ hother))
  have hmem : item ∉ s.container.items := fun hr => h.notMem hr (List.mem_of_getElem? hitem)
  obtain ⟨hdx, hdy, hdz⟩ := hpos.getDimension
  have hbottom : 0 ≤ placed.position.z :=
    (h.ground _ _).trans (hrests.above _ _ le_rfl (by omega) le_rfl (by omega))
  have htop := int64_of_lt (by omega) hlow
  have hitems : s'.container.items = s.container.items ++ [item] := by rw [hcontainer]; rfl
  refine ⟨?_, ?_, fun r => ?_, ?_, ?_, ?_, ?_⟩
  · rw [hcontainer]
    exact h.size
  · intro x y
    rw [hcontainer]
    simp only [Container.put, htop]
    split
    · omega
    · exact h.ground x y
  · rw [hheap]
    exact (moved_update hkey r).trans (h.key r)
  · refine List.Perm.trans ?_ h.all
    rw [hunpacked, herase, hcut, hitems, List.append_assoc, List.singleton_append]
    exact List.perm_middle.symm.append_left _
  · rw [hitems, hheap]
    refine forall_placed (P := fun it =>
      offFootprint length width it.position it.getDimension = false) hmem h.inside ?_
    rw [← h.size.1, ← h.size.2]
    exact hrests.fits
  · rw [hitems, hheap, hcontainer]
    refine forall_placed (P := fun it => Under it (s.container.put item placed).heightMap) hmem
      (fun r hr => (h.under r hr).put hrests hpos htop) ?_
    intro x y hx hx' hy hy'
    have hin := (onSlice_iff hrests.fits hdx hdy x y).mpr ⟨hx, hx', hy, hy'⟩
    simp only [Container.put, htop]
    exact le_of_eq (if_pos hin).symm
  · rw [hitems, hheap]
    have hold : ∀ r ∈ s.container.items,
        Function.update s.heap item placed r = s.heap r :=
      fun r hr => Function.update_of_ne (ne_of_mem_of_not_mem hr hmem) _ _
    refine List.pairwise_append.mpr ⟨?_, List.pairwise_singleton .., ?_⟩
    · refine h.disjoint.imp_of_mem fun hr hr' hdisjoint => ?_
      rw [hold _ hr, hold _ hr']
      exact hdisjoint
    · intro r hr r' hr'
      obtain rfl := List.mem_singleton.mp hr'
      rw [hold r hr, Function.update_self]
      exact (h.under r hr).disjoint hrests

end Sound

/-- A step keeps the items apart, unless it leaves the item it placed in the list. -/
theorem Sound.step (h : Sound items length width s) (hpos : ∀ item ∈ items, item.Positive)
    {action : Action} (hlow : ¬Overflows s action) :
    ¬Shadowed s action ∧ Sound items length width (Environment.step s action).1 ∨
    Shadowed s action ∧ ¬Packs items length width (Environment.step s action).1 := by
  rcases step_cases (h.positive hpos) action with
    ⟨hclear, hstays⟩ | ⟨i, item, placed, hitem, hkey, hrests, hshadowed, hend, done, hstep⟩
  · exact .inl ⟨hclear, h.stays hstays⟩
  by_cases hequal : ∃ other ∈ s.unpackedItems.take i, (s.heap other).key = (s.heap item).key
  · refine .inr ⟨hshadowed.mpr hequal, fun hpacks => ?_⟩
    obtain ⟨front, back, -, htake, ⟨hnone, -⟩ | ⟨-, hmem⟩⟩ :=
      eraseP_cases hitem
        (p := fun other => decide ((s.heap other).key = (s.heap item).key)) (decide_eq_true rfl)
    · obtain ⟨other, hother, heq⟩ := hequal
      exact absurd heq (of_decide_eq_false (hnone other (htake ▸ hother)))
    · have hdistinct := hpacks.distinct
      rw [hstep] at hdistinct
      have hplaced : item ∈ (s.container.put item placed).items :=
        List.mem_append_right _ List.mem_cons_self
      exact List.disjoint_of_nodup_append hdistinct hplaced hmem
  · refine .inl ⟨fun hs => hequal (hshadowed.mp hs), ?_⟩
    have hplaced : placed.Positive := positive_of_key hkey (h.positive hpos item)
    rw [hstep]
    exact h.place hitem hkey hrests hplaced (hend hlow)
      (fun other hother heq => hequal ⟨other, hother, heq⟩) rfl rfl rfl

theorem run_concat (s : Env (Fin items.length)) (actions : List Action) (action : Action) :
    run s (actions ++ [action]) = (Environment.step (run s actions) action).1 := by
  simp [run]

/-- No step of the run ends an item above what the height map can hold. -/
def Low (s : Env (Fin items.length)) (actions : List Action) : Prop :=
  Lib.AlongFold (fun env action => (Environment.step env action).1)
    (fun env action => ¬Overflows env action) s actions

/-- A run is sound while no step is shadowed, or while the items are packed as
they should be. -/
theorem Sound.run (hpos : ∀ item ∈ items, item.Positive) (h : Sound items length width s)
    {actions : List Action} (hlow : Low s actions)
    (hgood : ∀ pre action post, actions = pre ++ action :: post →
      ¬Shadowed (Environment.run s pre) action ∨
        Packs items length width (Environment.run s (pre ++ [action]))) :
    Sound items length width (Environment.run s actions) := by
  induction actions using List.reverseRecOn with
  | nil => exact h
  | append_singleton actions action ih =>
    have hprefix := ih hlow.of_append fun pre action' post heq =>
      hgood pre action' (post ++ [action]) (by rw [heq, List.append_assoc, List.cons_append])
    have hlast := hgood actions action [] rfl
    rw [run_concat] at hlast ⊢
    rcases hprefix.step hpos (hlow actions action [] rfl) with
      ⟨-, hsound⟩ | ⟨hshadowed, hbroken⟩
    · exact hsound
    · rcases hlast with hclear | hpacks
      · exact absurd hshadowed hclear
      · exact absurd hpacks hbroken

/-- In a run whose items end where the height map can hold them, the items are
packed as they should be after every step, if and only if no step places an item
that an equal one stands before. -/
theorem run_packs_iff (items : List Item) (hpos : ∀ item ∈ items, item.Positive) (name : String)
    (length width : ℤ) (actions : List Action)
    (hlow : Low (new items (.new name length width)) actions) :
    (∀ pre post, actions = pre ++ post →
      Packs items length width (run (new items (.new name length width)) pre)) ↔
    ∀ pre action post, actions = pre ++ action :: post →
      ¬Shadowed (run (new items (.new name length width)) pre) action := by
  have hnew := Sound.new items name length width
  constructor
  · rintro h pre action post rfl hshadowed
    have hsound : Sound items length width (run (new items (.new name length width)) pre) :=
      hnew.run hpos hlow.of_append fun pre' action' post' heq' =>
        .inr (h (pre' ++ [action']) (post' ++ action :: post) (by simp [heq']))
    rcases hsound.step hpos (hlow pre action post rfl) with ⟨hclear, -⟩ | ⟨-, hbroken⟩
    · exact hclear hshadowed
    · apply hbroken
      rw [← run_concat]
      exact h (pre ++ [action]) post (by simp)
  · rintro h pre post rfl
    refine (hnew.run hpos hlow.of_append fun pre' action' post' heq' => .inl ?_).packs
    exact h pre' action' (post' ++ post) (by simp [heq'])

/-- Two equal items. -/
def twins : List Item :=
  [⟨"Item", 1, 1, 1, .LWH, ⟨0, 0, 0⟩⟩, ⟨"Item", 1, 1, 1, .LWH, ⟨0, 0, 0⟩⟩]

theorem twins_positive : ∀ item ∈ twins, item.Positive := by
  simp [twins, Item.Positive]

theorem run_packs_iff_twins :
    (∀ pre post, [⟨0, 0, 0, 0⟩, ⟨0, 0, 1, 0⟩] = pre ++ post →
      Packs twins 2 1 (run (new twins (.new "Container" 2 1)) pre)) ↔
    ∀ pre action post, [⟨0, 0, 0, 0⟩, ⟨0, 0, 1, 0⟩] = pre ++ action :: post →
      ¬Shadowed (run (new twins (.new "Container" 2 1)) pre) action :=
  run_packs_iff twins twins_positive "Container" 2 1 [⟨0, 0, 0, 0⟩, ⟨0, 0, 1, 0⟩]
    (Lib.alongFold_cons.mpr ⟨by decide, Lib.alongFold_cons.mpr ⟨by decide, Lib.alongFold_nil⟩⟩)

/-- The second of two equal items is placed, and the first is taken out. -/
theorem not_packs_twins :
    ¬∀ (items : List Item) (name : String) (length width : ℤ) (actions : List Action),
      (∀ item ∈ items, item.Positive) →
      Packs items length width (run (new items (.new name length width)) actions) := by
  intro h
  have hpacks := h twins "Container" 2 1 [⟨1, 0, 0, 0⟩] twins_positive
  exact absurd hpacks.distinct (by decide +kernel)

end Course.Packing.Environment
