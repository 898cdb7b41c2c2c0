import Course.Packing.Item
import Mathlib.Data.List.Perm.Subperm
import Mathlib.Logic.Function.Basic

/-! The packer that puts copies of the items into as many containers as they need. The
items are objects; `α` are the references to them. The loop calls itself with `apply`,
which leaves no mark of the call's place in the term. -/

open Course.Packing.Item

namespace Course.Packing.Ecommerce

structure Container where
  name : String
  length : ℤ
  width : ℤ
  height : ℤ
  items : List Item

def eq (item other : Item) : Bool :=
  item.name == other.name && item.length == other.length && item.width == other.width &&
    item.height == other.height

namespace Container

def new (name : String) (length width height : ℤ) : Container := ⟨name, length, width, height, []⟩

def size (container : Container) : Vector :=
  ⟨container.length, container.width, container.height⟩

def canFit (container : Container) (item : Item) : Bool :=
  let ⟨length, width, height⟩ := item.getDimension
  [(⟨length, width, height⟩ : Vector), ⟨length, height, width⟩, ⟨width, length, height⟩,
    ⟨width, height, length⟩, ⟨height, length, width⟩, ⟨height, width, length⟩].any
    fun d => d.x ≤ container.length && d.y ≤ container.width && d.z ≤ container.height

/-- The item with its new position, and whether it fits there. -/
def checkItemFit (container : Container) (item : Item) (position : Vector) : Item × Bool :=
  if outside container.size position item.getDimension then (item, false)
  else
    let item := { item with position }
    (item, container.items.all fun other => !item.overlap other)

/-- The loop over the rotations that are left. -/
def addItemLoop (container : Container) (position : Vector) :
    List RotationType → Item → Container × Item × Bool
  | [], item => (container, item, false)
  | rotation :: rotations, item =>
    let (item, fits) := container.checkItemFit { item with rotationType := rotation } position
    if fits then ({ container with items := container.items ++ [item] }, item, true)
    else addItemLoop container position rotations item

def addItem (container : Container) (item : Item) (position : Vector) :
    Container × Item × Bool :=
  container.addItemLoop position RotationType.all item

def validate (container : Container) : Bool :=
  (container.items.all fun item => !outside container.size item.position item.getDimension) &&
    decide (container.items.Pairwise fun item other => item.overlap other = false)

end Container

/-- The loop over the corners that are left. -/
def tryCorners (container : Container) : List (ℕ × Item) → Item → Container × Item × Bool
  | [], item => (container, item, false)
  | (axis, other) :: corners, item =>
    let (container', item, added) := container.addItem item (corner axis other)
    if added then (container', item, true) else tryCorners container corners item

def tryAddItemToContainer (container : Container) (item : Item) : Container × Item × Bool :=
  if container.items.isEmpty then container.addItem item ⟨0, 0, 0⟩
  else tryCorners container ((List.range 3).flatMap fun axis => container.items.map (axis, ·)) item

section Pack

variable {α : Type} [DecidableEq α]

/-- The items are tried one after the other. -/
def tryItems : Container → List α → (α → Item) → Container × (α → Item)
  | container, [], heap => (container, heap)
  | container, r :: items, heap =>
    let (container, item, _) := tryAddItemToContainer container (heap r)
    tryItems container items (Function.update heap r item)

/-- `none` where the item is not in the list. -/
def remove (heap : α → Item) (item : Item) : List α → Option (List α)
  | [] => none
  | r :: items =>
    if eq (heap r) item then some items else (remove heap item items).map (r :: ·)

/-- The containers, and the items as they are left: an attempt moves and turns them.
`none` where it raises an exception, or does not end. -/
def packLoop (container : Container) (heap : α → Item) (items : List α)
    (usedContainers : List Container) : Option (List Container × (α → Item)) :=
  if items.isEmpty then some (usedContainers, heap)
  else do
    let (used, heap) := tryItems
      (.new "Container" container.length container.width container.height) items heap
    let items ← used.items.foldlM (fun items item => remove heap item items) items
    by apply packLoop; exacts [container, heap, items, usedContainers ++ [used]]
partial_fixpoint

/-- `pack`, with the items as it leaves them. `sort` with `reverse=True` keeps the order
of equal items. -/
def packMoving (container : Container) (heap : α → Item) (items : List α) :
    Option (List Container × (α → Item)) :=
  let items := items.filter fun r => container.canFit (heap r)
  packLoop container heap
    (items.mergeSort fun r r' => (heap r').getVolume ≤ (heap r).getVolume) []

def pack (container : Container) (heap : α → Item) (items : List α) : Option (List Container) :=
  (packMoving container heap items).map Prod.fst

end Pack

/-! ### One item -/

/-- What an attempt does: the container takes the item as it is then, or stays. -/
structure Tried (container : Container) (item : Item) (r : Container × Item × Bool) : Prop where
  key_eq : key r.2.1 = key item
  added : r.2.2 = true → r.1 = { container with items := container.items ++ [r.2.1] } ∧
    outside container.size r.2.1.position r.2.1.getDimension = false ∧
    ∀ other ∈ container.items, r.2.1.overlap other = false
  failed : r.2.2 = false → r.1 = container

variable {container : Container} {item : Item} {position : Vector}

theorem checkItemFit_key : key (container.checkItemFit item position).1 = key item := by
  rw [Container.checkItemFit]
  split <;> rfl

theorem checkItemFit_fits {item' : Item}
    (h : container.checkItemFit item position = (item', true)) :
    outside container.size item'.position item'.getDimension = false ∧
      ∀ other ∈ container.items, item'.overlap other = false := by
  rw [Container.checkItemFit] at h
  split at h
  · exact absurd (congrArg Prod.snd h) Bool.false_ne_true
  · rename_i hinside
    obtain ⟨rfl, hall⟩ := Prod.mk.inj h
    have hinside : outside container.size position item.getDimension = false := by
      simpa using hinside
    refine ⟨hinside, fun other hother => ?_⟩
    simpa using List.all_eq_true.mp hall other hother

theorem Tried.of_failed {item' : Item} (h : key item' = key item) :
    Tried container item (container, item', false) :=
  ⟨h, fun h => absurd h Bool.false_ne_true, fun _ => rfl⟩

/-- Attempts that failed change nothing that `key` looks at. -/
theorem Tried.of_key {item' : Item} {r : Container × Item × Bool} (h : Tried container item' r)
    (hkey : key item' = key item) : Tried container item r :=
  ⟨h.key_eq.trans hkey, h.added, h.failed⟩

theorem addItemLoop_tried (rotations : List RotationType) (item : Item) :
    Tried container item (container.addItemLoop position rotations item) := by
  induction rotations generalizing item with
  | nil => exact .of_failed rfl
  | cons rotation rotations ih =>
    have hkey := @checkItemFit_key container { item with rotationType := rotation } position
    rw [Container.addItemLoop]
    rcases hr : container.checkItemFit { item with rotationType := rotation } position with
      ⟨item', _ | _⟩
    · rw [hr] at hkey
      exact (ih item').of_key hkey
    · rw [hr] at hkey
      exact ⟨hkey, fun _ => ⟨rfl, checkItemFit_fits hr⟩, fun h => absurd h.symm Bool.false_ne_true⟩

theorem addItem_tried (item : Item) :
    Tried container item (container.addItem item position) :=
  addItemLoop_tried RotationType.all item

theorem tryCorners_tried (corners : List (ℕ × Item)) (item : Item) :
    Tried container item (tryCorners container corners item) := by
  induction corners generalizing item with
  | nil => exact .of_failed rfl
  | cons corner corners ih =>
    obtain ⟨axis, other⟩ := corner
    have htried := @addItem_tried container (corner axis other) item
    rw [tryCorners]
    rcases hr : container.addItem item (corner axis other) with ⟨container', item', _ | _⟩
    · rw [hr] at htried
      exact (ih item').of_key htried.key_eq
    · rw [hr] at htried
      exact htried

theorem tryAddItemToContainer_tried (container : Container) (item : Item) :
    Tried container item (tryAddItemToContainer container item) := by
  rw [tryAddItemToContainer]
  split
  · exact addItem_tried item
  · exact tryCorners_tried _ item

/-- An empty container takes every item that has a rotation in which it lies in it. -/
theorem addItemLoop_fits {rotations : List RotationType} {rotation : RotationType}
    (hitems : container.items = []) (hmem : rotation ∈ rotations) (item : Item)
    (hfits : outside container.size position
      { item with rotationType := rotation }.getDimension = false) :
    (container.addItemLoop position rotations item).2.2 = true := by
  induction rotations generalizing item with
  | nil => exact absurd hmem List.not_mem_nil
  | cons rotation' rotations ih =>
    have hkey := @checkItemFit_key container { item with rotationType := rotation' } position
    rw [Container.addItemLoop]
    rcases hr : container.checkItemFit { item with rotationType := rotation' } position with
      ⟨item', _ | _⟩
    · rw [hr] at hkey
      have hne : rotation ≠ rotation' := by
        rintro rfl
        rw [Container.checkItemFit, hfits, hitems] at hr
        exact absurd (congrArg Prod.snd hr).symm Bool.false_ne_true
      apply ih ((List.mem_cons.mp hmem).resolve_left hne) item'
      rw [getDimension_of_key hkey]
      exact hfits
    · rfl

theorem fits_of_canFit (h : container.canFit item = true) : Fits container.size item := by
  obtain ⟨d, hd, hle⟩ := List.any_eq_true.mp h
  have hrotation : ∃ rotation, { item with rotationType := rotation }.getDimension = d := by
    simp only [List.mem_cons, List.not_mem_nil, or_false] at hd
    cases hr : item.rotationType <;> simp only [hr] at hd <;>
      rcases hd with rfl | rfl | rfl | rfl | rfl | rfl
    all_goals
      first
      | exact ⟨.LWH, rfl⟩
      | exact ⟨.LHW, rfl⟩
      | exact ⟨.WHL, rfl⟩
      | exact ⟨.WLH, rfl⟩
      | exact ⟨.HLW, rfl⟩
      | exact ⟨.HWL, rfl⟩
  obtain ⟨rotation, rfl⟩ := hrotation
  refine ⟨rotation, ?_⟩
  simp only [Bool.and_eq_true, decide_eq_true_eq] at hle
  simp [outside, Container.size, hle]

theorem tryAddItemToContainer_fits (hitems : container.items = []) (h : Fits container.size item) :
    (tryAddItemToContainer container item).2.2 = true := by
  obtain ⟨rotation, hfits⟩ := h
  rw [tryAddItemToContainer, hitems]
  exact addItemLoop_fits hitems (RotationType.mem_all rotation) item hfits

/-! ### One container -/

/-- All items lie in it, and no two overlap. -/
structure Container.Valid (container : Container) : Prop where
  inside : ∀ item ∈ container.items, outside container.size item.position item.getDimension = false
  apart : container.items.Pairwise fun item other => item.overlap other = false

theorem Container.validate_iff : container.validate = true ↔ container.Valid := by
  simp only [Container.validate, Bool.and_eq_true, List.all_eq_true, Bool.not_eq_true',
    decide_eq_true_eq]
  exact ⟨fun h => ⟨h.1, h.2⟩, fun h => ⟨h.inside, h.apart⟩⟩

theorem Container.Valid.subset (h : container.Valid) (hmem : item ∈ container.items) :
    item.cells ⊆ box ⟨0, 0, 0⟩ container.size :=
  box_subset (h.inside item hmem)

theorem Container.Valid.disjoint (h : container.Valid) :
    container.items.Pairwise fun item other => Disjoint item.cells other.cells :=
  h.apart.imp disjoint_of_overlap

theorem Tried.valid {r : Container × Item × Bool} (h : Tried container item r)
    (hvalid : container.Valid) : r.1.Valid := by
  cases hadded : r.2.2 with
  | true =>
    obtain ⟨hcontainer, hinside, hapart⟩ := h.added hadded
    rw [hcontainer]
    refine ⟨fun other hother => ?_, ?_⟩
    · rcases List.mem_append.mp hother with hother | hother
      · exact hvalid.inside other hother
      · rw [List.mem_singleton.mp hother]
        exact hinside
    · apply List.pairwise_append.mpr
      refine ⟨hvalid.apart, List.pairwise_singleton .., fun other hother last hlast => ?_⟩
      rw [List.mem_singleton.mp hlast, Item.overlap_comm]
      exact hapart other hother
  | false =>
    rw [h.failed hadded]
    exact hvalid

section Heap

variable {α : Type} {heap heap' : α → Item} {items : List α} {r : α}

/-- What `tryItems` leaves in the container: what was there, and some of the items. -/
structure Filled (container : Container) (items : List α) (heap : α → Item)
    (r : Container × (α → Item)) : Prop where
  moved : Moved heap r.2
  size : r.1.length = container.length ∧ r.1.width = container.width ∧
    r.1.height = container.height
  keys : ∃ taken : List α, taken.Sublist items ∧
    r.1.items.map key = container.items.map key ++ taken.map (key ∘ heap)
  valid : container.Valid → r.1.Valid

theorem tryItems_filled [DecidableEq α] (container : Container) (items : List α) (heap : α → Item) :
    Filled container items heap (tryItems container items heap) := by
  induction items generalizing container heap with
  | nil => exact ⟨fun _ => rfl, ⟨rfl, rfl, rfl⟩, ⟨[], List.Sublist.refl _, by simp [tryItems]⟩, id⟩
  | cons r items ih =>
    have htried := tryAddItemToContainer_tried container (heap r)
    rw [tryItems]
    generalize tryAddItemToContainer container (heap r) = t at htried
    obtain ⟨container', item', added⟩ := t
    have hmoved : Moved heap (Function.update heap r item') := moved_update htried.key_eq
    have hfilled := ih container' (Function.update heap r item')
    have hkeys : key ∘ Function.update heap r item' = key ∘ heap := funext hmoved
    obtain ⟨taken, hsub, heq⟩ := hfilled.keys
    rw [hkeys] at heq
    cases added with
    | true =>
      obtain ⟨hcontainer, -⟩ := htried.added rfl
      have hcontainer : container' = { container with items := container.items ++ [item'] } :=
        hcontainer
      refine ⟨fun r' => (hfilled.moved r').trans (hmoved r'), ?_, ?_, ?_⟩
      · have hsize := hfilled.size
        rw [hcontainer] at hsize ⊢
        exact hsize
      · refine ⟨r :: taken, hsub.cons_cons r, heq.trans ?_⟩
        have hkey : key item' = key (heap r) := htried.key_eq
        rw [hcontainer, List.map_append, List.append_assoc, List.map_singleton, hkey]
        rfl
      · exact fun hvalid => hfilled.valid (htried.valid hvalid)
    | false =>
      have hcontainer : container' = container := htried.failed rfl
      subst hcontainer
      exact ⟨fun r' => (hfilled.moved r').trans (hmoved r'), hfilled.size,
        ⟨taken, hsub.cons r, heq⟩, hfilled.valid⟩

/-- The first item that fits is taken. -/
theorem tryItems_ne_nil [DecidableEq α] (hitems : container.items = [])
    (h : Fits container.size (heap r)) :
    (tryItems container (r :: items) heap).1.items ≠ [] := by
  have hadded := tryAddItemToContainer_fits hitems h
  have htried := tryAddItemToContainer_tried container (heap r)
  rw [tryItems]
  generalize tryAddItemToContainer container (heap r) = t at hadded htried
  obtain ⟨container', item', added⟩ := t
  obtain ⟨taken, -, heq⟩ := (tryItems_filled container' items (Function.update heap r item')).keys
  have hcontainer : container' = { container with items := container.items ++ [item'] } :=
    (htried.added hadded).1
  intro hnil
  rw [hnil, hcontainer] at heq
  simp at heq

/-! ### Removal -/

theorem eq_iff (item other : Item) : eq item other = true ↔ key item = key other := by
  simp [eq, key, and_assoc]

theorem remove_spec (h : key item ∈ items.map (key ∘ heap)) :
    ∃ items', remove heap item items = some items' ∧
      (items.map (key ∘ heap)).Perm (key item :: items'.map (key ∘ heap)) := by
  induction items with
  | nil => exact absurd h List.not_mem_nil
  | cons r items ih =>
    rw [remove]
    cases heq : eq (heap r) item with
    | true =>
      refine ⟨items, rfl, ?_⟩
      rw [← (eq_iff _ _).mp heq]
      exact List.Perm.refl _
    | false =>
      have hne : key item ≠ key (heap r) := fun hkey =>
        absurd ((eq_iff _ _).mpr hkey.symm) (Bool.eq_false_iff.mp heq)
      obtain ⟨items', hremove, hperm⟩ := ih ((List.mem_cons.mp h).resolve_left hne)
      refine ⟨r :: items', by rw [hremove]; rfl, ?_⟩
      exact (hperm.cons _).trans (List.Perm.swap ..)

theorem removeAll_spec (removed : List Item)
    (h : (removed.map key).Subperm (items.map (key ∘ heap))) :
    ∃ items', removed.foldlM (fun items item => remove heap item items) items = some items' ∧
      (items.map (key ∘ heap)).Perm (removed.map key ++ items'.map (key ∘ heap)) := by
  induction removed generalizing items with
  | nil => exact ⟨items, rfl, List.Perm.refl _⟩
  | cons item removed ih =>
    have hmem : key item ∈ items.map (key ∘ heap) := h.subset List.mem_cons_self
    obtain ⟨items₁, hremove, hperm⟩ := remove_spec hmem
    have hsub : (removed.map key).Subperm (items₁.map (key ∘ heap)) := by
      apply (List.subperm_cons (key item)).mp
      exact h.trans hperm.subperm
    obtain ⟨items', hall, hperm'⟩ := ih hsub
    refine ⟨items', ?_, hperm.trans (hperm'.cons _)⟩
    rw [List.foldlM_cons, hremove]
    exact hall

/-! ### All containers -/

/-- The containers are valid, have the size asked for, and hold the items, each once. -/
structure Packed (container : Container) (items : List α) (heap : α → Item)
    (containers : List Container) : Prop where
  size : ∀ used ∈ containers, used.length = container.length ∧ used.width = container.width ∧
    used.height = container.height
  valid : ∀ container ∈ containers, container.validate = true
  keys : (containers.flatMap fun container => container.items.map key).Perm
    (items.map (key ∘ heap))

theorem packLoop_packed [DecidableEq α] (hfits : ∀ r ∈ items, Fits container.size (heap r))
    (usedContainers : List Container) :
    ∃ containers heap', packLoop container heap items usedContainers =
      some (usedContainers ++ containers, heap') ∧ Moved heap heap' ∧
        Packed container items heap containers := by
  induction hn : items.length using Nat.strongRecOn generalizing items heap usedContainers with
  | ind n ih =>
    cases items with
    | nil =>
      rw [packLoop]
      exact ⟨[], heap, by simp, fun _ => rfl, by simp, by simp, List.Perm.refl _⟩
    | cons r items =>
      obtain ⟨hmoved, hsize, ⟨taken, hsub, heq⟩, hvalid⟩ := tryItems_filled
        (.new "Container" container.length container.width container.height) (r :: items) heap
      have hne := @tryItems_ne_nil
        (.new "Container" container.length container.width container.height) α heap items r _ rfl
        (hfits r List.mem_cons_self)
      rw [packLoop, List.isEmpty_cons, if_neg Bool.false_ne_true]
      generalize tryItems (.new "Container" container.length container.width container.height)
        (r :: items) heap = t at hmoved hsize heq hvalid hne
      obtain ⟨used, heap'⟩ := t
      have hkeys : key ∘ heap' = key ∘ heap := funext hmoved
      have hused : used.items.map key = taken.map (key ∘ heap') := by
        rw [hkeys]
        exact heq
      have hsubperm : (used.items.map key).Subperm ((r :: items).map (key ∘ heap')) := by
        rw [hused]
        exact (hsub.map _).subperm
      obtain ⟨items', hremove, hperm⟩ := removeAll_spec used.items hsubperm
      have hlen : items'.length < n := by
        have hlength := hperm.length_eq
        have hpos : 0 < used.items.length := List.length_pos_iff.mpr hne
        simp only [List.length_append, List.length_map] at hlength
        omega
      have hfits' : ∀ r' ∈ items', Fits container.size (heap' r') := by
        intro r' hr'
        have hmem : key (heap' r') ∈ (r :: items).map (key ∘ heap') := by
          apply hperm.mem_iff.mpr
          exact List.mem_append_right _ (List.mem_map_of_mem hr')
        obtain ⟨r'', hr'', hkey⟩ := List.mem_map.mp hmem
        apply (hfits r'' hr'').of_key
        exact hkey.symm.trans (hmoved r'')
      obtain ⟨containers, heap'', hloop, hmoved', hpacked⟩ :=
        ih _ hlen hfits' (usedContainers ++ [used]) rfl
      refine ⟨used :: containers, heap'', ?_, fun r => (hmoved' r).trans (hmoved r), ?_, ?_, ?_⟩
      · simp only [hremove]
        refine hloop.trans ?_
        rw [List.append_assoc, List.singleton_append]
      · intro c hc
        rcases List.mem_cons.mp hc with rfl | hc
        · exact hsize
        · exact hpacked.size c hc
      · intro c hc
        rcases List.mem_cons.mp hc with rfl | hc
        · exact Container.validate_iff.mpr (hvalid ⟨fun _ h => absurd h List.not_mem_nil, .nil⟩)
        · exact hpacked.valid c hc
      · rw [List.flatMap_cons, ← hkeys]
        exact (hpacked.keys.append_left _).trans hperm.symm

end Heap

theorem packMoving_packed {α : Type} [DecidableEq α] (container : Container) (heap : α → Item)
    (items : List α) :
    ∃ containers heap', packMoving container heap items = some (containers, heap') ∧
      Moved heap heap' ∧
      Packed container (items.filter fun r => container.canFit (heap r)) heap containers := by
  have hperm := List.mergeSort_perm (items.filter fun r => container.canFit (heap r))
    fun r r' => (heap r').getVolume ≤ (heap r).getVolume
  have hfits : ∀ r ∈ (items.filter fun r => container.canFit (heap r)).mergeSort
      fun r r' => (heap r').getVolume ≤ (heap r).getVolume, Fits container.size (heap r) := by
    intro r hr
    exact fits_of_canFit (List.mem_filter.mp (hperm.mem_iff.mp hr)).2
  obtain ⟨containers, heap', hpack, hmoved, hsize, hvalid, hkeys⟩ := packLoop_packed hfits []
  exact ⟨containers, heap', hpack, hmoved, hsize, hvalid, hkeys.trans (hperm.map _)⟩

/-- Every packing ends. -/
theorem pack_packed {α : Type} [DecidableEq α] (container : Container) (heap : α → Item)
    (items : List α) :
    ∃ containers, pack container heap items = some containers ∧
      Packed container (items.filter fun r => container.canFit (heap r)) heap containers := by
  obtain ⟨containers, heap', hpack, -, hpacked⟩ := packMoving_packed container heap items
  exact ⟨containers, by rw [pack, hpack]; rfl, hpacked⟩

end Course.Packing.Ecommerce
