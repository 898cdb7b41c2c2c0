import Course.Packing.Item
import Mathlib.Data.List.Perm.Subperm

/-! The packer that puts the items themselves into the containers it is given. `α` are the
references to items, `β` those to containers. -/

open Course.Packing.Item

namespace Course.Packing.Heuristic

structure Container (α : Type) where
  name : String
  length : ℤ
  width : ℤ
  height : ℤ
  items : List α

section Code

variable {α β : Type} [DecidableEq α] [DecidableEq β]

namespace Container

def size (container : Container α) : Vector :=
  ⟨container.length, container.width, container.height⟩

def getVolume (container : Container α) : ℤ :=
  container.length * container.width * container.height

/-- The items after it, and whether the item fits at the position. -/
def checkItemFit (container : Container α) (heap : α → Item) (item : α) (position : Vector) :
    (α → Item) × Bool :=
  if outside container.size position (heap item).getDimension then (heap, false)
  else
    let heap := Function.update heap item { heap item with position }
    (heap, container.items.all fun other => !(heap item).overlap (heap other))

/-- The loop over the rotations that are left. -/
def addItemLoop (container : Container α) (item : α) (position : Vector) :
    List RotationType → (α → Item) → Container α × (α → Item) × Bool
  | [], heap => (container, heap, false)
  | rotation :: rotations, heap =>
    let heap := Function.update heap item { heap item with rotationType := rotation }
    let (heap, fits) := container.checkItemFit heap item position
    if fits then ({ container with items := container.items ++ [item] }, heap, true)
    else addItemLoop container item position rotations heap

def addItem (container : Container α) (heap : α → Item) (item : α) (position : Vector) :
    Container α × (α → Item) × Bool :=
  container.addItemLoop item position RotationType.all heap

end Container

/-- The loop over the corners that are left. -/
def tryCorners (container : Container α) (item : α) :
    List (ℕ × α) → (α → Item) → Container α × (α → Item) × Bool
  | [], heap => (container, heap, false)
  | (axis, other) :: corners, heap =>
    let (container', heap, added) := container.addItem heap item (corner axis (heap other))
    if added then (container', heap, true) else tryCorners container item corners heap

def tryAddItem (container : Container α) (heap : α → Item) (item : α) :
    Container α × (α → Item) × Bool :=
  if container.items.isEmpty then container.addItem heap item ⟨0, 0, 0⟩
  else
    tryCorners container item
      ((List.range 3).flatMap fun axis => container.items.map (axis, ·)) heap

/-- The items are tried one after the other. -/
def tryItems : Container α → List α → (α → Item) → Container α × (α → Item)
  | container, [], heap => (container, heap)
  | container, item :: items, heap =>
    let (container, heap, _) := tryAddItem container heap item
    tryItems container items heap

/-- `none` where the item is not in the list. -/
def remove (item : α) (items : List α) : Option (List α) :=
  if item ∈ items then some (items.erase item) else none

structure State (α β : Type) where
  items : α → Item
  containers : β → Container α

/-- `sort` keeps the order of equal elements, also with `reverse=True`. -/
def sort {γ : Type} (key : γ → ℤ) (reverse : Bool) (l : List γ) : List γ :=
  l.mergeSort fun a b => if reverse then key b ≤ key a else key a ≤ key b

/-- The list of items after a container was filled. -/
def unpacked (distributeItems : Bool) (items unpackedItems : List α) : Option (List α) :=
  if distributeItems then
    items.foldlM (fun unpackedItems item => remove item unpackedItems) unpackedItems
  else some unpackedItems

/-- `none` where it raises an exception. -/
def packLoop (distributeItems : Bool) :
    List β → List α → State α β → Option (List α × State α β)
  | [], unpackedItems, s => some (unpackedItems, s)
  | b :: containers, unpackedItems, s => do
    let (container, heap) := tryItems (s.containers b) unpackedItems s.items
    let unpackedItems ← unpacked distributeItems container.items unpackedItems
    packLoop distributeItems containers unpackedItems
      ⟨heap, Function.update s.containers b container⟩

def sortContainers (s : State α β) (biggerFirst : Bool) (containers : List β) : List β :=
  sort (fun b => (s.containers b).getVolume) biggerFirst containers

def pack (s : State α β) (containers : List β) (items : List α)
    (biggerFirst distributeItems : Bool) : Option (List α × State α β) :=
  packLoop distributeItems (sortContainers s biggerFirst containers)
    (sort (fun i => (s.items i).getVolume) biggerFirst items) s

end Code

/-! ### One item -/

variable {α β : Type} {container : Container α} {heap heap' : α → Item} {item : α} {position : Vector}

/-- What an attempt does: it moves and turns the item, and the container takes it as it is
then, or stays. -/
structure Tried (container : Container α) (heap : α → Item) (item : α)
    (r : Container α × (α → Item) × Bool) : Prop where
  key_eq : (r.2.1 item).key = (heap item).key
  frame : ∀ other ≠ item, r.2.1 other = heap other
  added : r.2.2 = true → r.1 = { container with items := container.items ++ [item] } ∧
    outside container.size (r.2.1 item).position (r.2.1 item).getDimension = false ∧
    ∀ other ∈ container.items, (r.2.1 item).overlap (r.2.1 other) = false
  failed : r.2.2 = false → r.1 = container

theorem Tried.of_failed (h : (heap' item).key = (heap item).key)
    (hframe : ∀ other ≠ item, heap' other = heap other) :
    Tried container heap item (container, heap', false) :=
  ⟨h, hframe, fun h => absurd h Bool.false_ne_true, fun _ => rfl⟩

theorem Tried.after {r : Container α × (α → Item) × Bool} (h : Tried container heap' item r)
    (hkey : (heap' item).key = (heap item).key)
    (hframe : ∀ other ≠ item, heap' other = heap other) : Tried container heap item r where
  key_eq := h.key_eq.trans hkey
  frame other hne := (h.frame other hne).trans (hframe other hne)
  added := h.added
  failed := h.failed

variable [DecidableEq α]

theorem checkItemFit_key :
    ((container.checkItemFit heap item position).1 item).key = (heap item).key := by
  rw [Container.checkItemFit]
  split
  · rfl
  · exact moved_update (key_position ..) item

theorem checkItemFit_frame {other : α} (h : other ≠ item) :
    (container.checkItemFit heap item position).1 other = heap other := by
  rw [Container.checkItemFit]
  split
  · rfl
  · exact Function.update_of_ne h ..

theorem checkItemFit_fits (h : container.checkItemFit heap item position = (heap', true)) :
    outside container.size (heap' item).position (heap' item).getDimension = false ∧
      ∀ other ∈ container.items, (heap' item).overlap (heap' other) = false := by
  rw [Container.checkItemFit] at h
  split at h
  · exact absurd (congrArg Prod.snd h) Bool.false_ne_true
  · rename_i hinside
    obtain ⟨rfl, hall⟩ := Prod.mk.inj h
    refine ⟨?_, fun other hother => ?_⟩
    · rw [Function.update_self]
      exact Bool.eq_false_iff.mpr hinside
    · simpa using List.all_eq_true.mp hall other hother

theorem addItemLoop_tried (rotations : List RotationType) (heap : α → Item) :
    Tried container heap item (container.addItemLoop item position rotations heap) := by
  induction rotations generalizing heap with
  | nil => exact .of_failed rfl fun _ _ => rfl
  | cons rotation rotations ih =>
    let turned := Function.update heap item { heap item with rotationType := rotation }
    have hturned : (turned item).key = (heap item).key := moved_update (key_rotationType ..) item
    have hkey : ((container.checkItemFit turned item position).1 item).key = (heap item).key :=
      checkItemFit_key.trans hturned
    have hframe : ∀ other ≠ item,
        (container.checkItemFit turned item position).1 other = heap other := by
      intro other hne
      rw [checkItemFit_frame hne]
      exact Function.update_of_ne hne ..
    rw [Container.addItemLoop]
    rcases hr : container.checkItemFit turned item position with ⟨heap', _ | _⟩
    · rw [hr] at hkey hframe
      simp only
      exact (ih heap').after hkey hframe
    · rw [hr] at hkey hframe
      simp only
      exact ⟨hkey, hframe, fun _ => ⟨rfl, checkItemFit_fits hr⟩,
        fun h => absurd h.symm Bool.false_ne_true⟩

theorem addItem_tried (heap : α → Item) :
    Tried container heap item (container.addItem heap item position) :=
  addItemLoop_tried RotationType.all heap

theorem tryCorners_tried (corners : List (ℕ × α)) (heap : α → Item) :
    Tried container heap item (tryCorners container item corners heap) := by
  induction corners generalizing heap with
  | nil => exact .of_failed rfl fun _ _ => rfl
  | cons c corners ih =>
    obtain ⟨axis, other⟩ := c
    have htried : Tried container heap item
        (container.addItem heap item (corner axis (heap other))) := addItem_tried heap
    rw [tryCorners]
    rcases hr : container.addItem heap item (corner axis (heap other)) with
      ⟨container', heap', _ | _⟩
    · rw [hr] at htried
      exact (ih heap').after htried.key_eq htried.frame
    · rw [hr] at htried
      exact htried

theorem tryAddItem_tried (container : Container α) (heap : α → Item) (item : α) :
    Tried container heap item (tryAddItem container heap item) := by
  rw [tryAddItem]
  split
  · exact addItem_tried heap
  · exact tryCorners_tried _ heap

theorem checkItemFit_inside (h : (container.checkItemFit heap item position).2 = true) :
    outside container.size position (heap item).getDimension = false := by
  rw [Container.checkItemFit] at h
  split at h
  · exact absurd h Bool.false_ne_true
  · rename_i hinside
    exact Bool.eq_false_iff.mpr hinside

/-- Only an item that fits into it gets into an empty container. -/
theorem addItemLoop_failed {rotations : List RotationType} (heap : α → Item)
    (h : ¬Fits container.size (heap item)) :
    (container.addItemLoop item ⟨0, 0, 0⟩ rotations heap).2.2 = false := by
  induction rotations generalizing heap with
  | nil => rfl
  | cons rotation rotations ih =>
    let turned := Function.update heap item { heap item with rotationType := rotation }
    have hturned : turned item = { heap item with rotationType := rotation } :=
      Function.update_self ..
    have hkey : ((container.checkItemFit turned item ⟨0, 0, 0⟩).1 item).key = (heap item).key := by
      rw [checkItemFit_key, hturned]
      rfl
    rw [Container.addItemLoop]
    rcases hr : container.checkItemFit turned item ⟨0, 0, 0⟩ with ⟨heap', _ | _⟩
    · rw [hr] at hkey
      exact ih heap' fun hfits => h (hfits.of_key hkey.symm)
    · have hinside := checkItemFit_inside (congrArg Prod.snd hr)
      rw [hturned] at hinside
      exact absurd ⟨rotation, hinside⟩ h

theorem tryAddItem_failed (hitems : container.items = []) (h : ¬Fits container.size (heap item)) :
    (tryAddItem container heap item).2.2 = false := by
  rw [tryAddItem, hitems]
  exact addItemLoop_failed heap h

/-! ### One container -/

/-- All items lie in it, and no two overlap. -/
structure Good (container : Container α) (heap : α → Item) : Prop where
  inside : ∀ item ∈ container.items,
    outside container.size (heap item).position (heap item).getDimension = false
  apart : container.items.Pairwise fun item other => (heap item).overlap (heap other) = false

omit [DecidableEq α] in
theorem Good.congr {container : Container α} (h : Good container heap)
    (hframe : ∀ item ∈ container.items, heap' item = heap item) : Good container heap' where
  inside item hmem := by
    rw [hframe item hmem]
    exact h.inside item hmem
  apart := by
    apply h.apart.imp_of_mem
    intro item other hmem hmem'
    rw [hframe item hmem, hframe other hmem']
    exact id

omit [DecidableEq α] in
theorem Tried.good {r : Container α × (α → Item) × Bool} (h : Tried container heap item r)
    (hmem : item ∉ container.items) (hgood : Good container heap) : Good r.1 r.2.1 := by
  have hframe : ∀ other ∈ container.items, r.2.1 other = heap other := by
    intro other hother
    apply h.frame
    rintro rfl
    exact hmem hother
  cases hadded : r.2.2 with
  | true =>
    obtain ⟨hcontainer, hinside, hapart⟩ := h.added hadded
    have hgood' := hgood.congr hframe
    rw [hcontainer]
    refine ⟨fun other hother => ?_, ?_⟩
    · rcases List.mem_append.mp hother with hother | hother
      · exact hgood'.inside other hother
      · rw [List.mem_singleton.mp hother]
        exact hinside
    · apply List.pairwise_append.mpr
      refine ⟨hgood'.apart, List.pairwise_singleton .., fun other hother last hlast => ?_⟩
      rw [List.mem_singleton.mp hlast, overlap_comm]
      exact hapart other hother
  | false =>
    rw [h.failed hadded]
    exact hgood.congr hframe

/-- What `tryItems` leaves: the container takes some of the items, and no others move. -/
structure Filled (container : Container α) (items : List α) (heap : α → Item)
    (r : Container α × (α → Item)) : Prop where
  moved : Moved heap r.2
  frame : ∀ other ∉ items, r.2 other = heap other
  size : r.1.size = container.size
  items : ∃ taken : List α, taken.Sublist items ∧ r.1.items = container.items ++ taken
  good : Good container heap → Good r.1 r.2

theorem tryItems_filled {items : List α} (hnodup : items.Nodup)
    (hdisjoint : ∀ item ∈ items, item ∉ container.items) (heap : α → Item) :
    Filled container items heap (tryItems container items heap) := by
  induction items generalizing container heap with
  | nil => exact ⟨fun _ => rfl, fun _ _ => rfl, rfl, ⟨[], List.Sublist.refl _, by simp [tryItems]⟩, id⟩
  | cons item items ih =>
    have htried := tryAddItem_tried container heap item
    obtain ⟨hmem, hnodup⟩ := List.nodup_cons.mp hnodup
    rw [tryItems]
    generalize tryAddItem container heap item = t at htried
    obtain ⟨container', heap', added⟩ := t
    have hmoved : Moved heap heap' := by
      intro other
      by_cases hne : other = item
      · exact hne ▸ htried.key_eq
      · exact congrArg key (htried.frame other hne)
    have hframe : ∀ other ∉ item :: items, heap' other = heap other :=
      fun other hother => htried.frame other fun heq => hother (heq ▸ List.mem_cons_self)
    have hfirst : item ∉ container.items := hdisjoint item List.mem_cons_self
    have hgood : Good container heap → Good container' heap' := htried.good hfirst
    cases added with
    | true =>
      have hcontainer : container' = { container with items := container.items ++ [item] } :=
        (htried.added rfl).1
      have hdisjoint' : ∀ other ∈ items, other ∉ container'.items := by
        intro other hother hin
        rw [hcontainer] at hin
        rcases List.mem_append.mp hin with hin | hin
        · exact hdisjoint other (List.mem_cons_of_mem _ hother) hin
        · exact hmem (List.mem_singleton.mp hin ▸ hother)
      obtain ⟨hmoved', hframe', hsize, ⟨taken, hsub, hitems⟩, hgood'⟩ := ih hnodup hdisjoint' heap'
      refine ⟨fun other => (hmoved' other).trans (hmoved other), fun other hother => ?_, ?_, ?_,
        hgood' ∘ hgood⟩
      · rw [hframe' other fun h => hother (List.mem_cons_of_mem _ h), hframe other hother]
      · rw [hsize, hcontainer]
        rfl
      · refine ⟨item :: taken, hsub.cons_cons item, ?_⟩
        rw [hitems, hcontainer, List.append_assoc]
        rfl
    | false =>
      have hcontainer : container' = container := htried.failed rfl
      subst hcontainer
      have hdisjoint' : ∀ other ∈ items, other ∉ container'.items :=
        fun other hother => hdisjoint other (List.mem_cons_of_mem _ hother)
      obtain ⟨hmoved', hframe', hsize, ⟨taken, hsub, hitems⟩, hgood'⟩ := ih hnodup hdisjoint' heap'
      refine ⟨fun other => (hmoved' other).trans (hmoved other), fun other hother => ?_, hsize,
        ⟨taken, hsub.cons item, hitems⟩, hgood' ∘ hgood⟩
      rw [hframe' other fun h => hother (List.mem_cons_of_mem _ h), hframe other hother]

theorem tryItems_empty {items : List α} (hitems : container.items = [])
    (h : ∀ item ∈ items, ¬Fits container.size (heap item)) :
    (tryItems container items heap).1.items = [] := by
  induction items generalizing heap with
  | nil => exact hitems
  | cons item items ih =>
    have hadded := tryAddItem_failed hitems (h item List.mem_cons_self)
    have htried := tryAddItem_tried container heap item
    rw [tryItems]
    generalize tryAddItem container heap item = t at hadded htried
    obtain ⟨container', heap', added⟩ := t
    have hcontainer : container' = container := htried.failed hadded
    subst hcontainer
    apply ih
    intro other hother hfits
    have hkey : (heap' other).key = (heap other).key := by
      by_cases hne : other = item
      · exact hne ▸ htried.key_eq
      · exact congrArg key (htried.frame other hne)
    exact h other (List.mem_cons_of_mem _ hother) (hfits.of_key hkey.symm)

/-! ### All containers -/

theorem removeAll_spec {items taken : List α} (hnodup : items.Nodup) (hsub : taken.Subperm items) :
    ∃ items', taken.foldlM (fun items item => remove item items) items = some items' ∧
      items'.Sublist items ∧ items.Perm (taken ++ items') := by
  induction taken generalizing items with
  | nil => exact ⟨items, rfl, List.Sublist.refl _, List.Perm.refl _⟩
  | cons item taken ih =>
    have hmem : item ∈ items := hsub.subset List.mem_cons_self
    have hperm := List.perm_cons_erase hmem
    have hsub' : taken.Subperm (items.erase item) :=
      (List.subperm_cons item).mp (hsub.trans hperm.subperm)
    obtain ⟨items', hall, hsublist, hperm'⟩ := ih (hnodup.erase item) hsub'
    refine ⟨items', ?_, hsublist.trans List.erase_sublist, hperm.trans (hperm'.cons item)⟩
    rw [List.foldlM_cons, remove, if_pos hmem]
    exact hall

variable [DecidableEq β]

/-- Before the containers `rest`, with those of `packed` behind it. -/
structure Inv (distributeItems : Bool) (items : List α) (s₀ : State α β) (packed rest : List β)
    (unpackedItems : List α) (s : State α β) : Prop where
  nodup : unpackedItems.Nodup
  subset : unpackedItems ⊆ items
  moved : Moved s₀.items s.items
  size : ∀ b, (s.containers b).size = (s₀.containers b).size
  good : ∀ b ∈ packed, Good (s.containers b) s.items
  /-- What a container holds is not tried again. -/
  held : rest ≠ [] → ∀ b ∈ packed, ∀ item ∈ (s.containers b).items, item ∉ unpackedItems
  fresh : ∀ b ∈ rest, (s.containers b).items = []
  distributed : distributeItems = true →
    (packed.flatMap (fun b => (s.containers b).items) ++ unpackedItems).Perm items

variable {distributeItems : Bool} {items unpackedItems : List α} {s₀ s : State α β}
  {packed rest : List β} {b : β}

omit [DecidableEq β] in
theorem Inv.remaining (h : Inv distributeItems items s₀ packed (b :: rest) unpackedItems s)
    {taken : List α} (hsub : taken.Sublist unpackedItems) :
    ∃ unpackedItems', unpacked distributeItems taken unpackedItems = some unpackedItems' ∧
      unpackedItems'.Sublist unpackedItems ∧
      (distributeItems = true → unpackedItems.Perm (taken ++ unpackedItems')) := by
  cases distributeItems with
  | true =>
    obtain ⟨unpackedItems', hremove, hsub', hperm⟩ := removeAll_spec h.nodup hsub.subperm
    exact ⟨unpackedItems', hremove, hsub', fun _ => hperm⟩
  | false => exact ⟨unpackedItems, rfl, List.Sublist.refl _, fun h => absurd h Bool.false_ne_true⟩

theorem Inv.step (h : Inv distributeItems items s₀ packed (b :: rest) unpackedItems s)
    (hpacked : b ∉ packed) (hrest : b ∉ rest)
    (hfits : distributeItems = true ∨ rest = [] ∨
      ∀ item ∈ items, ¬Fits (s₀.containers b).size (s₀.items item)) :
    ∃ unpackedItems', unpacked distributeItems
        (tryItems (s.containers b) unpackedItems s.items).1.items unpackedItems =
          some unpackedItems' ∧
      Inv distributeItems items s₀ (packed ++ [b]) rest unpackedItems'
        ⟨(tryItems (s.containers b) unpackedItems s.items).2, Function.update s.containers b
          (tryItems (s.containers b) unpackedItems s.items).1⟩ := by
  have hempty : (s.containers b).items = [] := h.fresh b List.mem_cons_self
  have hdisjoint : ∀ item ∈ unpackedItems, item ∉ (s.containers b).items := by
    rw [hempty]
    exact fun _ _ => List.not_mem_nil
  obtain ⟨hmoved, hframe, hsize, ⟨taken, hsub, htaken⟩, hgood⟩ :=
    tryItems_filled h.nodup hdisjoint s.items
  rw [hempty, List.nil_append] at htaken
  obtain ⟨unpackedItems', hremove, hsub', hperm⟩ := h.remaining hsub
  have hnone : rest ≠ [] → distributeItems = false → taken = [] := by
    intro hne hdistribute
    rcases hfits with hfits | hfits | hfits
    · exact absurd (hfits.symm.trans hdistribute) (by decide)
    · exact absurd hfits hne
    · rw [← htaken]
      apply tryItems_empty hempty
      intro item hitem hfit
      rw [h.size b] at hfit
      exact hfits item (h.subset hitem) (hfit.of_key (h.moved item).symm)
  generalize tryItems (s.containers b) unpackedItems s.items = t at *
  obtain ⟨container, heap⟩ := t
  have hitems : container.items = taken := htaken
  have hother : ∀ b' ≠ b, Function.update s.containers b container b' = s.containers b' :=
    fun b' hne => Function.update_of_ne hne ..
  have hself : Function.update s.containers b container b = container := Function.update_self ..
  have hne : ∀ b' ∈ packed, b' ≠ b := fun b' hb' heq => hpacked (heq ▸ hb')
  refine ⟨unpackedItems', hitems ▸ hremove, ?_⟩
  exact {
    nodup := h.nodup.sublist hsub'
    subset := fun item hitem => h.subset (hsub'.subset hitem)
    moved := fun item => (hmoved item).trans (h.moved item)
    size := by
      intro b'
      by_cases heq : b' = b
      · subst heq
        rw [← h.size b']
        exact (congrArg Container.size hself).trans hsize
      · exact (congrArg Container.size (hother b' heq)).trans (h.size b')
    good := by
      intro b' hb'
      rcases List.mem_append.mp hb' with hb' | hb'
      · show Good (Function.update s.containers b container b') heap
        rw [hother b' (hne b' hb')]
        apply (h.good b' hb').congr
        intro item hitem
        exact hframe item (h.held (List.cons_ne_nil _ _) b' hb' item hitem)
      · rw [List.mem_singleton.mp hb']
        show Good (Function.update s.containers b container b) heap
        rw [hself]
        apply hgood
        refine ⟨fun item hitem => ?_, ?_⟩
        · rw [hempty] at hitem
          exact absurd hitem List.not_mem_nil
        · rw [hempty]
          exact List.Pairwise.nil
    held := by
      intro hrest' b' hb' item hitem
      rcases List.mem_append.mp hb' with hb' | hb'
      · have hitem : item ∈ (s.containers b').items := by
          rw [← hother b' (hne b' hb')]
          exact hitem
        exact fun hmem => h.held (List.cons_ne_nil _ _) b' hb' item hitem (hsub'.subset hmem)
      · rw [List.mem_singleton.mp hb'] at hitem
        have hitem : item ∈ taken := by
          rw [← hitems, ← hself]
          exact hitem
        cases hdistribute : distributeItems with
        | true =>
          have hnodup := (hperm hdistribute).nodup_iff.mp h.nodup
          exact fun hmem => (List.nodup_append.mp hnodup).2.2 item hitem item hmem rfl
        | false =>
          rw [hnone hrest' hdistribute] at hitem
          exact absurd hitem List.not_mem_nil
    fresh := by
      intro b' hb'
      have hne' : b' ≠ b := fun heq => hrest (heq ▸ hb')
      have hfresh := h.fresh b' (List.mem_cons_of_mem _ hb')
      rw [← hother b' hne'] at hfresh
      exact hfresh
    distributed := by
      intro hdistribute
      have hheld : packed.flatMap (fun b' => (Function.update s.containers b container b').items) =
          packed.flatMap fun b' => (s.containers b').items := by
        apply List.flatMap_congr
        intro b' hb'
        rw [hother b' (hne b' hb')]
      show ((packed ++ [b]).flatMap (fun b' => (Function.update s.containers b container b').items) ++
        unpackedItems').Perm items
      rw [List.flatMap_append, hheld, List.flatMap_singleton, hself, hitems, List.append_assoc]
      exact ((hperm hdistribute).symm.append_left _).trans (h.distributed hdistribute) }

theorem packLoop_inv (h : Inv distributeItems items s₀ packed rest unpackedItems s)
    (hnodup : (packed ++ rest).Nodup)
    (hfits : distributeItems = true ∨ ∀ b ∈ rest.dropLast, ∀ item ∈ items,
      ¬Fits (s₀.containers b).size (s₀.items item)) :
    ∃ unpackedItems' s', packLoop distributeItems rest unpackedItems s = some (unpackedItems', s') ∧
      Inv distributeItems items s₀ (packed ++ rest) [] unpackedItems' s' := by
  induction rest generalizing packed unpackedItems s with
  | nil =>
    rw [List.append_nil]
    exact ⟨unpackedItems, s, rfl, h⟩
  | cons b rest ih =>
    have hpacked : b ∉ packed := fun hb =>
      (List.nodup_append.mp hnodup).2.2 b hb b List.mem_cons_self rfl
    have hrest : b ∉ rest :=
      (List.nodup_cons.mp (List.nodup_append.mp hnodup).2.1).1
    have hfits' : distributeItems = true ∨ rest = [] ∨
        ∀ item ∈ items, ¬Fits (s₀.containers b).size (s₀.items item) := by
      apply hfits.imp_right
      intro hfits
      cases rest with
      | nil => exact .inl rfl
      | cons b' rest => exact .inr (hfits b List.mem_cons_self)
    have hlast : distributeItems = true ∨ ∀ b ∈ rest.dropLast, ∀ item ∈ items,
        ¬Fits (s₀.containers b).size (s₀.items item) := by
      apply hfits.imp_right
      intro hfits b' hb'
      cases rest with
      | nil => exact absurd hb' List.not_mem_nil
      | cons b'' rest => exact hfits b' (List.mem_cons_of_mem _ hb')
    obtain ⟨unpackedItems', hremove, hinv⟩ := h.step hpacked hrest hfits'
    obtain ⟨unpackedItems'', s'', hloop, hinv'⟩ := ih hinv (by rwa [List.append_assoc]) hlast
    rw [List.append_assoc] at hinv'
    refine ⟨unpackedItems'', s'', ?_, hinv'⟩
    show Option.bind (unpacked distributeItems
      (tryItems (s.containers b) unpackedItems s.items).1.items unpackedItems) _ = _
    rw [hremove]
    exact hloop

/-! ### The packing -/

/-- All items lie in their containers, as they are turned and placed then, and no two of one
container share a cell; distributed items are in the containers and the list, each once. -/
structure Packs (s : State α β) (containers : List β) (items : List α)
    (distributeItems : Bool) (unpackedItems : List α) (s' : State α β) : Prop where
  inside : ∀ b ∈ containers, ∀ item ∈ (s'.containers b).items,
    (s'.items item).cells ⊆ box ⟨0, 0, 0⟩ (s.containers b).size
  apart : ∀ b ∈ containers, (s'.containers b).items.Pairwise fun item other =>
    Disjoint (s'.items item).cells (s'.items other).cells
  distributed : distributeItems = true →
    (containers.flatMap (fun b => (s'.containers b).items) ++ unpackedItems).Perm items

/-- Nothing fits into a container but the last one, where all are tried in every container. -/
theorem pack_packs {containers : List β} {biggerFirst : Bool} (hitems : items.Nodup)
    (hcontainers : containers.Nodup) (hnew : ∀ b ∈ containers, (s.containers b).items = [])
    (hfits : distributeItems = true ∨ ∀ b ∈ (sortContainers s biggerFirst containers).dropLast,
      ∀ item ∈ items, ¬Fits (s.containers b).size (s.items item)) :
    ∃ unpackedItems s', pack s containers items biggerFirst distributeItems =
      some (unpackedItems, s') ∧
        Packs s containers items distributeItems unpackedItems s' := by
  have hperm : (sortContainers s biggerFirst containers).Perm containers := List.mergeSort_perm ..
  have hperm' : (sort (fun i => (s.items i).getVolume) biggerFirst items).Perm items :=
    List.mergeSort_perm ..
  have hinv : Inv distributeItems items s [] (sortContainers s biggerFirst containers)
      (sort (fun i => (s.items i).getVolume) biggerFirst items) s := {
    nodup := hperm'.nodup_iff.mpr hitems
    subset := hperm'.subset
    moved := fun _ => rfl
    size := fun _ => rfl
    good := fun _ h => absurd h List.not_mem_nil
    held := fun _ _ h => absurd h List.not_mem_nil
    fresh := fun b hb => hnew b (hperm.subset hb)
    distributed := fun _ => hperm' }
  obtain ⟨unpackedItems, s', hpack, h⟩ := packLoop_inv hinv (hperm.nodup_iff.mpr hcontainers) hfits
  rw [List.nil_append] at h
  refine ⟨unpackedItems, s', hpack, fun b hb item hitem => ?_, fun b hb => ?_, fun hdistribute => ?_⟩
  · rw [← h.size b]
    exact box_subset ((h.good b (hperm.symm.subset hb)).inside item hitem)
  · exact (h.good b (hperm.symm.subset hb)).apart.imp disjoint_of_overlap
  · exact ((hperm.symm.flatMap_right _).append_right _).trans (h.distributed hdistribute)

/-- Two boxes and two cubes, in the order in which they are packed. -/
def cubes : State Bool Bool where
  items _ := ⟨"Item", 1, 1, 1, .LWH, ⟨0, 0, 0⟩⟩
  containers
    | false => ⟨"box", 1, 1, 2, []⟩
    | true => ⟨"box", 2, 1, 2, []⟩

/-- The second box moves an item that the first one holds. -/
theorem not_packs_cubes : ¬∀ (s : State Bool Bool) (containers : List Bool) (items : List Bool)
    (biggerFirst distributeItems : Bool), items.Nodup → containers.Nodup →
    (∀ b ∈ containers, (s.containers b).items = []) → (∀ i ∈ items, (s.items i).Positive) →
    ∃ unpackedItems s', pack s containers items biggerFirst distributeItems =
      some (unpackedItems, s') ∧
        Packs s containers items distributeItems unpackedItems s' := by
  intro h
  obtain ⟨unpackedItems, s', hpack, hpacks⟩ := h cubes [false, true] [false, true] false false
    (by decide) (by decide) (by decide) (fun _ _ => ⟨Int.one_pos, Int.one_pos, Int.one_pos⟩)
  have hcontainers : sortContainers cubes false [false, true] = [false, true] :=
    List.mergeSort_of_pairwise (by decide)
  have hitems : sort (fun i => (cubes.items i).getVolume) false [false, true] = [false, true] :=
    List.mergeSort_of_pairwise (by decide)
  have hrun : (packLoop false [false, true] [false, true] cubes).map (fun r =>
      ((r.2.containers false).items, (r.2.items true).position, (r.2.items true).getDimension)) =
      some ([false, true], ⟨1, 0, 0⟩, ⟨1, 1, 1⟩) := by decide +kernel
  rw [pack, hcontainers, hitems] at hpack
  rw [hpack, Option.map_some, Option.some.injEq, Prod.mk.injEq, Prod.mk.injEq] at hrun
  obtain ⟨hheld, hposition, hdimension⟩ := hrun
  have hcell : (⟨1, 0, 0⟩ : Vector) ∈ (s'.items true).cells := by
    rw [Item.cells, hposition, hdimension]
    exact ⟨by decide, by decide, by decide, by decide, by decide, by decide⟩
  have hmem : true ∈ (s'.containers false).items := by
    rw [hheld]
    decide
  have hinside := hpacks.inside false (by decide) true hmem hcell
  exact absurd hinside.2.1 (by decide)

/-- The two cubes are distributed. -/
theorem pack_packs_cubes : ∃ unpackedItems s',
    pack cubes [false, true] [false, true] false true = some (unpackedItems, s') ∧
      Packs cubes [false, true] [false, true] true unpackedItems s' :=
  pack_packs (by decide) (by decide) (by decide) (.inl rfl)

end Course.Packing.Heuristic
