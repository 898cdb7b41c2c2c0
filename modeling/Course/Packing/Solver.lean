import Course.Packing.Ecommerce
import Mathlib.Algebra.Order.BigOperators.Group.List
import Mathlib.Algebra.Order.Ring.Rat
import Mathlib.Data.Rat.Floor
import Mathlib.Data.List.FinRange
import Mathlib.Data.List.Flatten

/-! The solver, which packs the items of a table batch by batch into containers of
several sizes. -/

open Course.Packing.Item

namespace Course.Packing.Ecommerce

namespace Container

def getVolume (container : Container) : ℤ := container.length * container.width * container.height

/-- The ratios are exact. -/
def getFillingRatio (container : Container) : ℚ :=
  if container.items.isEmpty then 0
  else ((container.items.map Item.getVolume).sum : ℤ) / (container.getVolume : ℤ)

end Container

/-! ### The table -/

/-- A row, with the dimensions in centimetres. -/
structure Row where
  skuCode : String
  length : ℚ
  width : ℚ
  height : ℚ
  qty : ℤ

def Row.item (row : Row) : Item where
  name := row.skuCode
  length := ⌈row.length * 10⌉
  width := ⌈row.width * 10⌉
  height := ⌈row.height * 10⌉
  rotationType := .LWH
  position := ⟨0, 0, 0⟩

def containerSizes : List Vector :=
  [⟨350, 230, 130⟩, ⟨370, 260, 130⟩, ⟨380, 260, 130⟩, ⟨400, 280, 160⟩, ⟨420, 300, 180⟩,
    ⟨420, 300, 400⟩, ⟨520, 400, 170⟩, ⟨540, 450, 360⟩]

def containers : List Container :=
  containerSizes.map fun size => .new "Container" size.x size.y size.z

/-- The items to pack, in the order of the table, and the codes of those that no
container can take. -/
def loadRows : List Row → List Item × List String
  | [] => ([], [])
  | row :: rows =>
    let (items, impossibleItems) := loadRows rows
    if containers.any fun container => container.canFit row.item then
      (List.replicate row.qty.toNat row.item ++ items, impossibleItems)
    else (items, row.skuCode :: impossibleItems)

def load (rows : List Row) : List Item × List String :=
  let (items, impossibleItems) := loadRows rows
  (items.mergeSort fun item item' => item.getVolume ≤ item'.getVolume, impossibleItems)

/-! ### Batches -/

section Batches

variable {α : Type} [DecidableEq α]

def packBatchSizeLarge : ℕ := 16

def packBatchSizeMiddle : ℕ := 32

def packBatchSizeSmall : ℕ := 96

def fillingRatioThreshold : ℚ := 65 / 100

def getBatch (unpackedItems : List α) : List α :=
  let n := unpackedItems.length
  if n ≥ packBatchSizeLarge + packBatchSizeMiddle + packBatchSizeSmall then
    let smallItems := unpackedItems.take packBatchSizeSmall
    let largeItems := unpackedItems.drop (n - packBatchSizeLarge)
    let rest := (unpackedItems.take (n - packBatchSizeLarge)).drop packBatchSizeSmall
    let startIndex := rest.length / 2 - packBatchSizeMiddle / 2
    let middleItems := (rest.drop startIndex).take packBatchSizeMiddle
    smallItems ++ middleItems ++ largeItems
  else unpackedItems

/-- The packers get the same items, one after the other. -/
def packAll (batch : List α) :
    List Container → (α → Item) → Option (List (List Container) × (α → Item))
  | [], heap => some ([], heap)
  | container :: containers, heap => do
    let (result, heap) ← packMoving container heap batch
    let (results, heap) ← packAll batch containers heap
    some (result :: results, heap)

def averageRatio (result : List Container) : ℚ :=
  (result.map Container.getFillingRatio).sum / result.length

/-- The first of the best results, of each of which `choose` leaves some containers. -/
def bestResult (choose : List Container → List Container) :
    List (List Container) → List Container × ℚ → List Container × ℚ
  | [], best => best
  | result :: results, (best, bestRatio) =>
    let chosen := choose result
    if chosen.isEmpty then bestResult choose results (best, bestRatio)
    else if averageRatio chosen > bestRatio then
      bestResult choose results (chosen, averageRatio chosen)
    else bestResult choose results (best, bestRatio)

/-- The items that are not packed yet, and the containers so far. -/
structure Progress (α : Type) where
  heap : α → Item
  unpackedItems : List α
  usedContainers : List Container

/-- A packing loop, which does `stop` when there is no best result. -/
def packBatches (choose : List Container → List Container)
    (stop : Progress α → Option (Progress α)) (s : Progress α) : Option (Progress α) :=
  if s.unpackedItems.isEmpty then some s
  else do
    let (results, heap) ← packAll (getBatch s.unpackedItems) containers s.heap
    let (best, _) := bestResult choose results ([], 0)
    if best.isEmpty then stop { s with heap }
    else do
      let unpackedItems ← (best.flatMap Container.items).foldlM
        (fun items item => remove heap item items) s.unpackedItems
      by apply packBatches; exacts [choose, stop, ⟨heap, unpackedItems, s.usedContainers ++ best⟩]
partial_fixpoint

/-- The loop with the threshold ends when all containers are too empty. -/
def packFilled (s : Progress α) : Option (Progress α) :=
  packBatches (fun result => result.filter fun container =>
    container.getFillingRatio > fillingRatioThreshold) some s

/-- The loop without restrictions raises an exception instead. -/
def packRemaining (s : Progress α) : Option (Progress α) :=
  packBatches id (fun _ => none) s

end Batches

/-- Both loops, for copies of the items. -/
def packItems (items : List Item) : Option (Progress (Fin items.length)) := do
  let s ← packFilled ⟨items.get, List.finRange items.length, []⟩
  packRemaining s

/-! ### What fits -/

variable {container : Container} {item item' : Item}

theorem canFit_iff : container.canFit item = true ↔ Fits container.size item := by
  refine ⟨fits_of_canFit, ?_⟩
  rintro ⟨rotation, hfits⟩
  apply List.any_eq_true.mpr
  refine ⟨{ item with rotationType := rotation }.getDimension, ?_, ?_⟩
  · cases hr : item.rotationType
    all_goals
      cases rotation
      all_goals simp [getDimension]
  · simpa [outside, Container.size] using hfits

theorem canFit_of_key (h : key item' = key item) :
    container.canFit item' = container.canFit item := by
  rw [Bool.eq_iff_iff, canFit_iff, canFit_iff]
  exact ⟨fun hfits => hfits.of_key h.symm, fun hfits => hfits.of_key h⟩

/-- An item that the loops can pack. -/
def Packable (item : Item) : Prop :=
  item.Positive ∧ ∃ container ∈ containers, container.canFit item = true

theorem Packable.of_key (h : Packable item) (hkey : key item' = key item) : Packable item' := by
  obtain ⟨hpos, container, hmem, hfits⟩ := h
  refine ⟨?_, container, hmem, (canFit_of_key hkey).trans hfits⟩
  obtain ⟨-, hl, hw, hh⟩ := by simpa only [key, Prod.mk.injEq] using hkey
  obtain ⟨hlpos, hwpos, hhpos⟩ := hpos
  exact ⟨hl ▸ hlpos, hw ▸ hwpos, hh ▸ hhpos⟩

theorem containers_getVolume : ∀ container ∈ containers, 0 < container.getVolume := by
  decide

/-! ### Batches -/

variable {α : Type}

theorem getBatch_sublist (l : List α) : (getBatch l).Sublist l := by
  rw [getBatch]
  simp only
  split
  next hlen =>
    simp only [packBatchSizeLarge, packBatchSizeMiddle, packBatchSizeSmall] at hlen ⊢
    have hsmall : l.take 96 = (l.take (l.length - 16)).take 96 := by
      rw [List.take_take, Nat.min_eq_left (by omega)]
    have hall : l.take 96 ++ (l.take (l.length - 16)).drop 96 ++ l.drop (l.length - 16) = l := by
      rw [hsmall, List.take_append_drop, List.take_append_drop]
    conv_rhs => rw [← hall]
    refine .append (.append (List.Sublist.refl _) ?_) (List.Sublist.refl _)
    exact (List.take_sublist ..).trans (List.drop_sublist ..)
  next => exact List.Sublist.refl l

theorem getBatch_ne_nil {l : List α} (h : l ≠ []) : getBatch l ≠ [] := by
  rw [getBatch]
  simp only
  split
  · simp [packBatchSizeSmall, h]
  · exact h

/-! ### The best result -/

variable {choose : List Container → List Container} {results : List (List Container)}
  {result : List Container}

theorem averageRatio_nil : averageRatio [] = 0 := by
  simp [averageRatio]

/-- The best result is one of those above the ratio, if there are any. -/
theorem bestResult_spec (best : List Container) {ratio : ℚ} (hratio : 0 ≤ ratio) :
    ((bestResult choose results (best, ratio)).1 = best ∧
      ∀ result ∈ results, averageRatio (choose result) ≤ ratio) ∨
    ∃ result ∈ results, (bestResult choose results (best, ratio)).1 = choose result ∧
      ratio < averageRatio (choose result) := by
  induction results generalizing best ratio with
  | nil => exact .inl ⟨rfl, fun _ h => absurd h List.not_mem_nil⟩
  | cons result results ih =>
    rw [bestResult]
    have hskip : averageRatio (choose result) ≤ ratio →
        (((bestResult choose results (best, ratio)).1 = best ∧
          ∀ r ∈ result :: results, averageRatio (choose r) ≤ ratio) ∨
        ∃ r ∈ result :: results, (bestResult choose results (best, ratio)).1 = choose r ∧
          ratio < averageRatio (choose r)) := by
      intro hle
      rcases ih best hratio with ⟨hbest, hall⟩ | ⟨r, hr, hbest, hlt⟩
      · exact .inl ⟨hbest, List.forall_mem_cons.mpr ⟨hle, hall⟩⟩
      · exact .inr ⟨r, List.mem_cons_of_mem _ hr, hbest, hlt⟩
    split
    next hnil =>
      apply hskip
      rw [List.isEmpty_iff.mp hnil, averageRatio_nil]
      exact hratio
    next =>
      split
      next hgt =>
        rcases ih (choose result) (hratio.trans hgt.le) with ⟨hbest, -⟩ | ⟨r, hr, hbest, hlt⟩
        · exact .inr ⟨result, List.mem_cons_self, hbest, hgt⟩
        · exact .inr ⟨r, List.mem_cons_of_mem _ hr, hbest, hgt.trans hlt⟩
      next hle => exact hskip (not_lt.mp hle)

theorem exists_item_of_averageRatio_pos (h : 0 < averageRatio result) :
    result.flatMap Container.items ≠ [] := by
  intro hnil
  rw [List.flatMap_eq_nil_iff] at hnil
  have hsum : (result.map Container.getFillingRatio).sum = 0 := by
    apply List.sum_eq_zero
    intro x hx
    obtain ⟨container, hcontainer, rfl⟩ := List.mem_map.mp hx
    simp [Container.getFillingRatio, hnil container hcontainer]
  rw [averageRatio, hsum, zero_div] at h
  exact absurd h (lt_irrefl 0)

theorem getVolume_pos (h : item.Positive) : 0 < item.getVolume :=
  mul_pos (mul_pos h.1 h.2.1) h.2.2

theorem getFillingRatio_nonneg (hvolume : 0 < container.getVolume)
    (hpos : ∀ item ∈ container.items, item.Positive) : 0 ≤ container.getFillingRatio := by
  rw [Container.getFillingRatio]
  split
  · exact le_refl 0
  · have hsum : 0 ≤ (container.items.map Item.getVolume).sum := by
      apply List.sum_nonneg
      intro x hx
      obtain ⟨item, hitem, rfl⟩ := List.mem_map.mp hx
      exact (getVolume_pos (hpos item hitem)).le
    exact div_nonneg (Int.cast_nonneg hsum) (Int.cast_nonneg hvolume.le)

theorem getFillingRatio_pos (hvolume : 0 < container.getVolume)
    (hpos : ∀ item ∈ container.items, item.Positive) (hne : container.items ≠ []) :
    0 < container.getFillingRatio := by
  rw [Container.getFillingRatio, if_neg (by simpa using hne)]
  have hsum : 0 < (container.items.map Item.getVolume).sum := by
    apply List.sum_pos
    · intro x hx
      obtain ⟨item, hitem, rfl⟩ := List.mem_map.mp hx
      exact getVolume_pos (hpos item hitem)
    · simpa using hne
  exact div_pos (Int.cast_pos.mpr hsum) (Int.cast_pos.mpr hvolume)

theorem averageRatio_pos (hvolume : ∀ container ∈ result, 0 < container.getVolume)
    (hpos : ∀ container ∈ result, ∀ item ∈ container.items, item.Positive)
    (hne : result.flatMap Container.items ≠ []) : 0 < averageRatio result := by
  obtain ⟨container, hcontainer, hitems⟩ : ∃ container ∈ result, container.items ≠ [] := by
    by_contra hall
    push Not at hall
    exact hne (List.flatMap_eq_nil_iff.mpr hall)
  have hone := getFillingRatio_pos (hvolume container hcontainer) (hpos container hcontainer) hitems
  have hnonneg : ∀ x ∈ result.map Container.getFillingRatio, 0 ≤ x := by
    intro x hx
    obtain ⟨c, hc, rfl⟩ := List.mem_map.mp hx
    exact getFillingRatio_nonneg (hvolume c hc) (hpos c hc)
  have hsum := hone.trans_le
    (List.single_le_sum hnonneg _ (List.mem_map_of_mem hcontainer))
  have hlen : 0 < result.length := List.length_pos_of_mem hcontainer
  exact div_pos hsum (Nat.cast_pos.mpr hlen)

/-! ### Packers -/

variable {heap heap' : α → Item} {items batch : List α} {used : List Container}

theorem Packed.of_moved (hmoved : Moved heap heap') (h : Packed container items heap' result) :
    Packed container items heap result where
  size := h.size
  valid := h.valid
  keys := by
    rw [← show key ∘ heap' = key ∘ heap from funext hmoved]
    exact h.keys

theorem exists_of_forall₂ {β γ : Type} {R : β → γ → Prop} {l : List β} {l' : List γ} {x : β}
    (h : List.Forall₂ R l l') (hmem : x ∈ l) : ∃ y ∈ l', R x y := by
  induction h with
  | nil => cases hmem
  | cons hxy _ ih =>
    rcases List.mem_cons.mp hmem with rfl | hmem
    · exact ⟨_, List.mem_cons_self, hxy⟩
    · obtain ⟨y, hy, hxy⟩ := ih hmem
      exact ⟨y, List.mem_cons_of_mem _ hy, hxy⟩

variable [DecidableEq α]

/-- What the packers make of a batch, each of the items that its container can take. -/
def Results (heap : α → Item) (batch : List α) : List Container → List (List Container) → Prop :=
  List.Forall₂ fun container result =>
    Packed container (batch.filter fun r => container.canFit (heap r)) heap result

theorem packAll_spec (batch : List α) (cs : List Container) (heap : α → Item) :
    ∃ results heap', packAll batch cs heap = some (results, heap') ∧ Moved heap heap' ∧
      Results heap batch cs results := by
  induction cs generalizing heap with
  | nil => exact ⟨[], heap, rfl, fun _ => rfl, .nil⟩
  | cons container cs ih =>
    obtain ⟨result, heap₁, hpack, hmoved₁, hpacked⟩ := packMoving_packed container heap batch
    obtain ⟨results, heap', hall, hmoved, hresults⟩ := ih heap₁
    refine ⟨result :: results, heap', ?_, fun r => (hmoved r).trans (hmoved₁ r), ?_⟩
    · simp [packAll, hpack, hall]
    · refine .cons hpacked (hresults.imp fun container result hpacked => ?_)
      have hfit : (fun r => container.canFit (heap₁ r)) = fun r => container.canFit (heap r) :=
        funext fun r => canFit_of_key (hmoved₁ r)
      rw [hfit] at hpacked
      exact hpacked.of_moved hmoved₁

omit [DecidableEq α] in
theorem Results.of_container {cs : List Container} (h : Results heap batch cs results)
    (hmem : container ∈ cs) : ∃ result ∈ results,
      Packed container (batch.filter fun r => container.canFit (heap r)) heap result := by
  obtain ⟨result, hresult, hpacked⟩ := exists_of_forall₂ h hmem
  exact ⟨result, hresult, hpacked⟩

omit [DecidableEq α] in
theorem Results.of_result {cs : List Container} (h : Results heap batch cs results)
    (hmem : result ∈ results) : ∃ container ∈ cs,
      Packed container (batch.filter fun r => container.canFit (heap r)) heap result := by
  obtain ⟨container, hcontainer, hpacked⟩ := exists_of_forall₂ (List.Forall₂.flip h) hmem
  exact ⟨container, hcontainer, hpacked⟩

/-! ### The loops -/

variable {all : List (String × ℤ × ℤ × ℤ)} {s s' : Progress α}
  {stop : Progress α → Option (Progress α)}

/-- The items are packed into valid containers, or wait to be packed. -/
structure Kept (all : List (String × ℤ × ℤ × ℤ)) (s : Progress α) : Prop where
  keys : all.Perm
    ((s.usedContainers.flatMap fun container => container.items.map key) ++
      s.unpackedItems.map (key ∘ s.heap))
  valid : ∀ container ∈ s.usedContainers, container.validate = true ∧ 0 < container.getVolume
  packable : ∀ r ∈ s.unpackedItems, Packable (s.heap r)

omit [DecidableEq α] in
theorem Kept.moved (h : Kept all s) {heap : α → Item} (hmoved : Moved s.heap heap) :
    Kept all { s with heap } where
  keys := by
    rw [show key ∘ heap = key ∘ s.heap from funext hmoved]
    exact h.keys
  valid := h.valid
  packable r hr := (h.packable r hr).of_key (hmoved r)

omit [DecidableEq α] in
/-- Some of the containers of a result hold some of the items. -/
theorem Packed.subperm {items' : List α} {chosen result : List Container}
    (h : Packed container items' heap result) (hsub : items'.Sublist items)
    (hchosen : chosen.Sublist result) :
    ((chosen.flatMap Container.items).map key).Subperm (items.map (key ∘ heap)) := by
  rw [List.map_flatMap]
  exact (hchosen.flatMap _).subperm.trans (h.keys.subperm.trans (hsub.map _).subperm)

omit [DecidableEq α] in
theorem Packed.getVolume (h : Packed container items heap result)
    (hvolume : 0 < container.getVolume) : ∀ c ∈ result, 0 < c.getVolume := by
  intro c hc
  obtain ⟨hl, hw, hh⟩ := h.size c hc
  rw [Container.getVolume, hl, hw, hh]
  exact hvolume

omit [DecidableEq α] in
/-- The result of a packer that can take an item is not empty. -/
theorem Packed.averageRatio_pos (h : Packed container items heap result)
    (hvolume : 0 < container.getVolume) (hpos : ∀ r ∈ items, (heap r).Positive)
    (hne : items ≠ []) : 0 < averageRatio result := by
  apply Ecommerce.averageRatio_pos (h.getVolume hvolume)
  · intro c hc item hitem
    have hmem : key item ∈ items.map (key ∘ heap) := by
      apply h.keys.mem_iff.mp
      exact List.mem_flatMap.mpr ⟨c, hc, List.mem_map_of_mem hitem⟩
    obtain ⟨r, hr, hkey⟩ := List.mem_map.mp hmem
    obtain ⟨hlpos, hwpos, hhpos⟩ := hpos r hr
    obtain ⟨-, hl, hw, hh⟩ := by simpa only [key, Function.comp, Prod.mk.injEq] using hkey
    exact ⟨hl ▸ hlpos, hw ▸ hwpos, hh ▸ hhpos⟩
  · intro hnil
    have hlen := h.keys.length_eq
    rw [← List.map_flatMap, hnil, List.map_nil, List.length_nil, List.length_map] at hlen
    exact hne (List.length_eq_zero_iff.mp hlen.symm)

/-- A pass through a loop packs an item or ends the loop, which it does only where some
result with items is not chosen. -/
theorem packBatches_step (hchoose : ∀ result, (choose result).Sublist result) (hs : Kept all s)
    (hne : s.unpackedItems ≠ []) :
    (∃ heap, Moved s.heap heap ∧ packBatches choose stop s = stop { s with heap } ∧
      ∃ result, 0 < averageRatio result ∧ averageRatio (choose result) ≤ 0) ∨
    ∃ s', packBatches choose stop s = packBatches choose stop s' ∧ Kept all s' ∧
      s'.unpackedItems.length < s.unpackedItems.length := by
  obtain ⟨results, heap, hall, hmoved, hresults⟩ :=
    packAll_spec (getBatch s.unpackedItems) containers s.heap
  have hbatch := getBatch_sublist s.unpackedItems
  rw [packBatches, if_neg (by simpa using hne), hall]
  simp only [Option.bind_eq_bind, Option.bind_some]
  have hspec := @bestResult_spec choose results [] _ (le_refl 0)
  rcases hbest : bestResult choose results ([], 0) with ⟨best, ratio⟩
  rw [hbest] at hspec
  rcases hspec with ⟨rfl, hle⟩ | ⟨result, hresult, rfl, hlt⟩
  · refine .inl ⟨heap, hmoved, rfl, ?_⟩
    -- a packer can take the first item of the batch
    obtain ⟨r, hr⟩ := List.exists_mem_of_ne_nil _ (getBatch_ne_nil hne)
    obtain ⟨-, container, hcontainer, hfits⟩ := hs.packable r (hbatch.subset hr)
    obtain ⟨result, hresult, hpacked⟩ := hresults.of_container hcontainer
    refine ⟨result, hpacked.averageRatio_pos (containers_getVolume container hcontainer) ?_ ?_,
      hle result hresult⟩
    · intro r' hr'
      exact (hs.packable r' (hbatch.subset (List.mem_of_mem_filter hr'))).1
    · exact List.ne_nil_of_mem (List.mem_filter.mpr ⟨hr, hfits⟩)
  · right
    obtain ⟨container, hcontainer, hpacked⟩ := hresults.of_result hresult
    have hitems := exists_item_of_averageRatio_pos hlt
    have hchosen : ¬(choose result).isEmpty = true := by
      intro hnil
      rw [List.isEmpty_iff.mp hnil] at hitems
      exact hitems rfl
    have hkeys : key ∘ heap = key ∘ s.heap := funext hmoved
    have hsub := hpacked.subperm ((List.filter_sublist ..).trans hbatch) (hchoose result)
    rw [← hkeys] at hsub
    obtain ⟨unpackedItems, hremove, hperm⟩ := removeAll_spec _ hsub
    refine ⟨⟨heap, unpackedItems, s.usedContainers ++ choose result⟩, ?_, ⟨?_, ?_, ?_⟩, ?_⟩
    · rw [if_neg hchosen, hremove]
      rfl
    · refine hs.keys.trans ?_
      simp only [← hkeys, List.flatMap_append, List.append_assoc, ← List.map_flatMap]
      exact hperm.append_left _
    · refine List.forall_mem_append.mpr ⟨hs.valid, fun c hc => ?_⟩
      have hmem := (hchoose result).subset hc
      exact ⟨hpacked.valid c hmem,
        hpacked.getVolume (containers_getVolume container hcontainer) c hmem⟩
    · intro r hr
      have hmem : key (heap r) ∈ s.unpackedItems.map (key ∘ heap) :=
        hperm.mem_iff.mpr (List.mem_append_right _ (List.mem_map_of_mem hr))
      obtain ⟨r', hr', hkey⟩ := List.mem_map.mp hmem
      exact (hs.packable r' hr').of_key (hkey.symm.trans (hmoved r'))
    · have hlen := hperm.length_eq
      have hpos := List.length_pos_iff.mpr hitems
      simp only [List.length_append, List.length_map] at hlen
      dsimp only
      omega

theorem packBatches_nil (h : s.unpackedItems = []) : packBatches choose stop s = some s := by
  rw [packBatches, if_pos (List.isEmpty_iff.mpr h)]

/-- A loop ends, with all items packed or where it stops. -/
theorem packBatches_spec (hchoose : ∀ result, (choose result).Sublist result) (hs : Kept all s) :
    ∃ s', Kept all s' ∧ (packBatches choose stop s = some s' ∧ s'.unpackedItems = [] ∨
      packBatches choose stop s = stop s' ∧
        ∃ result, 0 < averageRatio result ∧ averageRatio (choose result) ≤ 0) := by
  induction hn : s.unpackedItems.length using Nat.strongRecOn generalizing s with
  | ind n ih =>
    by_cases hne : s.unpackedItems = []
    · exact ⟨s, hs, .inl ⟨packBatches_nil hne, hne⟩⟩
    · rcases packBatches_step hchoose hs hne with
        ⟨heap, hmoved, hstop, hresult⟩ | ⟨s₁, heq, hs₁, hlt⟩
      · exact ⟨_, hs.moved hmoved, .inr ⟨hstop, hresult⟩⟩
      · obtain ⟨s', hs', hor⟩ := ih _ (hn ▸ hlt) hs₁ rfl
        rw [heq]
        exact ⟨s', hs', hor⟩

theorem packFilled_spec (hs : Kept all s) : ∃ s', packFilled s = some s' ∧ Kept all s' := by
  obtain ⟨s', hs', ⟨heq, -⟩ | ⟨heq, -⟩⟩ :=
    packBatches_spec (fun _ => List.filter_sublist ..) hs
  all_goals exact ⟨s', heq, hs'⟩

theorem packRemaining_spec (hs : Kept all s) :
    ∃ s', packRemaining s = some s' ∧ Kept all s' ∧ s'.unpackedItems = [] := by
  have hid : ∀ result : List Container, (id result).Sublist result := fun _ => List.Sublist.refl _
  obtain ⟨s', hs', ⟨heq, hnil⟩ | ⟨-, result, hlt, hle⟩⟩ :=
    packBatches_spec hid hs
  · exact ⟨s', heq, hs', hnil⟩
  · exact absurd hlt (not_lt.mpr hle)

/-- Both loops end without an exception, and all items are packed once into valid
containers. -/
theorem packItems_spec {items : List Item} (h : ∀ item ∈ items, Packable item) :
    ∃ s, packItems items = some s ∧
      (∀ container ∈ s.usedContainers, container.validate = true ∧ 0 < container.getVolume) ∧
      (items.map key).Perm ((s.usedContainers.flatMap Container.items).map key) := by
  have hstart : Kept (items.map key) ⟨items.get, List.finRange items.length, []⟩ := by
    refine ⟨?_, fun _ hc => absurd hc List.not_mem_nil, fun r _ => h _ (List.get_mem items r)⟩
    rw [List.flatMap_nil, List.nil_append, ← List.map_map, List.map_get_finRange]
  obtain ⟨s₁, heq₁, hs₁⟩ := packFilled_spec hstart
  obtain ⟨s, heq, hs, hnil⟩ := packRemaining_spec hs₁
  refine ⟨s, by rw [packItems, heq₁]; exact heq, hs.valid, ?_⟩
  have hkeys := hs.keys
  rwa [hnil, List.map_nil, List.append_nil, ← List.map_flatMap] at hkeys

end Course.Packing.Ecommerce
