import Course.Lib.Skyline
import Course.Packing.Environment

/-! What the height map of a container says of the items that were added to it. -/

open Course.Packing.Item Course.Packing.Environment

namespace Course.Packing.HeightMap

/-- A call of `add_item`, on an item that is turned before. -/
structure Call (α : Type) where
  item : α
  rotationType : RotationType
  position : Vector

structure Scene (α : Type) where
  heap : α → Item
  container : Container α

variable {α : Type} [DecidableEq α]

def add (s : Scene α) (c : Call α) : Scene α × Option Bool :=
  let heap := Function.update s.heap c.item { s.heap c.item with rotationType := c.rotationType }
  let (container, heap, fits) := s.container.addItem heap c.item c.position
  (⟨heap, container⟩, fits)

def run (s : Scene α) (calls : List (Call α)) : Scene α :=
  calls.foldl (fun s c => (add s c).1) s

/-- The call adds an item that ends above what the height map can hold. -/
def Overflows (s : Scene α) (c : Call α) : Prop :=
  s.container.Overflows c.position
    { s.heap c.item with rotationType := c.rotationType }.getDimension

instance (s : Scene α) (c : Call α) : Decidable (Overflows s c) :=
  inferInstanceAs (Decidable (Container.Overflows _ _ _))

/-- No call of the sequence does so. -/
def Low (s : Scene α) (calls : List (Call α)) : Prop :=
  Lib.AlongFold (fun s c => (add s c).1) (fun s c => ¬Overflows s c) s calls

/-- The items of the calls that returned true. -/
def accepted (s : Scene α) : List (Call α) → List α
  | [] => []
  | c :: calls =>
    if (add s c).2 = some true then c.item :: accepted (add s c).1 calls
    else accepted (add s c).1 calls

/-! ### What the map should say -/

def top (item : Item) : ℤ := item.position.z + item.getDimension.z

/-- The item covers the cell. -/
def covers (x y : ℤ) (item : Item) : Bool :=
  item.position.x ≤ x && x < item.position.x + item.getDimension.x &&
    item.position.y ≤ y && y < item.position.y + item.getDimension.y

/-- The items cover a cell together. -/
def meets (item other : Item) : Bool :=
  other.position.x < item.position.x + item.getDimension.x &&
    item.position.x < other.position.x + other.getDimension.x &&
    other.position.y < item.position.y + item.getDimension.y &&
    item.position.y < other.position.y + other.getDimension.y

/-- The greatest top face over the items that are meant, and 0 if there is none. -/
def greatestTop (heap : α → Item) (items : List α) (p : Item → Bool) : ℤ :=
  ((items.filter fun r => p (heap r)).map fun r => top (heap r)).max?.getD 0

/-- What is asked of the container after every call. -/
structure Stacked (length width : ℕ) (s : Scene α) : Prop where
  heightMap : ∀ x y, s.container.heightMap x y = greatestTop s.heap s.container.items (covers x y)
  height : s.container.height = (s.container.heightsOn 0 0 length width).max?.getD 0
  inside : ∀ r ∈ s.container.items,
    offFootprint length width (s.heap r).position (s.heap r).getDimension = false
  disjoint : s.container.items.Pairwise fun r r' =>
    Disjoint (s.heap r).cells (s.heap r').cells ∧ (s.heap r).overlap (s.heap r') = false
  rests : ∀ front r back, s.container.items = front ++ r :: back →
    (s.heap r).position.z = greatestTop s.heap front (meets (s.heap r))

/-! ### Items as slabs -/

open Course.Lib (Slab Pile Skyline Peak tops)

def slab (item : Item) : Slab (ℤ × ℤ) ℤ where
  base := {c | covers c.1 c.2 item}
  bottom := item.position.z
  top := top item

def slabs (heap : α → Item) (items : List α) : List (Slab (ℤ × ℤ) ℤ) :=
  items.map fun r => slab (heap r)

variable {item other : Item} {heap : α → Item} {items : List α}

theorem covers_iff {x y : ℤ} : covers x y item = true ↔
    item.position.x ≤ x ∧ x < item.position.x + item.getDimension.x ∧
      item.position.y ≤ y ∧ y < item.position.y + item.getDimension.y := by
  simp [covers, and_assoc]

theorem disjoint_cells (h : Disjoint (slab item).points (slab other).points) :
    Disjoint item.cells other.cells := by
  rw [Set.disjoint_left] at h ⊢
  rintro p ⟨hx, hx', hy, hy', hz⟩ ⟨gx, gx', gy, gy', gz⟩
  exact h (a := ((p.x, p.y), p.z)) ⟨covers_iff.mpr ⟨hx, hx', hy, hy'⟩, hz⟩
    ⟨covers_iff.mpr ⟨gx, gx', gy, gy'⟩, gz⟩

/-- Rectangles meet where both of them begin. -/
theorem meets_iff_inter (h : item.Positive) (h' : other.Positive) :
    meets item other = true ↔ ((slab other).base ∩ (slab item).base).Nonempty := by
  obtain ⟨hx, hy, -⟩ := h.getDimension
  obtain ⟨hx', hy', -⟩ := h'.getDimension
  simp only [meets, Bool.and_eq_true, decide_eq_true_eq]
  constructor
  · rintro ⟨⟨⟨h₁, h₂⟩, h₃⟩, h₄⟩
    refine ⟨(max item.position.x other.position.x, max item.position.y other.position.y), ?_, ?_⟩
    · exact covers_iff.mpr (by omega)
    · exact covers_iff.mpr (by omega)
  · rintro ⟨⟨x, y⟩, hc', hc⟩
    have hother := covers_iff.mp hc'
    have hitem := covers_iff.mp hc
    omega

theorem covers_singleton {x y : ℤ} :
    covers x y item = true ↔ ((slab item).base ∩ {(x, y)}).Nonempty := by
  simp [Set.inter_singleton_nonempty, slab]

omit [DecidableEq α] in
/-- The greatest of the tops is what the list of them gives. -/
theorem eq_greatestTop {base : Set (ℤ × ℤ)} {p : Item → Bool} {v : ℤ}
    (h : IsGreatest (tops 0 (slabs heap items) base) v)
    (hp : ∀ r ∈ items, p (heap r) = true ↔ ((slab (heap r)).base ∩ base).Nonempty)
    (hnonneg : ∀ r ∈ items, 0 ≤ top (heap r)) : v = greatestTop heap items p := by
  have hmem : ∀ t, t ∈ tops 0 (slabs heap items) base ↔
      t = 0 ∨ t ∈ (items.filter fun r => p (heap r)).map fun r => top (heap r) := by
    intro t
    simp only [tops, slabs, Set.mem_insert_iff, Set.mem_ofPred_eq, List.mem_map, List.mem_filter]
    refine or_congr_right ⟨?_, ?_⟩
    · rintro ⟨_, ⟨r, hr, rfl⟩, hbase, rfl⟩
      exact ⟨r, ⟨hr, (hp r hr).mpr hbase⟩, rfl⟩
    · rintro ⟨r, ⟨hr, hpr⟩, rfl⟩
      exact ⟨_, ⟨r, hr, rfl⟩, (hp r hr).mp hpr, rfl⟩
  rw [greatestTop]
  cases hmax : ((items.filter fun r => p (heap r)).map fun r => top (heap r)).max? with
  | none =>
    have hv := (hmem v).mp h.1
    rw [List.max?_eq_none_iff.mp hmax] at hv
    simpa using hv
  | some m =>
    obtain ⟨hm, hbound⟩ := List.max?_eq_some_iff.mp hmax
    have hle : m ≤ v := h.2 ((hmem m).mpr (.inr hm))
    rcases (hmem v).mp h.1 with rfl | hv
    · obtain ⟨r, hr, rfl⟩ := List.mem_map.mp hm
      exact le_antisymm (hnonneg r (List.mem_filter.mp hr).1) hle
    · exact le_antisymm (hbound v hv) hle

/-! ### One call -/

def heights (container : Container α) : ℤ × ℤ → ℤ := fun c => container.heightMap c.1 c.2

variable {s : Scene α} {c : Call α} {length width : ℕ}

omit [DecidableEq α] in
theorem liesOn_of_max? {container : Container α} (hpos : item.Positive)
    (hfits : offFootprint container.length container.width item.position item.getDimension = false)
    (hmax : (container.heightsOn item.position.x item.position.y item.getDimension.x
      item.getDimension.y).max? = some item.position.z) :
    (slab item).LiesOn (heights container) := by
  obtain ⟨hx, hy, -⟩ := hpos.getDimension
  obtain ⟨hmem, hbound⟩ := List.max?_eq_some_iff.mp hmax
  constructor
  · obtain ⟨a, b, hslice, hz⟩ := mem_heightsOn.mp hmem
    exact ⟨(a, b), covers_iff.mpr ((onSlice_iff hfits hx hy a b).mp hslice), hz⟩
  · rintro _ ⟨⟨a, b⟩, hc, rfl⟩
    have hslice := (onSlice_iff hfits hx hy a b).mpr (covers_iff.mp hc)
    exact hbound _ (mem_heightsOn.mpr ⟨a, b, hslice, rfl⟩)

omit [DecidableEq α] in
theorem raises_put {container : Container α} (r : α) (hpos : item.Positive)
    (hfits : offFootprint container.length container.width item.position item.getDimension =
      false) (htop : int64 (top item) = top item) :
    (slab item).Raises (heights container) (heights (container.put r item)) := by
  obtain ⟨hx, hy, -⟩ := hpos.getDimension
  constructor
  · rintro ⟨a, b⟩ hc
    exact (if_pos ((onSlice_iff hfits hx hy a b).mpr (covers_iff.mp hc))).trans htop
  · rintro ⟨a, b⟩ hc
    exact if_neg fun hslice => hc (covers_iff.mpr ((onSlice_iff hfits hx hy a b).mp hslice))

/-- A call is rejected, or lays the item on the heights. -/
theorem add_cases (hpos : (s.heap c.item).Positive) :
    (∃ turned, turned.key = (s.heap c.item).key ∧
      add s c = (⟨Function.update s.heap c.item turned, s.container⟩, some false)) ∨
    ∃ placed, placed.key = (s.heap c.item).key ∧
      offFootprint s.container.length s.container.width placed.position placed.getDimension =
        false ∧
      (slab placed).LiesOn (heights s.container) ∧
      (¬Overflows s c → top placed < 2 ^ 63) ∧
      add s c =
        (⟨Function.update s.heap c.item placed, s.container.put c.item placed⟩, some true) := by
  generalize hturned : { s.heap c.item with rotationType := c.rotationType } = turned
  generalize hheap : Function.update s.heap c.item turned = heap
  have hitem : heap c.item = turned := by rw [← hheap, Function.update_self]
  have hkey : turned.key = (s.heap c.item).key := by rw [← hturned, key_rotationType]
  have hpos' : turned.Positive := positive_of_key hkey hpos
  obtain ⟨hx, hy, -⟩ := hpos'.getDimension
  have hadd := addItem_eq s.container heap c.item c.position
  rw [hitem] at hadd
  cases hoff : offFootprint s.container.length s.container.width c.position turned.getDimension with
  | true =>
    refine .inl ⟨turned, hkey, ?_⟩
    simp only [add, hturned, hheap, hadd, hoff, if_true]
  | false =>
    obtain ⟨z, hz⟩ := exists_max? hoff hx hy
    refine .inr ⟨{ turned with position := ⟨c.position.x, c.position.y, z⟩ }, hkey, hoff,
      liesOn_of_max? hpos' hoff hz, fun hlow => ?_, ?_⟩
    · by_contra hhigh
      rw [Overflows, hturned] at hlow
      exact hlow ⟨hoff, z, (List.max?_eq_some_iff.mp hz).1, not_lt.mp hhigh⟩
    simp only [add, hturned, hheap, hadd, hoff, hz, Bool.false_eq_true, if_false]
    rw [← hheap, Function.update_idem]

/-- The items in the container are a pile of slabs on its floor. -/
structure Piled (length width : ℕ) (s : Scene α) : Prop where
  size : s.container.length = length ∧ s.container.width = width
  pile : Pile 0 (slabs s.heap s.container.items) (heights s.container) s.container.height
  inside : ∀ r ∈ s.container.items,
    offFootprint length width (s.heap r).position (s.heap r).getDimension = false
  positive : ∀ r ∈ s.container.items, (s.heap r).Positive

theorem slabs_update {r : α} (hr : r ∉ items) (item : Item) :
    slabs (Function.update heap r item) items = slabs heap items := by
  refine List.map_congr_left fun r' hr' => ?_
  rw [Function.update_of_ne (ne_of_mem_of_not_mem hr' hr)]

namespace Piled

omit [DecidableEq α] in
theorem new (name : String) (length width : ℕ) (heap : α → Item) :
    Piled length width ⟨heap, .new name length width⟩ :=
  ⟨⟨rfl, rfl⟩, .nil, fun _ hr => absurd hr List.not_mem_nil, fun _ hr => absurd hr List.not_mem_nil⟩

/-- An item that is not in the container may be moved. -/
theorem update (h : Piled length width s) {r : α} (hr : r ∉ s.container.items) (item : Item) :
    Piled length width ⟨Function.update s.heap r item, s.container⟩ := by
  have hsame : ∀ r' ∈ s.container.items, Function.update s.heap r item r' = s.heap r' :=
    fun r' hr' => Function.update_of_ne (ne_of_mem_of_not_mem hr' hr) _ _
  refine ⟨h.size, ?_, fun r' hr' => ?_, fun r' hr' => ?_⟩
  · dsimp only
    rw [slabs_update hr]
    exact h.pile
  · dsimp only
    rw [hsame r' hr']
    exact h.inside r' hr'
  · dsimp only
    rw [hsame r' hr']
    exact h.positive r' hr'

theorem put (h : Piled length width s) {r : α} (hr : r ∉ s.container.items) {placed : Item}
    (hpos : placed.Positive)
    (hfits : offFootprint s.container.length s.container.width placed.position
      placed.getDimension = false)
    (hlies : (slab placed).LiesOn (heights s.container)) (hlow : top placed < 2 ^ 63) :
    Piled length width ⟨Function.update s.heap r placed, s.container.put r placed⟩ := by
  have hmoved := h.update hr placed
  have hthick : (slab placed).bottom < (slab placed).top := by
    have hz := hpos.getDimension.2.2
    simp only [slab, top]
    omega
  have htop : int64 (top placed) = top placed := by
    obtain ⟨c, -, hbottom⟩ := hlies.1
    have hground : 0 ≤ (slab placed).bottom := hbottom ▸ h.pile.skyline.ground_le c
    exact int64_of_lt (hground.trans hthick.le) hlow
  refine ⟨h.size, ?_, ?_, forall_placed hr h.positive hpos⟩
  · have hpile := hmoved.pile.lay hlies hthick (raises_put r hpos hfits htop)
    have hslabs : slabs (Function.update s.heap r placed) (s.container.items ++ [r]) =
        slabs (Function.update s.heap r placed) s.container.items ++ [slab placed] := by
      simp [slabs]
    have hheight : (s.container.put r placed).height =
        max s.container.height (slab placed).top := congrArg (max s.container.height) htop
    rw [← hslabs, ← hheight] at hpile
    exact hpile
  · refine forall_placed (P := fun it =>
      offFootprint length width it.position it.getDimension = false) hr h.inside ?_
    rw [← h.size.1, ← h.size.2]
    exact hfits

omit [DecidableEq α] in
theorem top_nonneg (h : Piled length width s) {r : α} (hr : r ∈ s.container.items) :
    0 ≤ top (s.heap r) := by
  have hbottom : 0 ≤ (s.heap r).position.z := h.pile.ground_le (List.mem_map.mpr ⟨r, hr, rfl⟩)
  have hz := (h.positive r hr).getDimension.2.2
  rw [top]
  omega

omit [DecidableEq α] in
theorem heightMap_nonneg (h : Piled length width s) (x y : ℤ) : 0 ≤ s.container.heightMap x y :=
  h.pile.skyline.ground_le (x, y)

omit [DecidableEq α] in
/-- Nothing lies off the footprint. -/
theorem heightMap_off (h : Piled length width s) {x y : ℤ}
    (hoff : ¬(0 ≤ x ∧ x < length ∧ 0 ≤ y ∧ y < width)) : s.container.heightMap x y = 0 := by
  rcases (h.pile.skyline (x, y)).1 with hground | ⟨_, hs, ⟨c, hc, hxy⟩, -⟩
  · exact hground
  · obtain ⟨r, hr, rfl⟩ := List.mem_map.mp hs
    obtain rfl := Set.mem_singleton_iff.mp hxy
    have hcovers := covers_iff.mp hc
    have hinside := h.inside r hr
    simp only [offFootprint, Bool.or_eq_false_iff, decide_eq_false_iff_not, not_lt] at hinside
    omega

omit [DecidableEq α] in
theorem onSlice_footprint (h : Piled length width s) {a b : ℤ} :
    s.container.OnSlice 0 0 length width a b ↔ 0 ≤ a ∧ a < length ∧ 0 ≤ b ∧ b < width := by
  rw [Container.OnSlice, h.size.1, h.size.2, Int.zero_add, Int.zero_add,
    sliceBound_of_le le_rfl (by omega), sliceBound_of_le (by omega) le_rfl,
    sliceBound_of_le le_rfl (by omega), sliceBound_of_le (by omega) le_rfl]

omit [DecidableEq α] in
/-- The height of the container is the greatest on its footprint. -/
theorem height_eq (h : Piled length width s) :
    s.container.height = (s.container.heightsOn 0 0 length width).max?.getD 0 := by
  obtain ⟨hpeak, hbound⟩ := h.pile.peak
  cases hmax : (s.container.heightsOn 0 0 length width).max? with
  | none =>
    rcases hpeak with hground | ⟨⟨x, y⟩, hxy⟩
    · exact hground
    · have hnone := List.max?_eq_none_iff.mp hmax
      have hoff : ¬(0 ≤ x ∧ x < length ∧ 0 ≤ y ∧ y < width) := by
        intro hin
        have hmem := mem_heightsOn.mpr ⟨x, y, h.onSlice_footprint.mpr hin, rfl⟩
        rw [hnone] at hmem
        exact List.not_mem_nil hmem
      exact hxy.symm.trans (h.heightMap_off hoff)
  | some m =>
    obtain ⟨hm, hm'⟩ := List.max?_eq_some_iff.mp hmax
    obtain ⟨a, b, -, rfl⟩ := mem_heightsOn.mp hm
    have hle : s.container.heightMap a b ≤ s.container.height := hbound (.inr ⟨(a, b), rfl⟩)
    refine le_antisymm ?_ hle
    rcases hpeak with hground | ⟨⟨x, y⟩, hxy⟩
    · exact hground.trans_le (h.heightMap_nonneg a b)
    · rw [← hxy]
      by_cases hin : 0 ≤ x ∧ x < length ∧ 0 ≤ y ∧ y < width
      · exact hm' _ (mem_heightsOn.mpr ⟨x, y, h.onSlice_footprint.mpr hin, rfl⟩)
      · exact (h.heightMap_off hin).trans_le (h.heightMap_nonneg a b)

omit [DecidableEq α] in
theorem stacked (h : Piled length width s) : Stacked length width s where
  heightMap x y := eq_greatestTop (h.pile.skyline (x, y)) (fun _ _ => covers_singleton)
    fun _ hr => h.top_nonneg hr
  height := h.height_eq
  inside := h.inside
  disjoint := by
    refine (List.pairwise_map.mp h.pile.disjoint).imp_of_mem fun {r r'} hr hr' hdisjoint => ?_
    have hcells := disjoint_cells hdisjoint
    exact ⟨hcells, (overlap_eq_false_iff (h.positive r hr) (h.positive r' hr')).mpr hcells⟩
  rests front r back heq := by
    have hmem : ∀ r' ∈ front, r' ∈ s.container.items :=
      fun r' hr' => heq ▸ List.mem_append_left _ hr'
    have hr : r ∈ s.container.items := heq ▸ List.mem_append_right _ List.mem_cons_self
    have hslabs : slabs s.heap s.container.items =
        slabs s.heap front ++ slab (s.heap r) :: slabs s.heap back := by
      simp [slabs, heq]
    refine eq_greatestTop (h.pile.rests hslabs) (fun r' hr' => ?_) fun r' hr' =>
      h.top_nonneg (hmem r' hr')
    exact meets_iff_inter (h.positive r hr) (h.positive r' (hmem r' hr'))

end Piled

/-! ### A sequence of calls -/

/-- A call adds its item, or changes nothing in the container. -/
theorem Piled.add (h : Piled length width s) (hfresh : c.item ∉ s.container.items)
    (hpos : (s.heap c.item).Positive) (hlow : ¬Overflows s c) :
    Piled length width (add s c).1 ∧ Moved s.heap (add s c).1.heap ∧
      ((add s c).2 = some true ∧
          (add s c).1.container.items = s.container.items ++ [c.item] ∨
        (add s c).2 = some false ∧ (add s c).1.container = s.container) := by
  rcases add_cases hpos with ⟨turned, hkey, hadd⟩ | ⟨placed, hkey, hfits, hlies, hend, hadd⟩
  · rw [hadd]
    exact ⟨h.update hfresh turned, moved_update hkey, .inr ⟨rfl, rfl⟩⟩
  · rw [hadd]
    exact ⟨h.put hfresh (positive_of_key hkey hpos) hfits hlies (hend hlow), moved_update hkey,
      .inl ⟨rfl, rfl⟩⟩

/-- Calls with objects that are not in the container, and not in two of them,
none of which ends its item above what the height map can hold. -/
structure Fresh (s : Scene α) (calls : List (Call α)) : Prop where
  distinct : (calls.map Call.item).Nodup
  notMem : ∀ c ∈ calls, c.item ∉ s.container.items
  positive : ∀ c ∈ calls, (s.heap c.item).Positive
  low : Low s calls

theorem Piled.add_of_fresh {calls : List (Call α)} (h : Piled length width s)
    (hfresh : Fresh s (c :: calls)) :
    Piled length width (HeightMap.add s c).1 ∧ Moved s.heap (HeightMap.add s c).1.heap ∧
      ((HeightMap.add s c).2 = some true ∧
          (HeightMap.add s c).1.container.items = s.container.items ++ [c.item] ∨
        (HeightMap.add s c).2 = some false ∧ (HeightMap.add s c).1.container = s.container) :=
  h.add (hfresh.notMem c List.mem_cons_self) (hfresh.positive c List.mem_cons_self)
    (Lib.alongFold_cons.mp hfresh.low).1

theorem Fresh.add {calls : List (Call α)} (hfresh : Fresh s (c :: calls))
    (h : Piled length width s) : Fresh (HeightMap.add s c).1 calls := by
  obtain ⟨hc, hdistinct⟩ := List.nodup_cons.mp hfresh.distinct
  obtain ⟨-, hmoved, hcase⟩ := h.add_of_fresh hfresh
  refine ⟨hdistinct, fun c' hc' hmem => ?_, fun c' hc' => ?_,
    (Lib.alongFold_cons.mp hfresh.low).2⟩
  · have hold := hfresh.notMem c' (List.mem_cons_of_mem c hc')
    rcases hcase with ⟨-, hitems⟩ | ⟨-, hcontainer⟩
    · rw [hitems] at hmem
      rcases List.mem_append.mp hmem with hmem | hmem
      · exact hold hmem
      · exact hc (List.mem_singleton.mp hmem ▸ List.mem_map.mpr ⟨c', hc', rfl⟩)
    · exact hold (hcontainer ▸ hmem)
  · exact positive_of_key (hmoved c'.item) (hfresh.positive c' (List.mem_cons_of_mem c hc'))

theorem Piled.run (h : Piled length width s) {pre post : List (Call α)}
    (hfresh : Fresh s (pre ++ post)) :
    Piled length width (run s pre) ∧ Fresh (HeightMap.run s pre) post ∧
      (HeightMap.run s pre).container.items = s.container.items ++ accepted s pre := by
  induction pre generalizing s with
  | nil => exact ⟨h, hfresh, (List.append_nil _).symm⟩
  | cons c pre ih =>
    obtain ⟨hpiled, -, hcase⟩ := h.add_of_fresh hfresh
    obtain ⟨hrun, hrest, hitems⟩ := ih hpiled (hfresh.add h)
    refine ⟨hrun, hrest, hitems.trans ?_⟩
    rcases hcase with ⟨htrue, hadded⟩ | ⟨hfalse, hcontainer⟩
    · rw [hadded, accepted, if_pos htrue, List.append_assoc, List.singleton_append]
    · rw [hcontainer, accepted, if_neg (by rw [hfalse]; decide)]

/-- After every call with an object of its own, the map and the height are those
of the accepted items, which lie apart, each on what was there before it, as
long as no item ends above what the map can hold. -/
theorem run_stacked (name : String) (length width : ℕ) (heap : α → Item) (calls : List (Call α))
    (hdistinct : (calls.map Call.item).Nodup) (hpos : ∀ c ∈ calls, (heap c.item).Positive)
    (hlow : Low ⟨heap, .new name length width⟩ calls) :
    let start : Scene α := ⟨heap, .new name length width⟩
    (∀ pre post, calls = pre ++ post → Stacked length width (run start pre) ∧
      (run start pre).container.items = accepted start pre) ∧
    ∀ pre c post, calls = pre ++ c :: post → (add (run start pre) c).2 = some true ∨
      (add (run start pre) c).2 = some false ∧
        (add (run start pre) c).1.container = (run start pre).container := by
  intro start
  have hstart : Piled length width start := .new name length width heap
  have hfresh : Fresh start calls := ⟨hdistinct, fun _ _ => List.not_mem_nil, hpos, hlow⟩
  constructor
  · rintro pre post rfl
    obtain ⟨hpiled, -, hitems⟩ := hstart.run hfresh
    exact ⟨hpiled.stacked, hitems⟩
  · rintro pre c post rfl
    obtain ⟨hpiled, hrest, -⟩ := hstart.run hfresh
    obtain ⟨-, -, hcase⟩ := hpiled.add_of_fresh hrest
    exact hcase.imp And.left id

/-- A flat item, a cube on it, and one that does not fit. -/
def trio : List (Call (Fin 3)) :=
  [⟨0, .LWH, ⟨0, 0, 0⟩⟩, ⟨1, .WLH, ⟨1, 0, 0⟩⟩, ⟨2, .HLW, ⟨1, 1, 0⟩⟩]

def trioHeap : Fin 3 → Item
  | 0 => ⟨"Item 0", 2, 2, 1, .LWH, ⟨0, 0, 0⟩⟩
  | 1 => ⟨"Item 1", 1, 1, 1, .LWH, ⟨0, 0, 0⟩⟩
  | 2 => ⟨"Item 2", 2, 2, 2, .LWH, ⟨0, 0, 0⟩⟩

theorem run_stacked_trio :
    (∀ pre post, trio = pre ++ post →
      Stacked 2 2 (run ⟨trioHeap, .new "Container" 2 2⟩ pre) ∧
      (run ⟨trioHeap, .new "Container" 2 2⟩ pre).container.items =
        accepted ⟨trioHeap, .new "Container" 2 2⟩ pre) ∧
    ∀ pre c post, trio = pre ++ c :: post →
      (add (run ⟨trioHeap, .new "Container" 2 2⟩ pre) c).2 = some true ∨
      (add (run ⟨trioHeap, .new "Container" 2 2⟩ pre) c).2 = some false ∧
        (add (run ⟨trioHeap, .new "Container" 2 2⟩ pre) c).1.container =
          (run ⟨trioHeap, .new "Container" 2 2⟩ pre).container :=
  run_stacked "Container" 2 2 trioHeap trio (by decide)
    (by simp [trio, trioHeap, Item.Positive])
    (Lib.alongFold_cons.mpr ⟨by decide +kernel, Lib.alongFold_cons.mpr ⟨by decide +kernel,
      Lib.alongFold_cons.mpr ⟨by decide +kernel, Lib.alongFold_nil⟩⟩⟩)

/-- Two towers, each of which the height map can hold. -/
def towers : Fin 2 → Item
  | 0 => ⟨"Item 0", 1, 1, 2 ^ 62, .LWH, ⟨0, 0, 0⟩⟩
  | 1 => ⟨"Item 1", 1, 1, 2 ^ 62, .LWH, ⟨0, 0, 0⟩⟩

/-- The second tower on the first ends where the height map wraps around. -/
theorem not_stacked_towers :
    ¬∀ (name : String) (length width : ℕ) (heap : Fin 2 → Item) (calls : List (Call (Fin 2))),
      (calls.map Call.item).Nodup → (∀ c ∈ calls, (heap c.item).Positive) →
      Stacked length width (run ⟨heap, .new name length width⟩ calls) := by
  intro h
  have hstacked := h "Container" 1 1 towers [⟨0, .LWH, ⟨0, 0, 0⟩⟩, ⟨1, .LWH, ⟨0, 0, 0⟩⟩]
    (by decide) (by simp [towers, Item.Positive])
  exact absurd (hstacked.heightMap 0 0) (by decide +kernel)

end Course.Packing.HeightMap
