import Course.Lib.Text
import Course.Packing.Environment
import Course.Packing.Solver

/-! The file that the solver writes, and the validator that reads it back. -/

open Course.Lib.Text Course.Packing.Item
open Course.Packing.Environment (pyGet)

namespace Course.Packing.Ecommerce

/-! ### The file -/

def serializeItem (item : Item) : List Char :=
  record [item.name.toList, str item.length, str item.width, str item.height,
    str item.position.x, str item.position.y, str item.position.z,
    str (RotationType.all.idxOf item.rotationType)]

def serializeContainer (container : Container) : List Char :=
  record ["Container".toList, str container.length, str container.width, str container.height]

def serializeImpossible (skuCode : String) : List Char :=
  record ["Impossible".toList, skuCode.toList]

def output (usedContainers : List Container) (impossibleItems : List String) :
    List (List Char) :=
  (usedContainers.flatMap fun container =>
    serializeContainer container :: container.items.map serializeItem) ++
    impossibleItems.map serializeImpossible

/-- The file, or `none` where the solver raises an exception before it writes it. -/
def solve (rows : List Row) : Option (List Char) := do
  let (items, impossibleItems) := load rows
  let s ← packItems items
  -- the fill rate, which is printed first, divides by the volume used
  guard ((s.usedContainers.map Container.getVolume).sum ≠ 0)
  some (unlines (output s.usedContainers impossibleItems))

/-! ### The answer -/

def parseContainer (line : List Char) : Option Container := do
  let parts := fields (strip line)
  let length ← int (← parts[1]?)
  let width ← int (← parts[2]?)
  let height ← int (← parts[3]?)
  some (.new "Container" length width height)

def parseItem (line : List Char) : Option Item := do
  let parts := fields (strip line)
  let name ← parts[0]?
  let length ← int (← parts[1]?)
  let width ← int (← parts[2]?)
  let height ← int (← parts[3]?)
  let x ← int (← parts[4]?)
  let y ← int (← parts[5]?)
  let z ← int (← parts[6]?)
  let rotationType ← pyGet RotationType.all (← int (← parts[7]?))
  some ⟨.ofList name, length, width, height, rotationType, ⟨x, y, z⟩⟩

def parseImpossibleItem (line : List Char) : Option String :=
  (fields (strip line))[1]?.map String.ofList

structure Answer where
  containers : List Container
  impossibleItems : List String

/-- The item goes to the last container, if there is one. -/
def addToLast (item : Item) : List Container → Option (List Container)
  | [] => none
  | [container] => some [{ container with items := container.items ++ [item] }]
  | container :: containers => (addToLast item containers).map (container :: ·)

def parseLine (answer : Answer) (line : List Char) : Option Answer :=
  if "Container".toList.isPrefixOf line then do
    let container ← parseContainer line
    some { answer with containers := answer.containers ++ [container] }
  else if "Impossible".toList.isPrefixOf line then do
    let skuCode ← parseImpossibleItem line
    some { answer with impossibleItems := answer.impossibleItems ++ [skuCode] }
  else do
    let item ← parseItem line
    let containers ← addToLast item answer.containers
    some { answer with containers }

/-- `none` where a line raises an exception. -/
def loadAnswer (file : List Char) : Option Answer := (readlines file).foldlM parseLine ⟨[], []⟩

/-- The checks, up to the message that all items are packed. -/
def check (rows : List Row) (answer : Answer) : Bool :=
  let (items, impossibleItems) := load rows
  if impossibleItems ≠ answer.impossibleItems then false
  else if answer.containers.any fun container => !container.validate then false
  else
    let ansItems := (answer.containers.flatMap Container.items).mergeSort
      fun item item' => item.getVolume ≤ item'.getVolume
    match items.foldlM (fun ansItems item => remove id item ansItems) ansItems with
    | none => false
    | some ansItems => ansItems.isEmpty

/-! ### Tables -/

/-- A code that the validator does not take for something else. -/
structure Plain (skuCode : String) : Prop where
  cell : Cell skuCode.toList
  container : ¬"Container".toList <+: skuCode.toList
  impossible : ¬"Impossible".toList <+: skuCode.toList

structure Row.Valid (row : Row) : Prop where
  plain : Plain row.skuCode
  length : 0 < row.length
  width : 0 < row.width
  height : 0 < row.height
  qty : 0 ≤ row.qty

/-- A row with items that some container can take. -/
def Row.Packable (row : Row) : Prop :=
  0 < row.qty ∧ (containers.any fun container => container.canFit row.item) = true

/-- Both loops end without an exception, and the validator passes the file. -/
def Passes (rows : List Row) : Prop :=
  (packItems (load rows).1).isSome ∧
    ∃ file answer, solve rows = some file ∧ loadAnswer file = some answer ∧
      check rows answer = true

/-! ### Lines -/

theorem pyGet_all (rotation : RotationType) :
    pyGet RotationType.all (RotationType.all.idxOf rotation) = some rotation := by
  cases rotation <;> rfl

variable {container : Container} {item : Item} {skuCode : String} {answer : Answer}
  {containers : List Container} {items : List Item} {impossibleItems : List String}

theorem forall_cell_item (h : Cell item.name.toList) :
    ∀ f ∈ [item.name.toList, str item.length, str item.width, str item.height,
      str item.position.x, str item.position.y, str item.position.z,
      str (RotationType.all.idxOf item.rotationType)], Cell f :=
  fun _ hf => @cell_of_mem_numbers _ _ [item.length, item.width, item.height, item.position.x,
    item.position.y, item.position.z, RotationType.all.idxOf item.rotationType] h hf

theorem forall_cell_container (container : Container) :
    ∀ f ∈ ["Container".toList, str container.length, str container.width, str container.height],
      Cell f :=
  fun _ hf => @cell_of_mem_numbers _ _ [container.length, container.width, container.height]
    (cell_of_all (by decide)) hf

theorem forall_cell_impossible (h : Cell skuCode.toList) :
    ∀ f ∈ ["Impossible".toList, skuCode.toList], Cell f := by
  intro f hf
  rcases List.mem_pair.mp hf with rfl | rfl
  · exact cell_of_all (by decide)
  · exact h

theorem parseItem_serializeItem (h : Cell item.name.toList) :
    parseItem (serializeItem item ++ ['\n']) = some item := by
  rw [parseItem, serializeItem, fields_strip_record (List.cons_ne_nil _ _) (forall_cell_item h)]
  simp [int_str, pyGet_all]

theorem parseContainer_serializeContainer (container : Container) :
    parseContainer (serializeContainer container ++ ['\n']) =
      some (.new "Container" container.length container.width container.height) := by
  rw [parseContainer, serializeContainer,
    fields_strip_record (List.cons_ne_nil _ _) (forall_cell_container container)]
  simp [int_str]

theorem parseImpossibleItem_serializeImpossible (h : Cell skuCode.toList) :
    parseImpossibleItem (serializeImpossible skuCode ++ ['\n']) = some skuCode := by
  rw [parseImpossibleItem, serializeImpossible,
    fields_strip_record (List.cons_ne_nil _ _) (forall_cell_impossible h)]
  simp

theorem parseLine_container (answer : Answer) (container : Container) :
    parseLine answer (serializeContainer container ++ ['\n']) =
      some { answer with
        containers := answer.containers ++
          [.new "Container" container.length container.width container.height] } := by
  rw [parseLine, if_pos, parseContainer_serializeContainer]
  · rfl
  · rw [List.isPrefixOf_iff_prefix, serializeContainer, record_cons, List.append_assoc]
    exact List.prefix_append ..

theorem parseLine_impossible (answer : Answer) (h : Cell skuCode.toList) :
    parseLine answer (serializeImpossible skuCode ++ ['\n']) =
      some { answer with impossibleItems := answer.impossibleItems ++ [skuCode] } := by
  have hcontainer :
      ¬"Container".toList.isPrefixOf (serializeImpossible skuCode ++ ['\n']) = true := by
    rw [List.isPrefixOf_iff_prefix]
    intro hstart
    have hname := prefix_of_prefix_record (by decide) hstart
    exact absurd hname (by decide)
  rw [parseLine, if_neg hcontainer, if_pos, parseImpossibleItem_serializeImpossible h]
  · rfl
  · rw [List.isPrefixOf_iff_prefix, serializeImpossible, record_cons, List.append_assoc]
    exact List.prefix_append ..

theorem addToLast_append (containers : List Container) (container : Container) (item : Item) :
    addToLast item (containers ++ [container]) =
      some (containers ++ [{ container with items := container.items ++ [item] }]) := by
  induction containers with
  | nil => rfl
  | cons c containers ih =>
    rw [List.cons_append, addToLast, ih]
    · rfl
    · simp

theorem parseLine_item (h : Plain item.name)
    (hlast : answer.containers = containers ++ [container]) :
    parseLine answer (serializeItem item ++ ['\n']) =
      some { answer with
        containers := containers ++ [{ container with items := container.items ++ [item] }] } := by
  have hstart : ∀ p : List Char, ',' ∉ p → ¬p <+: item.name.toList →
      ¬p.isPrefixOf (serializeItem item ++ ['\n']) = true := by
    intro p hp hname hline
    rw [List.isPrefixOf_iff_prefix] at hline
    exact hname (prefix_of_prefix_record hp hline)
  rw [parseLine, if_neg (hstart _ (by decide) h.container),
    if_neg (hstart _ (by decide) h.impossible), parseItem_serializeItem h.cell, hlast]
  simp [addToLast_append]

/-! ### Files -/

theorem parseItems (h : ∀ item ∈ items, Plain item.name)
    (hlast : answer.containers = containers ++ [container]) :
    ((items.map serializeItem).map (· ++ ['\n'])).foldlM parseLine answer =
      some { answer with
        containers := containers ++ [{ container with items := container.items ++ items }] } := by
  induction items generalizing answer container with
  | nil => simp [← hlast]
  | cons item items ih =>
    obtain ⟨hitem, hitems⟩ := List.forall_mem_cons.mp h
    rw [List.map_cons, List.map_cons, List.foldlM_cons, parseLine_item hitem hlast]
    refine (ih hitems rfl).trans ?_
    simp

/-- The container as the file has it. -/
def Container.read (container : Container) : Container := { container with name := "Container" }

theorem parseContainers {used : List Container}
    (h : ∀ container ∈ used, ∀ item ∈ container.items, Plain item.name) :
    ((used.flatMap fun container =>
      serializeContainer container :: container.items.map serializeItem).map
        (· ++ ['\n'])).foldlM parseLine answer =
      some { answer with containers := answer.containers ++ used.map Container.read } := by
  induction used generalizing answer with
  | nil => simp
  | cons container used ih =>
    obtain ⟨hcontainer, hused⟩ := List.forall_mem_cons.mp h
    rw [List.flatMap_cons, List.map_append, List.foldlM_append, List.map_cons, List.foldlM_cons,
      parseLine_container]
    refine (congrArg (· >>= _) (parseItems hcontainer rfl)).trans ?_
    refine (ih hused).trans ?_
    simp [Container.read, Container.new]

theorem parseImpossibleItems (h : ∀ skuCode ∈ impossibleItems, Cell skuCode.toList) :
    ((impossibleItems.map serializeImpossible).map (· ++ ['\n'])).foldlM parseLine answer =
      some { answer with impossibleItems := answer.impossibleItems ++ impossibleItems } := by
  induction impossibleItems generalizing answer with
  | nil => simp
  | cons skuCode impossibleItems ih =>
    obtain ⟨hcode, hcodes⟩ := List.forall_mem_cons.mp h
    rw [List.map_cons, List.map_cons, List.foldlM_cons, parseLine_impossible answer hcode]
    refine (ih hcodes).trans ?_
    simp

/-- The validator reads back what the solver writes. -/
theorem loadAnswer_output {used : List Container}
    (h : ∀ container ∈ used, ∀ item ∈ container.items, Plain item.name)
    (himpossible : ∀ skuCode ∈ impossibleItems, Cell skuCode.toList) :
    loadAnswer (unlines (output used impossibleItems)) =
      some ⟨used.map Container.read, impossibleItems⟩ := by
  have hlines : ∀ l ∈ output used impossibleItems, '\n' ∉ l := by
    intro l hl
    rcases List.mem_append.mp hl with hl | hl
    · obtain ⟨container, hcontainer, hl⟩ := List.mem_flatMap.mp hl
      rcases List.mem_cons.mp hl with rfl | hl
      · exact newline_notMem_record (forall_cell_container container)
      · obtain ⟨item, hitem, rfl⟩ := List.mem_map.mp hl
        exact newline_notMem_record (forall_cell_item (h container hcontainer item hitem).cell)
    · obtain ⟨skuCode, hcode, rfl⟩ := List.mem_map.mp hl
      exact newline_notMem_record (forall_cell_impossible (himpossible skuCode hcode))
  rw [loadAnswer, readlines_unlines hlines, output, List.map_append, List.foldlM_append,
    parseContainers h]
  exact parseImpossibleItems himpossible

/-! ### Loading -/

variable {rows : List Row} {used : List Container}

theorem mem_loadRows : item ∈ (loadRows rows).1 ↔ ∃ row ∈ rows, row.Packable ∧ item = row.item := by
  induction rows with
  | nil => simp [loadRows]
  | cons row rows ih =>
    rw [loadRows]
    simp only [List.mem_cons, or_and_right, exists_or, exists_eq_left]
    split
    next hfits =>
      rw [List.mem_append, ih, List.mem_replicate]
      refine or_congr_left ⟨fun ⟨hqty, heq⟩ => ⟨⟨by omega, hfits⟩, heq⟩, ?_⟩
      rintro ⟨⟨hqty, -⟩, heq⟩
      exact ⟨by omega, heq⟩
    next hfits =>
      rw [ih]
      exact ⟨.inr, fun h => h.resolve_left fun ⟨hrow, _⟩ => hfits hrow.2⟩

theorem exists_row_of_impossible (h : skuCode ∈ (loadRows rows).2) :
    ∃ row ∈ rows, skuCode = row.skuCode := by
  induction rows with
  | nil => exact absurd h List.not_mem_nil
  | cons row rows ih =>
    simp only [List.mem_cons, or_and_right, exists_or, exists_eq_left]
    rw [loadRows] at h
    generalize loadRows rows = loaded at h ih
    obtain ⟨items, impossibleItems⟩ := loaded
    dsimp only at h
    split at h
    next => exact .inr (ih h)
    next => exact (List.mem_cons.mp h).imp id ih

theorem mem_load : item ∈ (load rows).1 ↔ ∃ row ∈ rows, row.Packable ∧ item = row.item := by
  rw [load, List.mem_mergeSort, mem_loadRows]

theorem load_ne_nil : (load rows).1 ≠ [] ↔ ∃ row ∈ rows, row.Packable := by
  constructor
  · intro hne
    obtain ⟨item, hitem⟩ := List.exists_mem_of_ne_nil _ hne
    obtain ⟨row, hrow, hpack, -⟩ := mem_load.mp hitem
    exact ⟨row, hrow, hpack⟩
  · rintro ⟨row, hrow, hpack⟩
    exact List.ne_nil_of_mem (mem_load.mpr ⟨row, hrow, hpack, rfl⟩)

theorem Row.Valid.positive {row : Row} (h : row.Valid) : row.item.Positive := by
  have hceil : ∀ x : ℚ, 0 < x → 0 < ⌈x * 10⌉ := fun x hx => Int.ceil_pos.mpr (by linarith)
  exact ⟨hceil _ h.length, hceil _ h.width, hceil _ h.height⟩

theorem packable_of_mem_load (h : ∀ row ∈ rows, row.Valid) (hitem : item ∈ (load rows).1) :
    Packable item ∧ Plain item.name := by
  obtain ⟨row, hrow, ⟨-, hfits⟩, rfl⟩ := mem_load.mp hitem
  obtain ⟨container, hcontainer, hfit⟩ := List.any_eq_true.mp hfits
  exact ⟨⟨(h row hrow).positive, container, hcontainer, hfit⟩, (h row hrow).plain⟩

/-! ### The checks -/

/-- Every item is packed exactly once. -/
theorem check_of_packed (hvalid : ∀ container ∈ used, container.validate = true)
    (hkeys : ((load rows).1.map key).Perm ((used.flatMap Container.items).map key)) :
    check rows ⟨used.map Container.read, (load rows).2⟩ = true := by
  have hany : ¬((used.map Container.read).any fun container => !container.validate) = true := by
    rw [List.any_map, List.any_eq_true]
    rintro ⟨container, hcontainer, hnot⟩
    have htrue : container.read.validate = true := hvalid container hcontainer
    simp [htrue] at hnot
  have hread :
      (used.map Container.read).flatMap Container.items = used.flatMap Container.items := by
    rw [List.flatMap_map]
    rfl
  have hsort := (used.flatMap Container.items).mergeSort_perm
    fun item item' => item.getVolume ≤ item'.getVolume
  have hsub : ((load rows).1.map key).Subperm
      (((used.flatMap Container.items).mergeSort
        fun item item' => item.getVolume ≤ item'.getVolume).map (key ∘ id)) :=
    (hkeys.trans (hsort.symm.map key)).subperm
  obtain ⟨rest, hremove, hperm⟩ := removeAll_spec (load rows).1 hsub
  have hrest : rest = [] := by
    have hlen := hperm.length_eq
    have hlen' := hkeys.length_eq
    simp only [List.length_append, List.length_map, List.length_mergeSort] at hlen hlen'
    exact List.length_eq_zero_iff.mp (by omega)
  simp only [check]
  rw [if_neg (not_not.mpr rfl), if_neg hany, hread, hremove, hrest]
  rfl

theorem packItems_nil : ∃ s, packItems [] = some s ∧ s.usedContainers = [] := by
  refine ⟨⟨[].get, [], []⟩, ?_, rfl⟩
  have hfilled : packFilled (⟨[].get, [], []⟩ : Progress (Fin 0)) = some ⟨[].get, [], []⟩ :=
    packBatches_nil rfl
  rw [packItems]
  exact (congrArg (· >>= packRemaining) hfilled).trans (packBatches_nil rfl)

theorem solve_of_load_eq_nil (h : (load rows).1 = []) : solve rows = none := by
  obtain ⟨s, hpack, hused⟩ := packItems_nil
  rcases hload : load rows with ⟨items, impossibleItems⟩
  rw [hload] at h
  obtain rfl : items = [] := h
  rw [solve, hload]
  simp [hpack, hused]

theorem passes_of_load_ne_nil (h : ∀ row ∈ rows, row.Valid) (hne : (load rows).1 ≠ []) :
    Passes rows := by
  obtain ⟨s, hpack, hvalid, hkeys⟩ :=
    packItems_spec fun item hitem => (packable_of_mem_load h hitem).1
  have hvolume : (s.usedContainers.map Container.getVolume).sum ≠ 0 := by
    apply ne_of_gt
    apply List.sum_pos
    · intro x hx
      obtain ⟨container, hcontainer, rfl⟩ := List.mem_map.mp hx
      exact (hvalid container hcontainer).2
    · intro hnil
      rw [List.map_eq_nil_iff.mp hnil, List.flatMap_nil, List.map_nil] at hkeys
      exact hne (List.map_eq_nil_iff.mp hkeys.eq_nil)
  have hplain : ∀ container ∈ s.usedContainers, ∀ item ∈ container.items, Plain item.name := by
    intro container hcontainer item hitem
    have hmem : key item ∈ (load rows).1.map key := hkeys.mem_iff.mpr
      (List.mem_map_of_mem (List.mem_flatMap.mpr ⟨container, hcontainer, hitem⟩))
    obtain ⟨item', hitem', hkey⟩ := List.mem_map.mp hmem
    have hname : item'.name = item.name := congrArg Prod.fst hkey
    exact hname ▸ (packable_of_mem_load h hitem').2
  have himpossible : ∀ skuCode ∈ (load rows).2, Cell skuCode.toList := by
    intro skuCode hcode
    obtain ⟨row, hrow, rfl⟩ := exists_row_of_impossible hcode
    exact (h row hrow).plain.cell
  refine ⟨by rw [hpack]; rfl, _, _, ?_, loadAnswer_output hplain himpossible,
    check_of_packed (fun container hc => (hvalid container hc).1) hkeys⟩
  rw [solve]
  simp [hpack, hvolume]

/-- The solver's file passes the validator unless there is nothing to pack. -/
theorem passes_iff (h : ∀ row ∈ rows, row.Valid) :
    Passes rows ↔ ∃ row ∈ rows, row.Packable := by
  rw [← load_ne_nil]
  refine ⟨?_, passes_of_load_ne_nil h⟩
  rintro ⟨-, file, answer, hsolve, -⟩ hnil
  rw [solve_of_load_eq_nil hnil] at hsolve
  exact absurd hsolve (Option.some_ne_none file).symm

theorem plain_letter {skuCode : String} (h : skuCode ∈ ["A", "B", "C"]) : Plain skuCode := by
  simp only [List.mem_cons, List.not_mem_nil, or_false] at h
  rcases h with rfl | rfl | rfl
  all_goals
    refine ⟨cell_of_all (by decide), ?_, ?_⟩
    all_goals
      rw [← List.isPrefixOf_iff_prefix]
      decide

def large : Row := ⟨"B", 100, 100, 100, 1⟩

/-- Boxes of two sizes, and one that no container can take. -/
def table : List Row := [⟨"A", 20, 15, 10, 3⟩, large, ⟨"C", 5 / 2, 4, 3, 2⟩]

theorem valid_large : large.Valid := by
  refine ⟨plain_letter (by decide), ?_, ?_, ?_, ?_⟩
  all_goals norm_num [large]

theorem not_packable_large : ¬large.Packable := by
  norm_num [Row.Packable, large, containers, containerSizes, Container.canFit, Row.item,
    getDimension, Container.new]

theorem passes_table : ¬large.Packable ∧ Passes table := by
  refine ⟨not_packable_large, (passes_iff ?_).mpr ⟨_, List.mem_cons_self, by decide, ?_⟩⟩
  · simp only [table, List.forall_mem_cons, List.not_mem_nil, false_imp_iff, implies_true, and_true]
    refine ⟨⟨plain_letter (by decide), ?_, ?_, ?_, ?_⟩, valid_large,
      plain_letter (by decide), ?_, ?_, ?_, ?_⟩
    all_goals norm_num
  · norm_num [containers, containerSizes, Container.canFit, Row.item, getDimension, Container.new]

/-- The fill rate of a table whose items are all too large divides by zero. -/
theorem not_passes_large : ¬∀ rows : List Row, (∀ row ∈ rows, row.Valid) → Passes rows := by
  intro h
  obtain ⟨-, file, answer, hsolve, -⟩ := h [large] (by
    rintro row hrow
    obtain rfl := List.mem_singleton.mp hrow
    exact valid_large)
  have hnil : (load [large]).1 = [] := by
    by_contra hne
    obtain ⟨row, hrow, hpackable⟩ := load_ne_nil.mp hne
    obtain rfl := List.mem_singleton.mp hrow
    exact not_packable_large hpackable
  rw [solve_of_load_eq_nil hnil] at hsolve
  exact absurd hsolve (Option.some_ne_none file).symm

end Course.Packing.Ecommerce
