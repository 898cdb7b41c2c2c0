import Mathlib.Data.Int.Order.Basic
import Mathlib.Data.Set.BooleanAlgebra
import Mathlib.Data.Set.Disjoint
import Mathlib.Logic.Function.Basic
import Mathlib.Order.CompletePartialOrder

/-! Items that are packed, and the cells of a grid that they take. -/

namespace Course.Packing

inductive RotationType
  | LWH | LHW | WHL | WLH | HLW | HWL
  deriving DecidableEq

namespace RotationType

def all : List RotationType := [LWH, LHW, WHL, WLH, HLW, HWL]

theorem mem_all (rotation : RotationType) : rotation ∈ all := by
  cases rotation <;> decide

end RotationType

structure Vector where
  x : ℤ
  y : ℤ
  z : ℤ
  deriving DecidableEq

def Vector.sum (a b : Vector) : Vector := ⟨a.x + b.x, a.y + b.y, a.z + b.z⟩

structure Item where
  name : String
  length : ℤ
  width : ℤ
  height : ℤ
  rotationType : RotationType
  position : Vector

namespace Item

def getVolume (item : Item) : ℤ := item.length * item.width * item.height

/-- The real dimension, by the rotation. -/
def getDimension (item : Item) : Vector :=
  match item.rotationType with
  | .LWH => ⟨item.length, item.width, item.height⟩
  | .LHW => ⟨item.length, item.height, item.width⟩
  | .WHL => ⟨item.width, item.height, item.length⟩
  | .WLH => ⟨item.width, item.length, item.height⟩
  | .HLW => ⟨item.height, item.length, item.width⟩
  | .HWL => ⟨item.height, item.width, item.length⟩

def overlap (item other : Item) : Bool :=
  let d := item.getDimension
  let p := item.position
  let d' := other.getDimension
  let p' := other.position
  if p.x + d.x ≤ p'.x ∨ p'.x + d'.x ≤ p.x then false
  else if p.y + d.y ≤ p'.y ∨ p'.y + d'.y ≤ p.y then false
  else if p.z + d.z ≤ p'.z ∨ p'.z + d'.z ≤ p.z then false
  else true

/-! ### Cells -/

/-- The cells of a box. -/
def box (position dimension : Vector) : Set Vector :=
  {p | position.x ≤ p.x ∧ p.x < position.x + dimension.x ∧
    position.y ≤ p.y ∧ p.y < position.y + dimension.y ∧
    position.z ≤ p.z ∧ p.z < position.z + dimension.z}

def cells (item : Item) : Set Vector := box item.position item.getDimension

/-- It takes a cell in every direction. -/
def Positive (item : Item) : Prop := 0 < item.length ∧ 0 < item.width ∧ 0 < item.height

theorem Positive.getDimension {item : Item} (h : item.Positive) :
    0 < item.getDimension.x ∧ 0 < item.getDimension.y ∧ 0 < item.getDimension.z := by
  obtain ⟨hl, hw, hh⟩ := h
  cases hr : item.rotationType <;> simp [Item.getDimension, hr, hl, hw, hh]

theorem overlap_eq_false {item other : Item} : item.overlap other = false ↔
    (item.position.x + item.getDimension.x ≤ other.position.x ∨
      other.position.x + other.getDimension.x ≤ item.position.x) ∨
    (item.position.y + item.getDimension.y ≤ other.position.y ∨
      other.position.y + other.getDimension.y ≤ item.position.y) ∨
    (item.position.z + item.getDimension.z ≤ other.position.z ∨
      other.position.z + other.getDimension.z ≤ item.position.z) := by
  simp only [overlap]
  grind

theorem overlap_comm (item other : Item) : item.overlap other = other.overlap item := by
  have h : item.overlap other = false ↔ other.overlap item = false := by
    rw [overlap_eq_false, overlap_eq_false]
    grind
  grind

theorem disjoint_of_overlap {item other : Item} (h : item.overlap other = false) :
    Disjoint item.cells other.cells := by
  rw [Set.disjoint_left]
  rintro p ⟨h₁, h₂, h₃, h₄, h₅, h₆⟩ ⟨h₁', h₂', h₃', h₄', h₅', h₆'⟩
  rcases overlap_eq_false.mp h with (h | h) | (h | h) | (h | h) <;> omega

/-- The test is exact for items that take a cell. -/
theorem overlap_eq_false_iff {item other : Item} (h : item.Positive) (h' : other.Positive) :
    item.overlap other = false ↔ Disjoint item.cells other.cells := by
  refine ⟨disjoint_of_overlap, fun hdisjoint => ?_⟩
  obtain ⟨hx, hy, hz⟩ := h.getDimension
  obtain ⟨hx', hy', hz'⟩ := h'.getDimension
  by_contra hoverlap
  have hoverlap : ¬item.overlap other = false := hoverlap
  rw [overlap_eq_false] at hoverlap
  push Not at hoverlap
  obtain ⟨⟨h₁, h₂⟩, ⟨h₃, h₄⟩, h₅, h₆⟩ := hoverlap
  -- The corner where both begin is a cell of both.
  let corner : Vector := ⟨max item.position.x other.position.x,
    max item.position.y other.position.y, max item.position.z other.position.z⟩
  have hmem : corner ∈ item.cells := by
    simp only [corner, cells, box, Set.mem_ofPred_eq]
    omega
  have hmem' : corner ∈ other.cells := by
    simp only [corner, cells, box, Set.mem_ofPred_eq]
    omega
  exact Set.disjoint_left.mp hdisjoint hmem hmem'

/-! ### Positions in a container -/

/-- The test of `check_item_fit`, for a container of the size. -/
def outside (size position dimension : Vector) : Bool :=
  position.x < 0 || position.x + dimension.x > size.x ||
    position.y < 0 || position.y + dimension.y > size.y ||
    position.z < 0 || position.z + dimension.z > size.z

theorem box_subset {size position dimension : Vector}
    (h : outside size position dimension = false) :
    box position dimension ⊆ box ⟨0, 0, 0⟩ size := by
  simp only [outside, Bool.or_eq_false_iff, decide_eq_false_iff_not] at h
  rintro p ⟨h₁, h₂, h₃, h₄, h₅, h₆⟩
  refine ⟨?_, ?_, ?_, ?_, ?_, ?_⟩ <;> dsimp only <;> omega

/-- The corner of an item in a direction. -/
def corner (axis : ℕ) (item : Item) : Vector :=
  let d := item.getDimension
  item.position.sum
    ⟨if axis = 0 then d.x else 0, if axis = 1 then d.y else 0, if axis = 2 then d.z else 0⟩

/-! ### What does not change -/

/-- What an attempt to pack the item does not change. -/
def key (item : Item) : String × ℤ × ℤ × ℤ := (item.name, item.length, item.width, item.height)

theorem key_position (item : Item) (position : Vector) :
    { item with position }.key = item.key := rfl

theorem key_rotationType (item : Item) (rotation : RotationType) :
    { item with rotationType := rotation }.key = item.key := rfl

variable {item item' : Item}

theorem getDimension_of_key (h : item'.key = item.key) (rotation : RotationType) :
    { item' with rotationType := rotation }.getDimension =
      { item with rotationType := rotation }.getDimension := by
  simp only [key, Prod.mk.injEq] at h
  obtain ⟨-, hl, hw, hh⟩ := h
  cases rotation <;> simp [getDimension, hl, hw, hh]

/-- Once turned and moved, items that are equal are the same. -/
theorem eq_of_key (h : item.key = item'.key) (rotationType : RotationType) (position : Vector) :
    { item with rotationType, position } = { item' with rotationType, position } := by
  simp only [key, Prod.mk.injEq] at h
  obtain ⟨hname, hl, hw, hh⟩ := h
  rw [hname, hl, hw, hh]

/-- It lies in the empty container in one of its rotations, whichever it has now. -/
def Fits (size : Vector) (item : Item) : Prop :=
  ∃ rotation, outside size ⟨0, 0, 0⟩ { item with rotationType := rotation }.getDimension = false

theorem Fits.of_key {size : Vector} (h : Fits size item) (hkey : item'.key = item.key) :
    Fits size item' := by
  obtain ⟨rotation, hfits⟩ := h
  exact ⟨rotation, getDimension_of_key hkey rotation ▸ hfits⟩

/-- Attempts move and turn the items, and change nothing else. -/
def Moved {α : Type} (heap heap' : α → Item) : Prop := ∀ r, (heap' r).key = (heap r).key

theorem moved_update {α : Type} [DecidableEq α] {heap : α → Item} {r : α}
    (h : item.key = (heap r).key) : Moved heap (Function.update heap r item) := by
  intro r'
  by_cases hr : r' = r
  · subst hr
    rw [Function.update_self, h]
  · rw [Function.update_of_ne hr]

theorem Moved.update {α : Type} [DecidableEq α] {heap heap' : α → Item} (h : Moved heap heap')
    (r : α) (hkey : item'.key = item.key) :
    Moved (Function.update heap r item) (Function.update heap' r item') := by
  intro r'
  by_cases hr : r' = r
  · subst hr
    rw [Function.update_self, Function.update_self, hkey]
  · rw [Function.update_of_ne hr, Function.update_of_ne hr]
    exact h r'

end Item

end Course.Packing
