import Mathlib.Algebra.Order.Field.Basic
import Mathlib.Data.Int.Cast.Lemmas
import Mathlib.Algebra.Order.Ring.Cast
import Mathlib.Tactic.Linarith

/-! The circles of the visual quadtree.  Positions are exact: they are taken
from an ordered field in place of `float`. -/

namespace Course.VisualQuadtree

structure Vec2 (K : Type) where
  x : K
  y : K
  deriving DecidableEq

structure Circle (K : Type) where
  mCenter : Vec2 K
  mVelocity : Vec2 K
  mRadius : K
  deriving DecidableEq

variable {K : Type} [Field K] [LinearOrder K] [IsStrictOrderedRing K]

namespace Vec2

def add (v w : Vec2 K) : Vec2 K := ⟨v.x + w.x, v.y + w.y⟩

def sub (v w : Vec2 K) : Vec2 K := ⟨v.x - w.x, v.y - w.y⟩

/-- The square of `magnitude`. -/
def norm2 (v : Vec2 K) : K := v.x * v.x + v.y * v.y

end Vec2

namespace Circle

def epsilon : K := 1 / 100

def inside (c : Circle K) (x1 x2 y1 y2 : K) : Prop :=
  x1 ≤ c.mCenter.x - c.mRadius ∧ c.mCenter.x + c.mRadius ≤ x2 ∧
    y1 ≤ c.mCenter.y - c.mRadius ∧ c.mCenter.y + c.mRadius ≤ y2

instance (c : Circle K) (x1 x2 y1 y2 : K) : Decidable (c.inside x1 x2 y1 y2) :=
  inferInstanceAs (Decidable (_ ∧ _ ∧ _ ∧ _))

/-- The distance of the centers is less than the sum of the radii; both sides
are squared, so the sum must not be negative. -/
def collideCheck (c other : Circle K) : Prop :=
  0 < c.mRadius + other.mRadius ∧
    (c.mCenter.sub other.mCenter).norm2 <
      (c.mRadius + other.mRadius) * (c.mRadius + other.mRadius)

instance (c other : Circle K) : Decidable (c.collideCheck other) :=
  inferInstanceAs (Decidable (_ ∧ _))

/-- One axis of the collision with the boundaries: the new velocity and center. -/
def bounce (restitution radius low high velocity center : K) : K × K :=
  if center - radius < low then (-velocity * restitution, low + radius + epsilon)
  else if high < center + radius then (-velocity * restitution, high - radius - epsilon)
  else (velocity, center)

def collideWalls (restitution x1 x2 y1 y2 : K) (c : Circle K) : Circle K :=
  let x := bounce restitution c.mRadius x1 x2 c.mVelocity.x c.mCenter.x
  let y := bounce restitution c.mRadius y1 y2 c.mVelocity.y c.mCenter.y
  { c with mVelocity := ⟨x.1, y.1⟩, mCenter := ⟨x.2, y.2⟩ }

omit [IsStrictOrderedRing K] in
@[simp]
theorem collideWalls_mRadius {restitution x1 x2 y1 y2 : K} {c : Circle K} :
    (c.collideWalls restitution x1 x2 y1 y2).mRadius = c.mRadius := rfl

theorem epsilon_pos : (0 : K) < epsilon := by
  rw [epsilon]
  positivity

theorem bounce_within {restitution radius low high velocity center : K}
    (h : 2 * radius + epsilon ≤ high - low) :
    low ≤ (bounce restitution radius low high velocity center).2 - radius ∧
      (bounce restitution radius low high velocity center).2 + radius ≤ high := by
  have hε : (0 : K) < epsilon := epsilon_pos
  rw [bounce]
  split_ifs with hlow hhigh
  · exact ⟨by linarith, by linarith⟩
  · exact ⟨by linarith, by linarith⟩
  · exact ⟨not_lt.mp hlow, not_lt.mp hhigh⟩

/-- A circle that fits between the walls lies between them after it hit them. -/
theorem collideWalls_inside {restitution x1 x2 y1 y2 : K} {c : Circle K}
    (hx : 2 * c.mRadius + epsilon ≤ x2 - x1) (hy : 2 * c.mRadius + epsilon ≤ y2 - y1) :
    (c.collideWalls restitution x1 x2 y1 y2).inside x1 x2 y1 y2 := by
  obtain ⟨hx1, hx2⟩ := bounce_within hx
  obtain ⟨hy1, hy2⟩ := bounce_within hy
  exact ⟨hx1, hx2, hy1, hy2⟩

end Circle

end Course.VisualQuadtree
