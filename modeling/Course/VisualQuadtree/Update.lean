import Course.Lib.Machine
import Course.VisualQuadtree.Node

/-! A frame of the simulation: the circles change nodes and collide.  What a
collision does to its two circles is a parameter, `impulse`, which may even depend
on the collisions before it. -/

namespace Course.VisualQuadtree

variable {ι K : Type}

structure Impulse (K : Type) where
  offset : Vec2 K
  otherOffset : Vec2 K
  velocity : Vec2 K
  otherVelocity : Vec2 K
  deriving DecidableEq

/-- A call of `collide` and what it did. -/
structure Collision (ι K : Type) where
  circle : ι
  other : ι
  impulse : Impulse K
  deriving DecidableEq

/-- What the pointers point to, and the collisions so far. -/
structure World (ι K : Type) where
  circles : ι → Circle K
  collisions : List (Collision ι K)

/-- The pairs of the loop over `i` and `j > i`. -/
def pairs {α : Type} : List α → List (α × α)
  | [] => []
  | a :: as => as.map (a, ·) ++ pairs as

variable [Field K] [LinearOrder K] [DecidableEq ι]

def Circle.push (c : Circle K) (offset velocity : Vec2 K) : Circle K :=
  { c with mCenter := c.mCenter.add offset, mVelocity := velocity }

namespace World

variable (impulse : List (Collision ι K) → Circle K → Circle K → Impulse K)

def collide (w : World ι K) (circle other : ι) : World ι K :=
  let i := impulse w.collisions (w.circles circle) (w.circles other)
  { circles :=
      Function.update
        (Function.update w.circles circle ((w.circles circle).push i.offset i.velocity))
        other ((w.circles other).push i.otherOffset i.otherVelocity)
    collisions := w.collisions ++ [⟨circle, other, i⟩] }

/-- `collideCheck`, which is false of a circle and itself, and then `collide`. -/
def meet (w : World ι K) (p : ι × ι) : World ι K :=
  if p.1 ≠ p.2 ∧ (w.circles p.1).collideCheck (w.circles p.2) then w.collide impulse p.1 p.2
  else w

/-- The three loops of `update` over a node's circles and those of its ancestors. -/
def meetAll (w : World ι K) (cs parents : List ι) : World ι K :=
  let w := (pairs cs).foldl (meet impulse) w
  let w := (pairs parents).foldl (meet impulse) w
  (cs.flatMap fun c => parents.map (c, ·)).foldl (meet impulse) w

/-- The collision of a circle with the boundaries. -/
def collideWalls (w : World ι K) (restitution x1 x2 y1 y2 : K) (c : ι) : World ι K :=
  { w with
    circles := Function.update w.circles c ((w.circles c).collideWalls restitution x1 x2 y1 y2) }

@[simp]
theorem circles_collideWalls_self {w : World ι K} {restitution x1 x2 y1 y2 : K} {c : ι} :
    (w.collideWalls restitution x1 x2 y1 y2 c).circles c =
      (w.circles c).collideWalls restitution x1 x2 y1 y2 :=
  Function.update_self ..

end World

namespace Node

/-- The variables of a node's `update` while it goes through the children. -/
structure Frame (ι K : Type) where
  world : World ι K
  mChildren : Quadrant → Node ι
  mCircles : List ι
  outOfBoundsCircles : List ι

/-- The loop of `update` over the children. -/
def updateChildren
    (update : World ι K → Node ι → List ι → Option (World ι K × Node ι × List ι))
    (b : Bounds) (parents : List ι) : List Quadrant → Frame ι K → Option (Frame ι K)
  | [], f => some f
  | q :: qs, f => do
    let (w, child, outs) ← update f.world (f.mChildren q) parents
    let (stay, leave) := outs.partition fun c => decide (b.contain (w.circles c))
    updateChildren update b parents qs
      { world := w
        mChildren := Function.update f.mChildren q child
        mCircles := f.mCircles ++ stay
        outOfBoundsCircles := f.outOfBoundsCircles ++ leave }

def update (impulse : List (Collision ι K) → Circle K → Circle K → Impulse K)
    (sCircleLimit : ℤ) :
    ℕ → World ι K → Node ι → List ι → Option (World ι K × Node ι × List ι)
  | 0, _, _, _ => none
  | n + 1, w, .leaf b num cs, parents =>
    let (cs, outs) := cs.partition fun c => decide (b.contain (w.circles c))
    let w := w.meetAll impulse cs parents
    let num := num - outs.length
    -- a leaf with few circles has nothing to merge
    if sCircleLimit < num then do
      let (cs, ch) ← split (insert w.circles sCircleLimit n) b cs
      some (w, .inner b num cs ch, outs)
    else some (w, .leaf b num cs, outs)
  | n + 1, w, .inner b num cs ch, parents => do
    let (cs, outs) := cs.partition fun c => decide (b.contain (w.circles c))
    let (cs, ch) ← sift (insert w.circles sCircleLimit n) ch cs
    let parents := parents ++ cs
    let f ← updateChildren (update impulse sCircleLimit n) b parents Quadrant.all ⟨w, ch, cs, outs⟩
    let w := f.world.meetAll impulse f.mCircles parents
    let num := num - f.outOfBoundsCircles.length
    if 4 * num < 3 * sCircleLimit then
      some (w, .leaf b num (merge (.inner b num f.mCircles f.mChildren)), f.outOfBoundsCircles)
    else some (w, .inner b num f.mCircles f.mChildren, f.outOfBoundsCircles)

section equations

variable {b : Bounds} {parents cs stay leave outs kept : List ι} {n : ℕ} {num : ℤ} {w : World ι K}
  {ch : Quadrant → Node ι}

omit [DecidableEq ι] in
theorem updateChildren_cons
    {upd : World ι K → Node ι → List ι → Option (World ι K × Node ι × List ι)} {child : Node ι}
    {q : Quadrant} {qs : List Quadrant} {f : Frame ι K}
    (h : upd f.world (f.mChildren q) parents = some (w, child, outs))
    (hp : outs.partition (fun c => decide (b.contain (w.circles c))) = (stay, leave)) :
    updateChildren upd b parents (q :: qs) f =
      updateChildren upd b parents qs ⟨w, Function.update f.mChildren q child,
        f.mCircles ++ stay, f.outOfBoundsCircles ++ leave⟩ := by
  simp only [updateChildren, h, Option.bind_eq_bind, Option.bind_some, hp]

variable {impulse : List (Collision ι K) → Circle K → Circle K → Impulse K} {sCircleLimit : ℤ}

theorem update_leaf_eq
    (hp : cs.partition (fun c => decide (b.contain (w.circles c))) = (stay, outs)) :
    update impulse sCircleLimit (n + 1) w (.leaf b num cs) parents =
      if sCircleLimit < num - outs.length then do
        let (kept, ch) ←
          split (insert (w.meetAll impulse stay parents).circles sCircleLimit n) b stay
        some (w.meetAll impulse stay parents, .inner b (num - outs.length) kept ch, outs)
      else some (w.meetAll impulse stay parents, .leaf b (num - outs.length) stay, outs) := by
  simp only [update, hp]

theorem update_inner_eq {ch' : Quadrant → Node ι} {f : Frame ι K}
    (hp : cs.partition (fun c => decide (b.contain (w.circles c))) = (stay, outs))
    (hsift : sift (insert w.circles sCircleLimit n) ch stay = some (kept, ch'))
    (hf : updateChildren (update impulse sCircleLimit n) b (parents ++ kept) Quadrant.all
      ⟨w, ch', kept, outs⟩ = some f) :
    update impulse sCircleLimit (n + 1) w (.inner b num cs ch) parents =
      some (f.world.meetAll impulse f.mCircles (parents ++ kept),
        if 4 * (num - f.outOfBoundsCircles.length) < 3 * sCircleLimit then
          .leaf b (num - f.outOfBoundsCircles.length)
            (merge (.inner b (num - f.outOfBoundsCircles.length) f.mCircles f.mChildren))
        else .inner b (num - f.outOfBoundsCircles.length) f.mCircles f.mChildren,
        f.outOfBoundsCircles) := by
  simp only [update, hp, hsift, hf, Option.bind_eq_bind, Option.bind_some]
  split_ifs <;> rfl

end equations

end Node

/-- The window and the physics, which do not change. -/
structure Window (ι K : Type) where
  width : ℤ
  height : ℤ
  width_nonneg : 0 ≤ width
  height_nonneg : 0 ≤ height
  restitution : K
  impulse : List (Collision ι K) → Circle K → Circle K → Impulse K

/-- The quadtree, its circle limit and the list that the window keeps of the
circles whose insertion succeeded. -/
structure Quadtree (ι K : Type) where
  mRoot : Node ι
  sCircleLimit : ℤ
  world : World ι K
  mCircles : List ι

inductive Action (ι K : Type)
  | insert (circle : ι)
  | move (place : ι → Vec2 K × Vec2 K)
  | setCircleLimit (circleLimit : ℤ)
  | update

namespace Window

variable (g : Window ι K)

def bounds : Bounds := ⟨0, g.width, 0, g.height, g.width_nonneg, g.height_nonneg⟩

/-- An empty tree, and circles that are not in it yet. -/
def start (circles : ι → Circle K) : Quadtree ι K :=
  ⟨.leaf g.bounds 0 [], 20, ⟨circles, []⟩, []⟩

/-- The loop of `Quadtree::update` over the circles that left the window. -/
def putBack (sCircleLimit : ℤ) (n : ℕ) :
    World ι K → Node ι → List ι → Option (World ι K × Node ι)
  | w, root, [] => some (w, root)
  | w, root, c :: cs => do
    let w := w.collideWalls g.restitution 0 g.width 0 g.height c
    let (_, root) ← root.insert w.circles sCircleLimit n c
    putBack sCircleLimit n w root cs

def update (n : ℕ) (s : Quadtree ι K) : Option (Quadtree ι K) := do
  let (w, root, outs) ← s.mRoot.update g.impulse s.sCircleLimit n s.world []
  let (w, root) ← g.putBack s.sCircleLimit n w root outs
  some { s with world := w, mRoot := root }

/-- What the window does with the tree, with at most `n` nested calls. -/
def machine (n : ℕ) : Lib.Machine (Quadtree ι K) (Action ι K) where
  step s
    | .insert c => do
      let (inserted, root) ← s.mRoot.insert s.world.circles s.sCircleLimit n c
      some { s with
        mRoot := root
        mCircles := if inserted then s.mCircles ++ [c] else s.mCircles }
    | .move place =>
      let circles := fun c =>
        { s.world.circles c with mCenter := (place c).1, mVelocity := (place c).2 }
      some { s with world := { s.world with circles := circles } }
    | .setCircleLimit circleLimit => some { s with sCircleLimit := circleLimit }
    | .update => g.update n s

end Window

end Course.VisualQuadtree
