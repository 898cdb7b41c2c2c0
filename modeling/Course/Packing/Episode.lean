import Course.Packing.Environment
import Mathlib.Algebra.Order.Ring.Rat

/-! Episodes of the test environment: steps and resets, and what is observed of
them. -/

open Course.Packing.Item Course.Packing.Environment

namespace Course.Packing.Episode

/-- The numbers of Python and of numpy that are not integers. -/
structure Floats (F : Type) where
  float32 : ℤ → F
  ofInt : ℤ → F
  truediv : ℤ → ℤ → F
  add : F → F → F
  sub : F → F → F
  mul : F → F → F
  /-- The literal `0.1`. -/
  tenth : F

variable {F : Type} (fl : Floats F)

/-! ### The encoder -/

structure Observation (F : Type) where
  container : List (List (List F))
  itemsObs : List (List F)
  itemMask : List Bool
  deriving DecidableEq

def encodeItem (item : Item) : List F := [item.length, item.width, item.height].map fl.float32

/-- The first items, padded with zeros, and the mask of those that are there. -/
def encodeItems (items : List Item) (nItems : ℕ) : List (List F) × List Bool :=
  ((List.range nItems).map fun i =>
      match items[i]? with
      | some item => encodeItem fl item
      | none => [0, 0, 0].map fl.float32,
    (List.range nItems).map fun i => decide (i < items.length))

/-- `range(start, stop)`. -/
def upFrom (start stop : ℤ) : List ℤ := (List.range (stop - start).toNat).map fun i : ℕ => start + i

/-- `range(start, -1, -1)`. -/
def downFrom (start : ℤ) : List ℤ := (List.range (start + 1).toNat).map fun i : ℕ => start - i

/-- How many cells come before the loop breaks. -/
def distance (cells : List ℤ) (go : ℤ → Bool) : ℤ := (cells.takeWhile go).length

def encodeCell {α : Type} (container : Container α) (x y : ℤ) : List ℤ :=
  let map := container.heightMap
  let h := map x y
  let higherLen := distance (upFrom x container.length) fun i => !(map i y > h)
  let higherWid := distance (upFrom y container.width) fun j => !(map x j > h)
  let posLen := distance (upFrom x container.length) fun i => map i y = h
  let negLen := distance (downFrom x) fun i => map i y = h
  let posWid := distance (upFrom y container.width) fun j => map x j = h
  let negWid := distance (downFrom y) fun j => map x j = h
  [h, higherLen, higherWid, posLen, negLen, posWid, negWid]

def encodeContainer {α : Type} (container : Container α) : List (List (List F)) :=
  (upFrom 0 container.length).map fun x =>
    (upFrom 0 container.width).map fun y => (encodeCell container x y).map fl.float32

def encodeState {α : Type} (container : Container α) (items : List Item) (nItems : ℕ) :
    Observation F where
  container := encodeContainer fl container
  itemsObs := (encodeItems fl items nItems).1
  itemMask := (encodeItems fl items nItems).2

/-! ### The environment -/

structure BinPackingTestEnv (F α : Type) extends Env α where
  items : List Item
  state : Option (Observation F)

/-- What a step returns, the reward among it. -/
structure Returned (F : Type) where
  state : Option (Observation F)
  reward : F
  done : Bool
  info : Outcome

inductive Event
  | reset
  | step (action : Action)
  deriving DecidableEq

variable {α : Type}

def getFillingRatio (container : Container α) (heap : α → Item) : F :=
  if container.height > 0 then
    fl.truediv (container.items.map fun r => (heap r).getVolume).sum
      (container.length * container.width * container.height)
  else fl.ofInt 1

def reward (container : Container α) (heap : α → Item) : F :=
  fl.sub (fl.add (fl.ofInt 1) (getFillingRatio fl container heap))
    (fl.mul fl.tenth (fl.ofInt container.height))

/-- `refs` are the copies of the items that it packs. -/
def new (heap : α → Item) (refs : List α) (container : Container α) : BinPackingTestEnv F α where
  heap := heap
  container := container
  unpackedItems := refs
  done := false
  items := refs.map heap
  state := none

def reset (e : BinPackingTestEnv F α) : BinPackingTestEnv F α :=
  let container := e.container.reset
  { e with
    container
    state := some (encodeState fl container (e.unpackedItems.map e.heap) e.items.length)
    done := false }

variable [DecidableEq α]

/-- It returns nothing where it raises an exception. -/
def step (e : BinPackingTestEnv F α) (action : Action) :
    BinPackingTestEnv F α × Option (Returned F) :=
  match Environment.step e.toEnv action with
  | (env, .success) =>
    let state := encodeState fl env.container (env.unpackedItems.map env.heap) e.items.length
    ({ e with toEnv := env, state := some state },
      some ⟨some state, reward fl env.container env.heap, env.done, .success⟩)
  | (env, .failure reason) =>
    ({ e with toEnv := env }, some ⟨e.state, fl.ofInt (-1), env.done, .failure reason⟩)
  | (env, .raised) => ({ e with toEnv := env }, none)

def handle (e : BinPackingTestEnv F α) : Event → BinPackingTestEnv F α
  | .reset => reset fl e
  | .step action => (step fl e action).1

def run (e : BinPackingTestEnv F α) (events : List Event) : BinPackingTestEnv F α :=
  events.foldl (handle fl) e

/-- What an episode returns, action by action. -/
def episode (e : BinPackingTestEnv F α) : List Action → List (Option (Returned F))
  | [] => []
  | action :: actions => (step fl e action).2 :: episode (step fl e action).1 actions

/-- What is asked of a reset, which is to be like the first one. -/
structure Restores (e first : BinPackingTestEnv F α) : Prop where
  container : e.container = first.container
  unpackedItems : e.unpackedItems.map (fun r => (e.heap r).key) =
    first.unpackedItems.map fun r => (first.heap r).key
  state : e.state = first.state
  done : e.done = first.done
  episode : ∀ actions, episode fl e actions = episode fl first actions

/-- The item that the action names fits, in the rotation and at the position. -/
def Places (env : Env α) (action : Action) : Prop :=
  ∃ rotationType item, pyGet RotationType.all action.rotation = some rotationType ∧
    action.index < env.unpackedItems.length ∧ pyGet env.unpackedItems action.index = some item ∧
    (env.container.checkItemFit
      (Function.update env.heap item { env.heap item with rotationType }) item
      ⟨action.x, action.y, 0⟩).2 = some true

/-! ### Steps that place an item -/

variable {env env' : Env α} {e e' : BinPackingTestEnv F α} {action : Action}

theorem checkItemFit_iff {container : Container α} {heap : α → Item} {item : α}
    {position : Vector} : (container.checkItemFit heap item position).2 = some true ↔
      offFootprint container.length container.width position (heap item).getDimension = false ∧
      ∃ z, (container.heightsOn position.x position.y (heap item).getDimension.x
        (heap item).getDimension.y).max? = some z := by
  unfold Container.checkItemFit
  cases hoff : offFootprint container.length container.width position (heap item).getDimension with
  | true => simp [hoff]
  | false =>
    cases hmax : (container.heightsOn position.x position.y (heap item).getDimension.x
        (heap item).getDimension.y).max? with
    | none => simp [hoff, hmax]
    | some z => simp [hoff, hmax]

theorem move_of_places (h : Places env action) : ∃ item ∈ env.unpackedItems,
    ∃ rotationType position, move env action = .pack item rotationType position := by
  obtain ⟨rotationType, item, hrotation, hindex, hitem, hfits⟩ := h
  rw [checkItemFit_iff, Function.update_self] at hfits
  obtain ⟨hoff, z, hz⟩ := hfits
  obtain ⟨n, -, hn⟩ := pyGet_eq_some hitem
  refine ⟨item, List.mem_of_getElem? hn, rotationType, ⟨action.x, action.y, z⟩, ?_⟩
  simp [move, hrotation, not_le.mpr hindex, hitem, hoff, hz]

theorem places_iff : Places env action ↔
    ∃ item rotationType position, move env action = .pack item rotationType position := by
  constructor
  · intro h
    obtain ⟨item, -, hmove⟩ := move_of_places h
    exact ⟨item, hmove⟩
  · rintro ⟨item, rotationType, position, hmove⟩
    unfold move at hmove
    split at hmove
    · cases hmove
    next rotationType' hrotation =>
      split at hmove
      · cases hmove
      next hindex =>
        split at hmove
        · cases hmove
        next item' hitem =>
          refine ⟨rotationType', item', hrotation, not_le.mp hindex, hitem, ?_⟩
          rw [checkItemFit_iff, Function.update_self]
          dsimp only at hmove ⊢
          split at hmove
          · cases hmove
          next hoff =>
            split at hmove
            · cases hmove
            next z hz => exact ⟨Bool.eq_false_of_not_eq_true hoff, z, hz⟩

/-! ### Environments that differ in where items lie -/

/-- The same, but for the rotations and the positions of the items. -/
structure Alike (env env' : Env α) : Prop where
  container : env.container = env'.container
  unpackedItems : env.unpackedItems = env'.unpackedItems
  done : env.done = env'.done
  key : Moved env'.heap env.heap

namespace Alike

omit [DecidableEq α] in
theorem move (h : Alike env env') (action : Action) :
    Environment.move env action = Environment.move env' action := by
  have hdimension : ∀ item rotationType,
      { env.heap item with rotationType := rotationType }.getDimension =
        { env'.heap item with rotationType := rotationType }.getDimension :=
    fun item rotationType => getDimension_of_key (h.key item) rotationType
  unfold Environment.move
  simp only [h.container, h.unpackedItems, hdimension]

theorem apply (h : Alike env env') (m : Move α) :
    Alike (m.apply env).1 (m.apply env').1 ∧ (m.apply env).2 = (m.apply env').2 := by
  obtain ⟨heap, container, unpackedItems, done⟩ := env
  obtain ⟨heap', _, _, _⟩ := env'
  obtain ⟨rfl, rfl, rfl, hmoved⟩ := h
  dsimp only at hmoved
  cases m with
  | stay outcome => exact ⟨⟨rfl, rfl, rfl, hmoved⟩, rfl⟩
  | turn item rotationType outcome => exact ⟨⟨rfl, rfl, rfl, hmoved.update item (hmoved item)⟩, rfl⟩
  | pack item rotationType position =>
    have hplaced := eq_of_key (hmoved item) rotationType position
    have hequal : (fun other => decide ((heap other).key = (heap item).key)) =
        fun other => decide ((heap' other).key = (heap' item).key) := by
      funext other
      rw [hmoved other, hmoved item]
    simp only [Move.apply, hplaced, hequal]
    exact ⟨⟨rfl, rfl, rfl, hmoved.update item rfl⟩, trivial⟩

theorem step (h : Alike env env') (action : Action) :
    Alike (Environment.step env action).1 (Environment.step env' action).1 ∧
      (Environment.step env action).2 = (Environment.step env' action).2 := by
  rw [step_eq, step_eq, h.move action]
  exact h.apply _

end Alike

/-! ### Two runs -/

omit [DecidableEq α] in
theorem encodeItems_congr {items items' : List Item} (h : items.map key = items'.map key)
    (nItems : ℕ) : encodeItems fl items nItems = encodeItems fl items' nItems := by
  have hlength : items.length = items'.length := by simpa using congrArg List.length h
  have hitem : ∀ item item' : Item, item.key = item'.key →
      encodeItem fl item = encodeItem fl item' := by
    intro item item' hkey
    simp only [key, Prod.mk.injEq] at hkey
    rw [encodeItem, encodeItem, hkey.2.1, hkey.2.2.1, hkey.2.2.2]
  rw [encodeItems, encodeItems, hlength]
  congr 1
  refine List.map_congr_left fun i _ => ?_
  have hget : (items[i]?).map key = (items'[i]?).map key := by
    rw [← List.getElem?_map, h, List.getElem?_map]
  cases hi : items[i]? with
  | none =>
    cases hi' : items'[i]? with
    | none => rfl
    | some item' => simp [hi, hi'] at hget
  | some item =>
    cases hi' : items'[i]? with
    | none => simp [hi, hi'] at hget
    | some item' =>
      rw [hi, hi'] at hget
      exact hitem item item' (Option.some.inj hget)

omit [DecidableEq α] in
theorem encodeState_congr (h : Alike env env') (nItems : ℕ) :
    encodeState fl env.container (env.unpackedItems.map env.heap) nItems =
      encodeState fl env'.container (env'.unpackedItems.map env'.heap) nItems := by
  have hkeys : (env.unpackedItems.map env.heap).map key =
      (env'.unpackedItems.map env'.heap).map key := by
    rw [h.unpackedItems, List.map_map, List.map_map]
    exact List.map_congr_left fun r _ => h.key r
  rw [encodeState, encodeState, h.container, encodeItems_congr fl hkeys]

omit [DecidableEq α] in
theorem reward_congr (h : Alike env env') :
    reward fl env.container env.heap = reward fl env'.container env'.heap := by
  have hvolumes : (env'.container.items.map fun r => (env.heap r).getVolume) =
      env'.container.items.map fun r => (env'.heap r).getVolume := by
    refine List.map_congr_left fun r _ => ?_
    have hkey := h.key r
    simp only [key, Prod.mk.injEq] at hkey
    rw [getVolume, getVolume, hkey.2.1, hkey.2.2.1, hkey.2.2.2]
  rw [reward, reward, getFillingRatio, getFillingRatio, h.container, hvolumes]

/-- Environments that no run can tell apart. -/
structure Twins (e e' : BinPackingTestEnv F α) : Prop where
  alike : Alike e.toEnv e'.toEnv
  items : e.items = e'.items
  state : e.state = e'.state

theorem Twins.step (h : Twins e e') (action : Action) :
    Twins (Episode.step fl e action).1 (Episode.step fl e' action).1 ∧
      (Episode.step fl e action).2 = (Episode.step fl e' action).2 := by
  obtain ⟨halike, houtcome⟩ := h.alike.step action
  unfold Episode.step
  cases hstep : Environment.step e.toEnv action with | mk env outcome =>
  cases hstep' : Environment.step e'.toEnv action with | mk env' outcome' =>
  rw [hstep, hstep'] at halike houtcome
  dsimp only at halike houtcome
  subst houtcome
  have hstate := encodeState_congr fl halike e'.items.length
  cases outcome with
  | success =>
    simp only [h.items, hstate, reward_congr fl halike, halike.done]
    exact ⟨⟨halike, rfl, rfl⟩, trivial⟩
  | failure reason =>
    simp only [h.state, halike.done]
    exact ⟨⟨halike, h.items, rfl⟩, trivial⟩
  | raised => exact ⟨⟨halike, h.items, h.state⟩, rfl⟩

theorem Twins.episode (h : Twins e e') (actions : List Action) :
    Episode.episode fl e actions = Episode.episode fl e' actions := by
  induction actions generalizing e e' with
  | nil => rfl
  | cons action actions ih =>
    obtain ⟨hnext, hreturned⟩ := h.step fl action
    rw [Episode.episode, Episode.episode, hreturned, ih hnext]

theorem Twins.restores (h : Twins e e') : Restores fl e e' where
  container := h.alike.container
  unpackedItems := by
    rw [h.alike.unpackedItems]
    exact List.map_congr_left fun r _ => h.alike.key r
  state := h.state
  done := h.alike.done
  episode := h.episode fl

/-! ### What a reset restores -/

/-- Nothing was packed since. -/
structure Kept (e₀ e : BinPackingTestEnv F α) : Prop where
  container : e.container.reset = e₀.container.reset
  unpackedItems : e.unpackedItems = e₀.unpackedItems
  key : Moved e₀.heap e.heap
  items : e.items = e₀.items

omit [DecidableEq α] in
theorem Kept.reset_twins {e₀ : BinPackingTestEnv F α} (h : Kept e₀ e) :
    Twins (reset fl e) (reset fl e₀) := by
  have halike : Alike (reset fl e).toEnv (reset fl e₀).toEnv :=
    ⟨h.container, h.unpackedItems, rfl, h.key⟩
  refine ⟨halike, h.items, congrArg some ?_⟩
  rw [h.items]
  exact encodeState_congr fl halike e₀.items.length

/-- A step that does not place an item leaves the container and the list. -/
theorem step_of_not_places (h : ¬Places e.toEnv action) :
    (step fl e action).1.container = e.container ∧
      (step fl e action).1.unpackedItems = e.unpackedItems ∧
      Moved e.heap (step fl e action).1.heap ∧ (step fl e action).1.items = e.items := by
  rw [places_iff] at h
  unfold step
  rw [step_eq]
  cases hmove : move e.toEnv action with
  | stay outcome => cases outcome <;> exact ⟨rfl, rfl, fun _ => rfl, rfl⟩
  | turn item rotationType outcome =>
    have hmoved := moved_update (key_rotationType (e.heap item) rotationType)
    cases outcome <;> exact ⟨rfl, rfl, hmoved, rfl⟩
  | pack item rotationType position => exact absurd ⟨_, _, _, hmove⟩ h

/-- A step that places an item shortens the list. -/
theorem step_of_places (h : Places e.toEnv action) :
    (step fl e action).1.unpackedItems.length < e.unpackedItems.length := by
  obtain ⟨item, hitem, rotationType, position, hmove⟩ := move_of_places h
  unfold step
  rw [step_eq, hmove]
  have hlength := List.length_eraseP_of_mem (p := fun other =>
    decide ((e.heap other).key = (e.heap item).key)) hitem (decide_eq_true rfl)
  have hpos := List.length_pos_of_mem hitem
  simp only [Move.apply, hlength]
  omega

/-- The sequence has no step that places an item. -/
def PlacesNothing (e : BinPackingTestEnv F α) (events : List Event) : Prop :=
  ∀ pre action post, events = pre ++ .step action :: post → ¬Places (run fl e pre).toEnv action

omit [DecidableEq α] in
theorem Kept.refl (e : BinPackingTestEnv F α) : Kept e e := ⟨rfl, rfl, fun _ => rfl, rfl⟩

theorem Kept.handle {e₀ : BinPackingTestEnv F α} (h : Kept e₀ e) {event : Event}
    (hevent : ∀ action, event = .step action → ¬Places e.toEnv action) :
    Kept e₀ (handle fl e event) := by
  cases event with
  | reset => exact ⟨h.container, h.unpackedItems, h.key, h.items⟩
  | step action =>
    obtain ⟨hcontainer, hunpacked, hmoved, hitems⟩ := step_of_not_places fl (hevent action rfl)
    exact ⟨(congrArg Container.reset hcontainer).trans h.container,
      hunpacked.trans h.unpackedItems, fun r => (hmoved r).trans (h.key r), hitems.trans h.items⟩

theorem run_concat (e : BinPackingTestEnv F α) (events : List Event) (event : Event) :
    run fl e (events ++ [event]) = handle fl (run fl e events) event := by
  simp [run]

theorem Kept.run {events : List Event} (h : PlacesNothing fl e events) :
    Kept e (run fl e events) := by
  induction events using List.reverseRecOn with
  | nil => exact .refl e
  | append_singleton events event ih =>
    rw [run_concat]
    refine (ih fun pre action post heq => ?_).handle fl fun action heq => ?_
    · exact h pre action (post ++ [event]) (by rw [heq, List.append_assoc, List.cons_append])
    · exact h events action [] (by rw [heq])

/-- Nothing brings an item back. -/
theorem length_handle_le (e : BinPackingTestEnv F α) (event : Event) :
    (handle fl e event).unpackedItems.length ≤ e.unpackedItems.length := by
  cases event with
  | reset => exact le_rfl
  | step action =>
    by_cases hplaces : Places e.toEnv action
    · exact (step_of_places fl hplaces).le
    · exact (congrArg List.length (step_of_not_places fl hplaces).2.1).le

theorem length_run_le (e : BinPackingTestEnv F α) (events : List Event) :
    (run fl e events).unpackedItems.length ≤ e.unpackedItems.length := by
  induction events generalizing e with
  | nil => exact le_rfl
  | cons event events ih => exact (ih _).trans (length_handle_le fl e event)

/-- A reset is like the first one, if and only if no step has placed an item. -/
theorem reset_restores_iff (heap : α → Item) (refs : List α) (container : Container α)
    (events : List Event) :
    Restores fl (reset fl (run fl (new heap refs container) events))
        (reset fl (new heap refs container)) ↔
      PlacesNothing fl (new heap refs container) events := by
  constructor
  · rintro hrestores pre action post rfl hplaces
    have hlength := congrArg List.length hrestores.unpackedItems
    rw [List.length_map, List.length_map] at hlength
    have hafter := length_run_le fl (handle fl (run fl (new heap refs container) pre)
      (.step action)) post
    have hstep := step_of_places fl hplaces
    have hbefore := length_run_le fl (new heap refs container) pre
    have hrun : run fl (new heap refs container) (pre ++ .step action :: post) =
        run fl (handle fl (run fl (new heap refs container) pre) (.step action)) post := by
      simp [run]
    rw [hrun] at hlength
    exact absurd hlength (hafter.trans_lt (hstep.trans_le hbefore)).ne
  · exact fun h => ((Kept.run fl h).reset_twins fl).restores fl

/-- Numbers that are not rounded. -/
def exact : Floats ℚ where
  float32 n := n
  ofInt n := n
  truediv a b := a / b
  add := (· + ·)
  sub := (· - ·)
  mul := (· * ·)
  tenth := 1 / 10

/-- The only item is packed, and the reset does not bring it back. -/
theorem not_restores_cube :
    ¬∀ (heap : Fin 1 → Item) (refs : List (Fin 1)) (container : Container (Fin 1))
      (events : List Event),
      Restores exact (reset exact (run exact (new heap refs container) events))
        (reset exact (new heap refs container)) := by
  intro h
  have hrestores := h (fun _ => ⟨"Item 0", 1, 1, 1, .LWH, ⟨0, 0, 0⟩⟩) [0] (.new "Container" 1 1)
    [.reset, .step ⟨0, 0, 0, 0⟩]
  exact absurd hrestores.unpackedItems (by decide +kernel)

end Course.Packing.Episode
