import Course.Gemm.MatrixMultiplication
import Course.Gemm.CoreRuns

/-! Whatever its inputs have been since reset, an accelerator that is not busy has every
counter and every accumulator at rest. -/

namespace Course.Gemm

namespace Core

/-- What the registers that another state uses are in each state. -/
structure Coherent (s : Core) : Prop where
  cell : s.state = .ready ∨ s.state = .finish → s.currentRow = 0 ∧ s.currentCol = 0
  loadState : s.state = .ready ∨ s.state = .finish ∨ s.state = .store → s.loadState = .loadRow
  index : s.state ≠ .load → s.index = 0 ∧ s.waitMem = true

theorem Coherent.next {s : Core} (cfg : Configs) (io : CoreInput) (undef : Undef)
    (h : s.Coherent) : (s.next cfg io undef).Coherent := by
  cases hs : s.state with
  | ready =>
    obtain ⟨hr, hc⟩ := h.cell (.inl hs)
    have hl := h.loadState (.inl hs)
    have hi := h.index (by simp [hs])
    constructor <;> simp [next_eq, fsm, hs, hr, hc, hl, hi]
  | load =>
    have hload : (s.next cfg io undef).state = .load ∨ (s.next cfg io undef).state = .busy ∧
        (s.next cfg io undef).index = 0 ∧ (s.next cfg io undef).waitMem = true := by
      simp only [next_eq, fsm, hs, loadNext]
      split
      · simp
      · cases hl : s.loadState with
        | loadRow => simp [loaded, hl, hs]
        | loadCol => by_cases hi : s.index = cfg.calcCoreSize - 1 <;> simp [loaded, hl, hi, hs]
    rcases hload with hl | ⟨hb, hi⟩
    · constructor <;> simp [hl]
    · constructor <;> simp [hb, hi]
  | busy =>
    have hi := h.index (by simp [hs])
    have hidx : (s.nextCell cfg).index = 0 ∧ (s.nextCell cfg).waitMem = true := by
      unfold nextCell
      split
      · split <;> exact hi
      · exact hi
    by_cases hl : s.lastCell cfg = true
    · have hc : s.lastCol cfg = true := ((Bool.and_eq_true _ _).mp hl).1
      constructor <;> simp [next_eq, fsm, hs, busyNext, hl, hc, nextCell_of_last hl, hi]
    · constructor <;> simp [next_eq, fsm, hs, busyNext, hl, hidx]
  | finish =>
    obtain ⟨hr, hc⟩ := h.cell (.inr hs)
    have hl := h.loadState (.inr (.inl hs))
    have hi := h.index (by simp [hs])
    constructor <;> simp [next_eq, fsm, hs, hr, hc, hl, hi]
  | store =>
    have hl := h.loadState (.inr (.inr hs))
    have hi := h.index (by simp [hs])
    by_cases hlast : s.lastCell cfg = true
    · constructor <;> simp [next_eq, fsm, hs, storeNext, hlast, nextCell_of_last hlast, hl, hi]
    · have hnext : (s.nextCell cfg).state = .store ∧ (s.nextCell cfg).loadState = .loadRow ∧
          (s.nextCell cfg).index = 0 ∧ (s.nextCell cfg).waitMem = true := by
        unfold nextCell
        split
        · split <;> exact ⟨hs, hl, hi⟩
        · exact ⟨hs, hl, hi⟩
      constructor <;> simp [next_eq, fsm, hs, storeNext, hlast, hnext]

theorem next_of_store {s : Core} (cfg : Configs) (io : CoreInput) (undef : Undef)
    (hs : s.state = .store) : (s.next cfg io undef).state = .store ∨
      (s.next cfg io undef).state = .finish ∧
        (s.next cfg io undef).accumulator = fun _ => 0#32 := by
  have hnext : (s.nextCell cfg).state = s.state := by
    unfold nextCell
    split
    · split <;> rfl
    · rfl
  by_cases hl : s.lastCell cfg = true <;> simp [next_eq, fsm, hs, storeNext, hl, hnext]

theorem next_of_calculation {s : Core} (cfg : Configs) (io : CoreInput) (undef : Undef)
    (hs : s.state = .load ∨ s.state = .busy) :
    (s.next cfg io undef).state = .load ∨ (s.next cfg io undef).state = .busy ∨
      (s.next cfg io undef).state = .finish := by
  rcases hs with hs | hs
  · simp only [next_eq, fsm, hs, loadNext]
    split
    · simp
    · unfold loaded
      dsimp only
      split
      · exact .inl hs
      · by_cases hi : s.index = cfg.calcCoreSize - 1 <;> simp [hi, hs]
  · by_cases hl : s.lastCell cfg = true <;> simp [next_eq, fsm, hs, busyNext, hl]

theorem Coherent.at {s : Core} (h : s.Coherent) (hs : s.state = .ready) :
    At .ready s.accumulator s.memory.mem s :=
  ⟨hs, (h.cell (.inl hs)).1, (h.cell (.inl hs)).2, h.loadState (.inl hs),
    (h.index (by simp [hs])).1, (h.index (by simp [hs])).2, rfl, rfl⟩

end Core

namespace MatrixMultiplication

variable {cfg : Configs}

/-- The states since a reset, over memory of any content. -/
inductive Reachable (cfg : Configs) : MatrixMultiplication → Prop
  | reset (memory : Memory) : Reachable cfg { core := { memory } }
  | next (io : Input) (undef : Undef) : Reachable cfg s → Reachable cfg (s.next cfg io undef)

/-- Nothing is going on, and the memory is `mem`. -/
structure Rest (mem : ℕ → BitVec 8) (s : MatrixMultiplication) : Prop where
  currentBlockRow : s.currentBlockRow = 0
  currentBlockCol : s.currentBlockCol = 0
  index : s.index = 0
  waitCalculation : s.waitCalculation = false
  waitStore : s.waitStore = false
  core : s.core.At .ready (fun _ => 0#32) mem

/-- Where the core is while the module issues, calculates and stores a block. -/
structure Coherent (s : MatrixMultiplication) : Prop where
  core : s.core.Coherent
  rest : s.state ≠ .busy → s.Rest s.core.memory.mem
  issue : s.state = .busy → s.waitStore = false → s.waitCalculation = false →
    s.core.state = .ready
  calculation : s.state = .busy → s.waitStore = false → s.waitCalculation = true →
    s.core.state = .load ∨ s.core.state = .busy ∨ s.core.state = .finish
  store : s.waitStore = true → s.waitCalculation = false ∧ s.index = 0 ∧
    (s.core.state = .store ∨ s.core.state = .finish ∧ s.core.accumulator = fun _ => 0#32)

/-- The padding only moves the padding. -/
def Repads (s t : MatrixMultiplication) : Prop :=
  ∃ ps pi, t = { s with state := .pad, padState := ps, padIndex := pi } ∨
    t = { s with state := .busy, padState := ps, padIndex := pi }

variable (cfg) (s : MatrixMultiplication) (d : Dims)

theorem toPadBRow_repads : Repads s (s.toPadBRow cfg d) := by
  unfold toPadBRow
  split
  · exact ⟨_, _, .inl rfl⟩
  · exact ⟨_, _, .inr rfl⟩

theorem toPadBCol_repads : Repads s (s.toPadBCol cfg d) := by
  unfold toPadBCol
  split
  · exact ⟨_, _, .inl rfl⟩
  · exact toPadBRow_repads cfg s d

theorem toPadARow_repads : Repads s (s.toPadARow cfg d) := by
  unfold toPadARow
  split
  · exact ⟨_, _, .inl rfl⟩
  · exact toPadBCol_repads cfg s d

theorem toPadACol_repads : Repads s (s.toPadACol cfg d) := by
  unfold toPadACol
  split
  · exact ⟨_, _, .inl rfl⟩
  · exact toPadARow_repads cfg s d

variable {cfg s d}

theorem padIndex_repads (hs : s.state = .pad) (pi : ℕ) : Repads s { s with padIndex := pi } :=
  ⟨s.padState, pi, .inl (by rw [← hs])⟩

theorem padColNext_repads {done : MatrixMultiplication} (hs : s.state = .pad)
    (hd : Repads s done) (base rows cols paddedCols : ℕ) :
    Repads s (s.padColNext base rows cols paddedCols done) := by
  unfold padColNext
  dsimp only
  split
  · split
    · exact hd
    · exact padIndex_repads hs _
  · exact padIndex_repads hs _

theorem padRowNext_repads {done : MatrixMultiplication} (hs : s.state = .pad)
    (hd : Repads s done) (base paddedRows paddedCols : ℕ) :
    Repads s (s.padRowNext base paddedRows paddedCols done) := by
  unfold padRowNext
  dsimp only
  split
  · exact hd
  · exact padIndex_repads hs _

theorem padNext_repads (hs : s.state = .pad) : Repads s (s.padNext cfg d) := by
  unfold padNext
  split
  · exact padColNext_repads hs (toPadARow_repads cfg s d) _ _ _ _
  · exact padRowNext_repads hs (toPadBCol_repads cfg s d) _ _ _
  · exact padColNext_repads hs (toPadBRow_repads cfg s d) _ _ _ _
  · exact padRowNext_repads hs ⟨s.padState, s.padIndex, .inr rfl⟩ _ _ _

variable {io : Input} {undef : Undef}

theorem next_eq : s.next cfg io undef =
    { s.fsm cfg io with core := s.core.next cfg (s.coreInput cfg io) undef } := rfl

/-- The core of a module that does not wait for it. -/
theorem Rest.next_core {mem : ℕ → BitVec 8} (cfg : Configs) (io : Input) (undef : Undef)
    (hr : s.Rest mem) :
    (s.core.next cfg (s.coreInput cfg io) undef).At
      (if s.state = .busy then .load else .ready) (fun _ => 0#32)
      (s.core.next cfg (s.coreInput cfg io) undef).memory.mem := by
  have := hr.core.order cfg (s.coreInput cfg io) undef (.inl rfl)
  simpa [coreInput, coreStore, coreStart, hr.waitStore, hr.waitCalculation] using this

theorem Coherent.next_of_rest (h : s.Coherent) (hb : s.state ≠ .busy)
    (hf : s.fsm cfg io = s ∨ Repads s (s.fsm cfg io)) : (s.next cfg io undef).Coherent := by
  have hr := h.rest hb
  have hat := hr.next_core cfg io undef
  rw [if_neg hb] at hat
  have hc := h.core.next cfg (s.coreInput cfg io) undef
  have key : ∀ (st : State) (ps : PadState) (pi : ℕ), Coherent { s with
      state := st, padState := ps, padIndex := pi
      core := s.core.next cfg (s.coreInput cfg io) undef } := by
    intro st ps pi
    constructor
    · exact hc
    · exact fun _ => ⟨hr.currentBlockRow, hr.currentBlockCol, hr.index, hr.waitCalculation,
        hr.waitStore, hat⟩
    · exact fun _ _ _ => hat.state
    · intro _ _ hw
      rw [hr.waitCalculation] at hw
      cases hw
    · intro hw
      rw [hr.waitStore] at hw
      cases hw
  rw [next_eq]
  rcases hf with hf | ⟨ps, pi, hf | hf⟩ <;> rw [hf]
  · exact key s.state s.padState s.padIndex
  · exact key .pad ps pi
  · exact key .busy ps pi

theorem Coherent.next (io : Input) (undef : Undef) (h : s.Coherent) :
    (s.next cfg io undef).Coherent := by
  have hc := h.core.next cfg (s.coreInput cfg io) undef
  cases hs : s.state with
  | ready =>
    refine h.next_of_rest (by simp [hs]) ?_
    by_cases hst : io.start = true
    · exact .inr (by simpa [fsm, hs, hst] using toPadACol_repads cfg s io.toDims)
    · exact .inl (by simp [fsm, hs, hst])
  | pad =>
    refine h.next_of_rest (by simp [hs]) (.inr ?_)
    simpa [fsm, hs] using padNext_repads hs
  | busy =>
    rw [next_eq]
    simp only [fsm, hs]
    by_cases hw : s.waitStore = true
    · obtain ⟨hcalc, hidx, hcore⟩ := h.store hw
      have hio : (s.coreInput cfg io).store = false ∧ (s.coreInput cfg io).start = false := by
        simp [coreInput, coreStore, coreStart, hw]
      rcases hcore with hst | ⟨hfin, hacc⟩
      · have hnot : s.core.finish = false := by simp [Core.finish, hst]
        have hnext := Core.next_of_store cfg (s.coreInput cfg io) undef hst
        constructor <;> simp [busyNext, hw, hnot, hc, hs, hcalc, hidx, hnext]
      · have hyes : s.core.finish = true := by simp [Core.finish, hfin]
        have hready : (s.core.next cfg (s.coreInput cfg io) undef).state = .ready := by
          simp [Core.next_eq, Core.fsm, hfin, hio]
        have hat := hc.at hready
        have hacc' : (s.core.next cfg (s.coreInput cfg io) undef).accumulator = fun _ => 0#32 := by
          simp [Core.next_eq, Core.fsm, hfin, hacc]
        rw [hacc'] at hat
        by_cases hcol : s.currentBlockCol = usub 32 (io.blockBCol cfg) 1
        · by_cases hrow : s.currentBlockRow = usub 32 (io.blockARow cfg) 1
          · have hrest : Rest (s.core.next cfg (s.coreInput cfg io) undef).memory.mem
                { s.busyNext cfg io.toDims with
                  core := s.core.next cfg (s.coreInput cfg io) undef } := by
              constructor <;> simp [busyNext, hw, hyes, hcol, hrow, hcalc, hidx, hat]
            refine ⟨hc, fun _ => hrest, ?_, ?_, ?_⟩
            · simp [busyNext, hw, hyes, hcol, hrow]
            · simp [busyNext, hw, hyes, hcol, hrow]
            · simp [busyNext, hw, hyes, hcol, hrow]
          · constructor <;> simp [busyNext, hw, hyes, hcol, hrow, hc, hs, hcalc, hready]
        · constructor <;> simp [busyNext, hw, hyes, hcol, hc, hs, hcalc, hready]
    · by_cases hcalc : s.waitCalculation = true
      · have hcore := h.calculation hs (by simpa using hw) hcalc
        by_cases hfin : s.core.state = .finish
        · have hyes : s.core.finish = true := by simp [Core.finish, hfin]
          by_cases hlast : s.lastIndex cfg io.toDims = true
          · have hst : (s.core.next cfg (s.coreInput cfg io) undef).state = .store := by
              simp [Core.next_eq, Core.fsm, hfin, coreInput, coreStore, hs, hw, hcalc, hyes, hlast]
            constructor <;> simp [busyNext, hw, hcalc, hyes, hlast, hc, hs, hst]
          · have hst : (s.core.next cfg (s.coreInput cfg io) undef).state = .ready := by
              simp [Core.next_eq, Core.fsm, hfin, coreInput, coreStore, hlast]
            constructor <;> simp [busyNext, hw, hcalc, hyes, hlast, hc, hs, hst]
        · have hnot : s.core.finish = false := by simp [Core.finish, hfin]
          have hcore' : s.core.state = .load ∨ s.core.state = .busy := by
            rcases hcore with hc | hc | hc
            · exact .inl hc
            · exact .inr hc
            · exact absurd hc hfin
          have hnext := Core.next_of_calculation cfg (s.coreInput cfg io) undef hcore'
          constructor <;> simp [busyNext, hw, hcalc, hnot, hc, hs, hnext]
      · have hready := h.issue hs (by simpa using hw) (by simpa using hcalc)
        have hload : (s.core.next cfg (s.coreInput cfg io) undef).state = .load := by
          simp [Core.next_eq, Core.fsm, hready, coreInput, coreStore, coreStart, hs, hw, hcalc]
        constructor <;> simp [busyNext, hw, hcalc, hc, hs, hload]

theorem Reachable.coherent (h : Reachable cfg s) : s.Coherent := by
  induction h with
  | reset memory =>
    refine ⟨⟨?_, ?_, ?_⟩, fun _ => ⟨rfl, rfl, rfl, rfl, rfl, ?_⟩, ?_, ?_, ?_⟩
    · exact fun _ => ⟨rfl, rfl⟩
    · exact fun _ => rfl
    · exact fun _ => ⟨rfl, rfl⟩
    · exact ⟨rfl, rfl, rfl, rfl, rfl, rfl, rfl, rfl⟩
    · exact nofun
    · exact nofun
    · exact nofun
  | next io undef _ ih => exact ih.next io undef

/-- Earlier computations leave nothing behind but the memory. -/
theorem Reachable.rest (h : Reachable cfg s) (hb : s.busy = false) :
    s.state = .ready ∧ s.Rest s.core.memory.mem := by
  have hs : s.state = .ready := by simpa [MatrixMultiplication.busy] using hb
  exact ⟨hs, h.coherent.rest (by simp [hs])⟩

end MatrixMultiplication

end Course.Gemm
