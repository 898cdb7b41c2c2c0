import Course.Cpu.Neighbours
import Mathlib.Algebra.Group.Nat.Defs

/-! What the two processors write, over whole runs of a program. -/

open Course.Lib

namespace Course.Cpu.Pipeline

open Word Arch

variable {board : Board} {t : Top} {s : Arch} {table : BitVec 4 → Bool} {regFile : Reg → Word}
  {memory : Memory} {vW vE vD vF : Bool}

/-! ### Runs of the pipeline -/

/-- In every cycle the operands are right, and the program goes where it is fetched. -/
structure AlwaysClear (board : Board) (t : Top) : Prop where
  data : ∀ n, DataClear ((Top.cycle board)^[n] t)
  control : ∀ n, ControlClear ((Top.cycle board)^[n] t)

theorem AlwaysClear.cycle (h : AlwaysClear board t) : AlwaysClear board (t.cycle board) where
  data n := h.data (n + 1)
  control n := h.control (n + 1)

/-- How many cycles it takes until there is an instruction in front of the memory. -/
def rankE (vE vD vF : Bool) : ℕ :=
  if vE then 0 else if vD then 1 else if vF then 2 else 3

def rankW (vW vE vD vF : Bool) : ℕ := if vW then 0 else 1 + rankE vE vD vF

theorem Inv.Moves.rankE_lt {vD' vF' : Bool} {vE' : Bool} (h : Inv.Moves vE vD vF vE' vD' vF')
    (hv : vE = false) : rankE vE' vD' vF' < rankE vE vD vF := by
  obtain ⟨hE, hD, hF⟩ := h
  subst hv
  revert vD vF vE' vD' vF'
  decide

theorem start_inv :
    Inv board (start table regFile memory) ⟨0, regFile, memory⟩ false false false false where
  regFile := rfl
  memory := rfl
  memwb := rfl
  exmem := ⟨.inl rfl, rfl, rfl, rfl, rfl, rfl, rfl⟩
  idex := ⟨rfl, rfl, rfl, rfl, rfl, rfl, rfl, rfl, rfl⟩
  data1 h := absurd h Bool.false_ne_true
  data2 h := absurd h Bool.false_ne_true
  ifid h := absurd h (by decide)
  empty _ := ⟨rfl, rfl⟩
  jumpD _ := rfl
  jumpE h := absurd h (by decide)
  jumpW h := absurd h (by decide)

theorem Inv.regWrites_eq (h : Inv board t s true vE vD vF) :
    t.regWrites = s.regWrites board := by
  have hwb : t.memwb = .of board s := h.memwb
  rw [Top.regWrites, Top.WB_writeData, Top.WB_writeReg, hwb]
  rfl

theorem Inv.memWrites_eq (h : Inv board t s vW true vD vF) :
    t.memWrites = (s.next board vW).memWrites board := by
  obtain ⟨data, hex, hdata⟩ := h.exmem
  rw [Top.memWrites, Arch.memWrites, hex]
  cases hwrite : ((s.next board vW).instruction board).control.memWrite with
  | true =>
    rw [hdata hwrite]
    simp [BufferEXMEM.of, hwrite]
  | false => simp [BufferEXMEM.of, hwrite]

/-- The instruction in the last buffer is the `m`-th one. -/
theorem follows_regWrites {a : Arch} :
    Follows (Top.cycle board) Top.regWrites (Arch.step board) (Arch.regWrites board) a
      fun t m r => AlwaysClear board t ∧ ∃ vW vE vD vF,
        Inv board t ((Arch.step board)^[m] a) vW vE vD vF ∧ r = rankW vW vE vD vF where
  step t m r h := by
    obtain ⟨hclear, vW, vE, vD, vF, hinv, rfl⟩ := h
    obtain ⟨vE', vD', vF', hinv', hmoves⟩ := hinv.cycle (hclear.data 0) (hclear.control 0)
    cases vW with
    | true =>
      rw [next_true, ← Function.iterate_succ_apply' (Arch.step board)] at hinv'
      exact .inr ⟨_, ⟨hclear.cycle, vE, vE', vD', vF', hinv', rfl⟩, hinv.regWrites_eq⟩
    | false =>
      have hout : t.regWrites = [] := by
        have hwb : t.memwb.regWrite = false := hinv.memwb
        simp [Top.regWrites, hwb]
      refine .inl ⟨_, ?_, ⟨hclear.cycle, vE, vE', vD', vF', hinv', rfl⟩, hout⟩
      cases vE with
      | true => exact Nat.zero_lt_one
      | false => exact Nat.add_lt_add_left (hmoves.rankE_lt rfl) 1

/-- The instruction in front of the memory is the `m`-th one. -/
theorem follows_memWrites {a : Arch} :
    Follows (Top.cycle board) Top.memWrites (Arch.step board) (Arch.memWrites board) a
      fun t m r => AlwaysClear board t ∧ ∃ s vW vE vD vF,
        Inv board t s vW vE vD vF ∧ s.next board vW = (Arch.step board)^[m] a ∧
          r = rankE vE vD vF where
  step t m r h := by
    obtain ⟨hclear, s, vW, vE, vD, vF, hinv, hs, rfl⟩ := h
    obtain ⟨vE', vD', vF', hinv', hmoves⟩ := hinv.cycle (hclear.data 0) (hclear.control 0)
    cases vE with
    | true =>
      refine .inr ⟨_, ⟨hclear.cycle, _, true, vE', vD', vF', hinv', ?_, rfl⟩, ?_⟩
      · rw [hs, Function.iterate_succ_apply']
        rfl
      · rw [hinv.memWrites_eq, hs]
    | false =>
      have hout : t.memWrites = [] := by
        have hex : t.exmem.Bubble := hinv.exmem
        simp [Top.memWrites, hex.memWrite]
      exact .inl ⟨_, hmoves.rankE_lt rfl, ⟨hclear.cycle, _, false, vE', vD', vF', hinv', hs, rfl⟩,
        hout⟩

theorem regWrites_agree (h : AlwaysClear board (start table regFile memory)) :
    Agree (trace (Top.cycle board) Top.regWrites (start table regFile memory))
      (trace (Arch.step board) (Arch.regWrites board) ⟨0, regFile, memory⟩) :=
  follows_regWrites.agree ⟨h, _, _, _, _, start_inv, rfl⟩

theorem memWrites_agree (h : AlwaysClear board (start table regFile memory)) :
    Agree (trace (Top.cycle board) Top.memWrites (start table regFile memory))
      (trace (Arch.step board) (Arch.memWrites board) ⟨0, regFile, memory⟩) :=
  follows_memWrites.agree ⟨h, _, _, _, _, _, start_inv, rfl, rfl⟩

/-! ### Both processors -/

/-- The pipeline writes what the other processor writes, in the same order. -/
structure Refines (board : Board) (table : BitVec 4 → Bool) (regFile : Reg → Word)
    (memory : Memory) : Prop where
  registers : Agree (trace (Top.cycle board) Top.regWrites (start table regFile memory))
    (trace (SingleCycle.Top.cycle board) (SingleCycle.Top.regWrites board)
      (SingleCycle.start board regFile memory))
  memory : Agree (trace (Top.cycle board) Top.memWrites (start table regFile memory))
    (trace (SingleCycle.Top.cycle board) (SingleCycle.Top.memWrites board)
      (SingleCycle.start board regFile memory))

theorem both_agree (hfresh : SingleCycle.AlwaysFresh board (SingleCycle.start board regFile memory))
    (hclear : AlwaysClear board (start table regFile memory)) :
    Refines board table regFile memory where
  registers := (regWrites_agree hclear).trans (SingleCycle.regWrites_agree hfresh).symm
  memory := (memWrites_agree hclear).trans (SingleCycle.memWrites_agree hfresh).symm

/-! ### Programs that do not branch -/

theorem cycle_ifid : (t.cycle board).ifid = .reset ∨ (t.cycle board).ifid = t.ifid ∨
    (t.cycle board).ifid = t.posedge.fetched board := by
  have hcycle : (t.cycle board).ifid = if (t.edge board).flushIF && !t.flushIF then .reset
      else if t.flushIF then .reset else if t.MEM_stall then t.ifid
      else t.posedge.fetched board := rfl
  grind

/-- What holds of all words of the program holds of what is decoded. -/
theorem ifid_instruction {P : Word → Prop} (hnop : P NOP) (h : ∀ i, P (board.instructions i))
    (n : ℕ) : P ((Top.cycle board)^[n] (start table regFile memory)).ifid.instruction := by
  have hfetch : ∀ address, P (board.fetch address) := by
    intro address
    rw [Board.fetch]
    cases index address with
    | some i => exact h i
    | none => exact hnop
  induction n with
  | zero => exact hnop
  | succ n ih =>
    rw [Function.iterate_succ_apply']
    rcases @cycle_ifid board ((Top.cycle board)^[n] (start table regFile memory)) with
      hreset | hheld | hfetched
    · rw [hreset]
      exact hnop
    · rw [hheld]
      exact ih
    · rw [hfetched]
      exact hfetch _

/-- No branch and no jump. -/
structure Branchless (i : Word) : Prop where
  beq : i.branchControl.beq = false
  bne : i.branchControl.bne = false
  jump : i.jump = false

theorem branchless_NOP : Branchless NOP := ⟨rfl, rfl, rfl⟩

theorem Branchless.controlClear (h : Branchless t.ifid.instruction) : ControlClear t := by
  have hjr : t.ifid.instruction.branchControl.jr = false :=
    (Bool.or_eq_false_iff.mp (Bool.or_eq_false_iff.mp h.jump).1).1
  refine ⟨fun _ hbranch => ?_, fun _ hj => ?_, fun _ hj => ?_⟩
  · rw [h.beq, h.bne] at hbranch
    exact absurd hbranch (by decide)
  · exact absurd hj (Bool.eq_false_iff.mp hjr)
  · exact absurd hj (Bool.eq_false_iff.mp hjr)

theorem always_controlClear (hprogram : ∀ i, Branchless (board.instructions i)) (n : ℕ) :
    ControlClear ((Top.cycle board)^[n] (start table regFile memory)) :=
  (ifid_instruction branchless_NOP hprogram n).controlClear

/-! ### Programs whose instructions are in step -/

theorem always_clear (h : Ahead.AlwaysReady board ⟨⟨0, regFile, memory⟩, table⟩) :
    AlwaysClear board (start table regFile memory) := by
  have hforetold : Foretold board (start table regFile memory) ⟨⟨0, regFile, memory⟩, table⟩
      false := ⟨rfl, fun hbranch => absurd hbranch not_branches_reset⟩
  have hinv : Inv board (start table regFile memory)
      (Ahead.arch ⟨⟨0, regFile, memory⟩, table⟩) false false false false := start_inv
  exact ⟨fun n => (hinv.clear h hforetold n).1, fun n => (hinv.clear h hforetold n).2⟩

theorem branchless_fetch (hprogram : ∀ i, Branchless (board.instructions i)) (address : Word) :
    Branchless (board.fetch address) := by
  rw [Board.fetch]
  cases index address with
  | some i => exact hprogram i
  | none => exact branchless_NOP

/-- Without branches the program goes on to the next address, and round at the end. -/
theorem branchless_path (hprogram : ∀ i, Branchless (board.instructions i)) (m : ℕ) :
    ((Arch.step board)^[m] ⟨0, regFile, memory⟩).PC = BitVec.ofNat 32 (4 * m) := by
  induction m with
  | zero => rfl
  | succ m ih =>
    rw [Function.iterate_succ_apply']
    generalize (Arch.step board)^[m] ⟨0, regFile, memory⟩ = s at ih
    have hi : Branchless (s.instruction board) := branchless_fetch hprogram s.PC
    have htaken : s.taken board = false := by rw [Arch.taken, hi.beq, hi.bne]; rfl
    rw [step_PC_next htaken hi.jump, ih, Nat.mul_succ, BitVec.ofNat_add]

/-- The `n`-th word of the program. -/
def wordAt (board : Board) (n : ℕ) : Word :=
  if h : n < 64 then board.instructions ⟨n, h⟩ else NOP

theorem fetch_path (m : ℕ) :
    board.fetch (BitVec.ofNat 32 (4 * m)) = wordAt board (m % 2 ^ 30) := by
  have hindex : (BitVec.ofNat 32 (4 * m) >>> 2).toNat = m % 2 ^ 30 := by
    rw [BitVec.toNat_ushiftRight, BitVec.toNat_ofNat, Nat.shiftRight_eq_div_pow]
    omega
  rw [Board.fetch, index]
  by_cases hlt : m % 2 ^ 30 < 64
  · simp only [hindex, hlt, dif_pos, wordAt]
  · simp only [hindex, hlt, dif_neg, wordAt, not_false_eq_true]

/-! ### Without branches -/

theorem straight_refines (hprogram : ∀ i, Branchless (board.instructions i))
    (hfresh : SingleCycle.AlwaysFresh board (SingleCycle.start board regFile memory))
    (hdata : ∀ n, DataClear ((Top.cycle board)^[n] (start table regFile memory))) :
    Refines board table regFile memory :=
  both_agree hfresh ⟨hdata, always_controlClear hprogram⟩

/-- `ori $4, $0, 8`, `ori $5, $0, 1`, `ori $6, $0, 2`, `lw $1, 0($4)`, `add $2, $5, $1`,
`sw $2, 4($4)`, `ori $3, $6, 4` and `add $7, $3, $2`. -/
def hazards : Board where
  instructions
    | 0 => 0x34040008#32
    | 1 => 0x34050001#32
    | 2 => 0x34060002#32
    | 3 => 0x8c810000#32
    | 4 => 0x00a11020#32
    | 5 => 0xac820004#32
    | 6 => 0x34c30004#32
    | 7 => 0x00623820#32
    | _ => NOP
  beyond _ := 0

theorem branchless_hazards (i : Fin 64) : Branchless (hazards.instructions i) := by
  simp only [hazards]
  split <;> exact ⟨rfl, rfl, by decide⟩

/-- From the `r`-th word on there is nothing more to do, until the program begins again. -/
theorem wordAt_hazards {r : ℕ} (h : 8 ≤ r) : wordAt hazards r = NOP := by
  rw [wordAt]
  split
  next hlt =>
    have hrest : ∀ i : Fin 64, 8 ≤ i.val → hazards.instructions i = NOP := by decide
    exact hrest ⟨r, hlt⟩ h
  next => rfl

theorem hazards_path (m : ℕ) :
    InStep (hazards.fetch (BitVec.ofNat 32 (4 * m))) (hazards.fetch (BitVec.ofNat 32 (4 * (m + 1))))
      (hazards.fetch (BitVec.ofNat 32 (4 * (m + 2)))) ∧
    SingleCycle.Notices (hazards.fetch (BitVec.ofNat 32 (4 * m)))
      (hazards.fetch (BitVec.ofNat 32 (4 * (m + 1)))) := by
  rw [fetch_path, fetch_path, fetch_path]
  obtain ⟨r, hr⟩ : ∃ r, m % 2 ^ 30 = r := ⟨_, rfl⟩
  by_cases hlast : r < 8
  · rw [show (m + 1) % 2 ^ 30 = r + 1 by omega, show (m + 2) % 2 ^ 30 = r + 2 by omega, hr]
    have hall : ∀ r < 8,
        InStep (wordAt hazards r) (wordAt hazards (r + 1)) (wordAt hazards (r + 2)) ∧
          SingleCycle.Notices (wordAt hazards r) (wordAt hazards (r + 1)) := by decide
    exact hall r hlast
  · rw [hr, wordAt_hazards (Nat.not_lt.mp hlast)]
    by_cases hround : r = 2 ^ 30 - 1
    · rw [show (m + 1) % 2 ^ 30 = 0 by omega, show (m + 2) % 2 ^ 30 = 1 by omega]
      exact ⟨by decide, by decide⟩
    · rw [show (m + 1) % 2 ^ 30 = r + 1 by omega, wordAt_hazards (by omega)]
      by_cases hround' : r = 2 ^ 30 - 2
      · rw [show (m + 2) % 2 ^ 30 = 0 by omega]
        exact ⟨by decide, by decide⟩
      · rw [show (m + 2) % 2 ^ 30 = r + 2 by omega, wordAt_hazards (by omega)]
        exact ⟨by decide, by decide⟩

/-- The load is waited for, and operands are forwarded. -/
theorem straight_refines_hazards :
    Refines hazards (fun _ => false) (fun _ => 0) (fun _ => 7) := by
  have hready : Ahead.AlwaysReady hazards ⟨⟨0, fun _ => 0, fun _ => 7⟩, fun _ => false⟩ := by
    refine Ahead.alwaysReady_of_path (branchless_path branchless_hazards)
      (fun m => (hazards_path m).1) fun m hbranch => ?_
    have hi := branchless_fetch branchless_hazards (BitVec.ofNat 32 (4 * m))
    rw [Branches, hi.beq, hi.bne] at hbranch
    exact absurd hbranch (by decide)
  apply straight_refines branchless_hazards
  · exact SingleCycle.alwaysFresh_of_path (branchless_path branchless_hazards) fun m =>
      (hazards_path m).2
  · exact (always_clear hready).data

/-- `lw $1, 0($0)` and `add $2, $1, $0`. -/
def loadUse : Board where
  instructions
    | 0 => 0x8c010000#32
    | 1 => 0x00201020#32
    | _ => NOP
  beyond _ := 0

/-- The addition gets the address of the load. -/
theorem not_straight_refines_loadUse : ¬∀ board : Board,
    (∀ i, Branchless (board.instructions i)) → ∀ table regFile memory,
      Refines board table regFile memory := by
  intro h
  have hprogram : ∀ i, Branchless (loadUse.instructions i) := by
    intro i
    simp only [loadUse]
    split
    · exact ⟨rfl, rfl, by decide⟩
    · exact ⟨rfl, rfl, by decide⟩
    · exact ⟨rfl, rfl, by decide⟩
  have hagree := (h loadUse hprogram (fun _ => false) (fun _ => 0) (fun _ => 7)).registers
  have hpipeline : trace (Top.cycle loadUse) Top.regWrites
      (start (fun _ => false) (fun _ => 0) (fun _ => 7)) 8 = [(1, 7), (2, 0)] := by
    decide +kernel
  have hsingle : trace (SingleCycle.Top.cycle loadUse) (SingleCycle.Top.regWrites loadUse)
      (SingleCycle.start loadUse (fun _ => 0) (fun _ => 7)) 2 = [(1, 7), (2, 7)] := by
    decide +kernel
  have hcomparable := hagree.comparable 2 8
  rw [hpipeline, hsingle] at hcomparable
  revert hcomparable
  decide

/-! ### With branches -/

/-- The table of the predictions changes nothing, and nothing is written that the other
processor does not write. -/
theorem branches_refine (hclear : AlwaysClear board (start table regFile memory)) :
    (∀ table', AlwaysClear board (start table' regFile memory) →
      Agree (trace (Top.cycle board) Top.regWrites (start table regFile memory))
        (trace (Top.cycle board) Top.regWrites (start table' regFile memory)) ∧
      Agree (trace (Top.cycle board) Top.memWrites (start table regFile memory))
        (trace (Top.cycle board) Top.memWrites (start table' regFile memory))) ∧
    (SingleCycle.AlwaysFresh board (SingleCycle.start board regFile memory) →
      Refines board table regFile memory) := by
  refine ⟨fun table' hclear' => ⟨?_, ?_⟩, fun hfresh => both_agree hfresh hclear⟩
  · exact (regWrites_agree hclear).trans (regWrites_agree hclear').symm
  · exact (memWrites_agree hclear).trans (memWrites_agree hclear').symm

/-- `ori $1, $0, 1`, `ori $5, $0, 1` and `beq $1, $5, 1` over the next instruction into a loop of
`ori $2, $1, 2`, `ori $6, $2, 0`, `bne $2, $6, 1`, `ori $3, $2, 0` and `j 4`. Behind the `beq` and
the `j` is `ori $7, $0, 9`. -/
def loop : Board where
  instructions
    | 0 => 0x34010001#32
    | 1 => 0x34050001#32
    | 2 => 0x10250001#32
    | 3 => 0x34070009#32
    | 4 => 0x34220002#32
    | 5 => 0x34460000#32
    | 6 => 0x14460001#32
    | 7 => 0x34430000#32
    | 8 => 0x08000004#32
    | 9 => 0x34070009#32
    | _ => NOP
  beyond _ := 0

def loopPath (m : ℕ) : Word :=
  if m < 3 then BitVec.ofNat 32 (4 * m) else BitVec.ofNat 32 (16 + 4 * ((m - 3) % 5))

/-- At the `k`-th instruction of the loop. The branch there compares equal registers. -/
structure OnLoop (k : ℕ) (a : Ahead) : Prop where
  PC : a.arch.PC = BitVec.ofNat 32 (16 + 4 * k)
  equal : k = 2 → a.arch.regFile 2 = a.arch.regFile 6
  table : a.table 3 = false

namespace OnLoop

variable {k : ℕ} {a : Ahead}

theorem instruction (h : OnLoop k a) :
    a.arch.instruction loop = loop.fetch (BitVec.ofNat 32 (16 + 4 * k)) :=
  congrArg loop.fetch h.PC

theorem not_taken (h : OnLoop k a) (hk : k < 5) : a.arch.taken loop = false := by
  have hi := h.instruction
  rcases (by omega : k = 0 ∨ k = 1 ∨ k = 2 ∨ k = 3 ∨ k = 4) with rfl | rfl | rfl | rfl | rfl
  case inr.inr.inl =>
    have hresult : a.arch.result loop = a.arch.regFile 2 - a.arch.regFile 6 := by
      rw [Arch.result, hi]
      rfl
    rw [Arch.taken, hi, hresult, h.equal rfl, BitVec.sub_self]
    rfl
  all_goals
    rw [Arch.taken, hi]
    rfl

theorem step_PC (h : OnLoop k a) (hk : k < 5) :
    (a.arch.step loop).PC = BitVec.ofNat 32 (16 + 4 * ((k + 1) % 5)) := by
  have hi := h.instruction
  have hnot := h.not_taken hk
  rcases (by omega : k = 0 ∨ k = 1 ∨ k = 2 ∨ k = 3 ∨ k = 4) with rfl | rfl | rfl | rfl | rfl
  case inr.inr.inr.inr =>
    rw [step_PC_jump hnot (by rw [hi]; rfl), Arch.jumpAddr, hi, h.PC,
      if_neg (by decide)]
    decide
  all_goals
    rw [step_PC_next hnot (by rw [hi]; rfl), h.PC]
    decide

theorem step_equal (h : OnLoop 1 a) :
    (a.arch.step loop).regFile 2 = (a.arch.step loop).regFile 6 := by
  have hi := h.instruction
  have hdest : (a.arch.instruction loop).dest = 6 := by rw [hi]; rfl
  have hdata : a.arch.writeData loop = a.arch.regFile 2 ||| 0#32 := by
    rw [Arch.writeData, Arch.result, hi]
    rfl
  rw [step_regFile_dest (by rw [hi]; rfl) hdest (by decide), hdata, BitVec.or_zero]
  apply step_regFile_of_ne
  rw [hdest]
  exact fun _ _ => by decide

/-- Once round. -/
theorem step (h : OnLoop k a) (hk : k < 5) : OnLoop ((k + 1) % 5) (a.step loop) where
  PC := h.step_PC hk
  equal heq := by
    obtain rfl : k = 1 := by omega
    exact h.step_equal
  table := by
    have hsame : (a.next loop true).table = a.table :=
      Ahead.next_table_of_not_taken fun _ => h.not_taken hk
    rw [← h.table, ← hsame]
    rfl

end OnLoop

/-- After the three instructions in front, of which the last one is a branch that is taken. -/
theorem onLoop {table : BitVec 4 → Bool} (h : table 3 = false) (m : ℕ) :
    OnLoop (m % 5) ((Ahead.step loop)^[m + 3] ⟨⟨0, fun _ => 0, fun _ => 0⟩, table⟩) := by
  induction m with
  | zero =>
    obtain ⟨a, ha⟩ : ∃ a : Ahead, a = ⟨⟨0, fun _ => 0, fun _ => 0⟩, table⟩ := ⟨_, rfl⟩
    have harch : a.arch = ⟨0, fun _ => 0, fun _ => 0⟩ := by rw [ha]
    have htable : ((Ahead.step loop)^[3] a).table 3 = a.table 3 := by
      have hne : ∀ m < 3, 3 ≠ tableIndex ((Ahead.step loop)^[m] a).arch.PC := by
        simp only [Ahead.iterate_arch, harch]
        decide
      rw [Function.iterate_succ_apply', Ahead.step_table_of_ne (hne 2 (by decide)),
        Function.iterate_succ_apply', Ahead.step_table_of_ne (hne 1 (by decide))]
      exact Ahead.step_table_of_ne (hne 0 (by decide))
    rw [← ha]
    refine ⟨?_, fun heq => absurd heq (by decide), htable.trans ?_⟩
    · rw [Ahead.iterate_arch, harch]
      decide
    · rw [ha]
      exact h
  | succ m ih =>
    rw [Nat.add_right_comm, Function.iterate_succ_apply',
      show (m + 1) % 5 = (m % 5 + 1) % 5 by omega]
    exact ih.step (Nat.mod_lt m (by decide))

theorem loop_path (m : ℕ) :
    ((Arch.step loop)^[m] ⟨0, fun _ => 0, fun _ => 0⟩).PC = loopPath m := by
  by_cases hlt : m < 3
  · have hall : ∀ m < 3, ((Arch.step loop)^[m] ⟨0, fun _ => 0, fun _ => 0⟩).PC = loopPath m := by
      decide
    exact hall m hlt
  · obtain ⟨k, rfl⟩ := Nat.exists_eq_add_of_le' (Nat.not_lt.mp hlt)
    have hon : OnLoop (k % 5) _ := @onLoop (fun _ => false) rfl k
    have hPC := hon.PC
    rw [Ahead.iterate_arch] at hPC
    rw [hPC, loopPath, if_neg hlt, Nat.add_sub_cancel]

theorem loop_inStep (m : ℕ) :
    InStep (loop.fetch (loopPath m)) (loop.fetch (loopPath (m + 1)))
      (loop.fetch (loopPath (m + 2))) ∧
    SingleCycle.Notices (loop.fetch (loopPath m)) (loop.fetch (loopPath (m + 1))) := by
  have hall : ∀ m < 8, InStep (loop.fetch (loopPath m)) (loop.fetch (loopPath (m + 1)))
      (loop.fetch (loopPath (m + 2))) ∧
    SingleCycle.Notices (loop.fetch (loopPath m)) (loop.fetch (loopPath (m + 1))) := by decide
  by_cases hlt : m < 8
  · exact hall m hlt
  · -- the way is the same from one round to the next
    have hround : ∀ k, loopPath (k + 3) = loopPath (k % 5 + 3) := by
      intro k
      rw [loopPath, loopPath, if_neg (by omega), if_neg (by omega), Nat.add_sub_cancel,
        Nat.add_sub_cancel, Nat.mod_mod]
    obtain ⟨k, rfl⟩ := Nat.exists_eq_add_of_le' (show 3 ≤ m by omega)
    have hk := hall (k % 5 + 3) (by omega)
    rw [show k + 3 + 1 = k + 1 + 3 from rfl, show k + 3 + 2 = k + 2 + 3 from rfl, hround k,
      hround (k + 1), hround (k + 2)]
    rw [show k % 5 + 3 + 1 = k % 5 + 1 + 3 from rfl, show k % 5 + 3 + 2 = k % 5 + 2 + 3 from rfl,
      hround (k % 5 + 1), hround (k % 5 + 2), Nat.mod_add_mod, Nat.mod_add_mod] at hk
    exact hk

/-- The branch in front is not predicted as taken, nor is the one in the loop. -/
theorem loop_ready {table : BitVec 4 → Bool} (h₁ : table 1 = false) (h₃ : table 3 = false) :
    Ahead.AlwaysReady loop ⟨⟨0, fun _ => 0, fun _ => 0⟩, table⟩ := by
  refine Ahead.alwaysReady_of_path loop_path (fun m => (loop_inStep m).1) fun m hbranch => ?_
  by_cases hlt : m < 3
  · have hfront : ∀ m < 3, Branches (loop.fetch (loopPath m)) → m = 2 := by decide
    obtain rfl := hfront m hlt hbranch
    have hne : ∀ m < 2, 1 ≠ tableIndex (loopPath m) := by decide
    rw [Function.iterate_succ_apply', show tableIndex (loopPath 2) = 1 by decide,
      Ahead.step_table_of_ne, Function.iterate_one, Ahead.step_table_of_ne (hne 0 (by decide))]
    · exact h₁
    · rw [Ahead.iterate_arch, loop_path]
      exact hne 1 (by decide)
  · obtain ⟨k, rfl⟩ := Nat.exists_eq_add_of_le' (Nat.not_lt.mp hlt)
    have hloop : ∀ r < 5, Branches (loop.fetch (BitVec.ofNat 32 (16 + 4 * r))) →
        tableIndex (BitVec.ofNat 32 (16 + 4 * r)) = 3 := by decide
    have hpath : loopPath (k + 3) = BitVec.ofNat 32 (16 + 4 * (k % 5)) := by
      rw [loopPath, if_neg hlt, Nat.add_sub_cancel]
    rw [hpath] at hbranch ⊢
    rw [hloop (k % 5) (Nat.mod_lt k (by decide)) hbranch]
    exact (onLoop h₃ k).table

theorem branches_refine_loop :
    (Agree (trace (Top.cycle loop) Top.regWrites (start (fun _ => false) (fun _ => 0) fun _ => 0))
        (trace (Top.cycle loop) Top.regWrites (start (· == 2) (fun _ => 0) fun _ => 0)) ∧
      Agree (trace (Top.cycle loop) Top.memWrites (start (fun _ => false) (fun _ => 0) fun _ => 0))
        (trace (Top.cycle loop) Top.memWrites (start (· == 2) (fun _ => 0) fun _ => 0))) ∧
    Refines loop (fun _ => false) (fun _ => 0) (fun _ => 0) := by
  obtain ⟨htable, hrefines⟩ :=
    branches_refine (always_clear (@loop_ready (fun _ => false) rfl rfl))
  refine ⟨htable _ (always_clear (loop_ready rfl rfl)), hrefines ?_⟩
  exact SingleCycle.alwaysFresh_of_path loop_path fun m => (loop_inStep m).2

/-- `beq $0, $0, 1` over the next instruction, then `addi $1, $1, 1`, `addi $2, $0, 5` and
`addi $3, $0, 6`. -/
def skip : Board where
  instructions
    | 0 => 0x10000001#32
    | 2 => 0x20210001#32
    | 3 => 0x20020005#32
    | 4 => 0x20030006#32
    | _ => NOP
  beyond _ := 0

/-- Behind a branch that is predicted as taken, instructions are repeated. -/
theorem not_refines_skip : ¬∀ board table regFile memory, Refines board table regFile memory := by
  intro h
  have hagree := (h skip (fun _ => true) (fun _ => 0) (fun _ => 0)).registers
  have hpipeline : trace (Top.cycle skip) Top.regWrites
      (start (fun _ => true) (fun _ => 0) (fun _ => 0)) 9 = [(1, 1), (2, 5), (1, 2), (1, 3)] := by
    decide +kernel
  have hsingle : trace (SingleCycle.Top.cycle skip) (SingleCycle.Top.regWrites skip)
      (SingleCycle.start skip (fun _ => 0) (fun _ => 0)) 4 = [(1, 1), (2, 5), (3, 6)] := by
    decide +kernel
  have hcomparable := hagree.comparable 4 9
  rw [hpipeline, hsingle] at hcomparable
  revert hcomparable
  decide

end Course.Cpu.Pipeline
