import Course.Cpu.Order
import Course.Cpu.SingleCycle

/-! Programs whose operands and predictions are right in both processors, as the instructions
that come one after the other tell. -/

namespace Course.Cpu.Pipeline

open Word Arch

/-! ### Instructions one after the other -/

instance {i : Word} {r : Reg} : Decidable (Reads i r) :=
  inferInstanceAs (Decidable (_ ∧ _ ∨ _ ∧ _))

/-- `MEM_stall`, with `i` in front of the memory and `j` behind it. -/
def stalls (i j : Word) : Bool :=
  i.control.memRead && (i.writeReg == j.rt || i.writeReg == j.rd && !j.control.ALUSrc) &&
    j.opCode != OP_LW && !j.jump

/-- The pipeline gets `h`, `i` and `j` right when they come one after the other. -/
structure InStep (h i j : Word) : Prop where
  inner : stalls h i = false → Reads i h.writeReg → h.writeReg ≠ 0 →
    h.control.regWrite = true ∧ h.control.memToReg = false
  stall : stalls i j = true → h.control.regWrite = true → Reads j h.writeReg →
    h.writeReg = i.writeReg
  /-- Register 0 is not written. -/
  zero : h.control.regWrite = true → h.dest ≠ 0
  /-- Register 31 is not read, which bubbles seem to write. -/
  bubble : ¬Reads h 31
  jr : h.branchControl.jr = false

instance {h i j : Word} : Decidable (InStep h i j) :=
  decidable_of_iff ((stalls h i = false → Reads i h.writeReg → h.writeReg ≠ 0 →
      h.control.regWrite = true ∧ h.control.memToReg = false) ∧
    (stalls i j = true → h.control.regWrite = true → Reads j h.writeReg →
      h.writeReg = i.writeReg) ∧
    (h.control.regWrite = true → h.dest ≠ 0) ∧ ¬Reads h 31 ∧ h.branchControl.jr = false)
    ⟨fun ⟨inner, stall, zero, bubble, jr⟩ => ⟨inner, stall, zero, bubble, jr⟩,
      fun h => ⟨h.inner, h.stall, h.zero, h.bubble, h.jr⟩⟩

/-- A branch, taken or not. -/
def Branches (i : Word) : Prop := (i.branchControl.beq || i.branchControl.bne) = true

instance {i : Word} : Decidable (Branches i) := inferInstanceAs (Decidable (_ = true))

/-- What is ahead of the pipeline: instructions, and the predictions that they find. -/
structure Ahead where
  arch : Arch
  table : BitVec 4 → Bool

namespace Ahead

variable (board : Board) (a : Ahead)

def step : Ahead where
  arch := a.arch.step board
  table :=
    if a.arch.taken board then
      Function.update a.table (tableIndex a.arch.PC) (!a.table (tableIndex a.arch.PC))
    else a.table

/-- `step`, if there is an instruction. -/
def next (valid : Bool) : Ahead := if valid then a.step board else a

def instruction : Word := a.arch.instruction board

/-- The next three instructions are in step, and the first one is not predicted as taken. -/
structure Ready : Prop where
  inStep : InStep (a.instruction board) ((a.step board).instruction board)
    (((a.step board).step board).instruction board)
  predict : Branches (a.instruction board) → a.table (tableIndex a.arch.PC) = false

def AlwaysReady : Prop := ∀ m, ((step board)^[m] a).Ready board

variable {board a} {valid : Bool}

theorem next_arch : (a.next board valid).arch = a.arch.next board valid := by
  cases valid <;> rfl

theorem iterate_arch (m : ℕ) :
    ((Ahead.step board)^[m] a).arch = (Arch.step board)^[m] a.arch := by
  induction m with
  | zero => rfl
  | succ m ih =>
    rw [Function.iterate_succ_apply', Function.iterate_succ_apply', ← ih]
    rfl

/-- The instructions are those on a way through the program. -/
theorem alwaysReady_of_path {path : ℕ → Word}
    (hpath : ∀ m, ((Arch.step board)^[m] a.arch).PC = path m)
    (hstep : ∀ m, InStep (board.fetch (path m)) (board.fetch (path (m + 1)))
      (board.fetch (path (m + 2))))
    (hpredict : ∀ m, Branches (board.fetch (path m)) →
      ((Ahead.step board)^[m] a).table (tableIndex (path m)) = false) :
    a.AlwaysReady board := by
  have hPC : ∀ m, ((Ahead.step board)^[m] a).arch.PC = path m := by
    intro m
    rw [iterate_arch, hpath]
  have hfetch : ∀ m, ((Ahead.step board)^[m] a).instruction board = board.fetch (path m) :=
    fun m => congrArg board.fetch (hPC m)
  refine fun m => ⟨?_, fun hbranch => ?_⟩
  · rw [← Function.iterate_succ_apply' (Ahead.step board),
      ← Function.iterate_succ_apply' (Ahead.step board), hfetch, hfetch, hfetch]
    exact hstep m
  · rw [hfetch] at hbranch
    rw [hPC]
    exact hpredict m hbranch

theorem AlwaysReady.step (h : a.AlwaysReady board) : (a.step board).AlwaysReady board :=
  fun m => h (m + 1)

theorem AlwaysReady.next (h : a.AlwaysReady board) : (a.next board valid).AlwaysReady board := by
  cases valid
  · exact h
  · exact h.step

end Ahead

variable {board : Board} {t : Top} {a : Ahead} {vW vE vD vF : Bool} {r : Reg}

/-! ### Operands -/

theorem reads_of_decode {i PC jumpAddr data1 data2 : Word} {branchPredict : Bool}
    (hr : (decode i PC branchPredict jumpAddr data1 data2).Reads r) : Reads i r := by
  rcases hr with ⟨hreads, hreg⟩ | ⟨hreads, hreg⟩
  · rw [BufferIDEX.reads1, Bool.and_eq_true] at hreads
    exact .inl ⟨Bool.or_eq_true_iff.mpr (.inl hreads.2), hreg⟩
  · rw [BufferIDEX.reads2, Bool.or_eq_true, Bool.and_assoc, Bool.and_eq_true] at hreads
    exact .inr ⟨Bool.or_eq_true_iff.mpr (hreads.imp_left And.right), hreg⟩

namespace Inv

/-- The instruction in execution is in step. -/
theorem idex_instruction (h : Inv board t a.arch vW vE true vF) :
    t.idex.instruction = ((a.next board vW).next board vE).instruction board := by
  rw [h.fields, Ahead.instruction, Ahead.next_arch, Ahead.next_arch]
  rfl

theorem exmem_of (h : Inv board t a.arch vW true vD vF) :
    ∃ data, t.exmem = .of board (a.next board vW).arch data := by
  obtain ⟨data, hex, -⟩ := h.exmem
  exact ⟨data, by rw [hex, Ahead.next_arch]⟩

theorem stalls_eq (h : Inv board t a.arch vW true true vF) :
    t.MEM_stall = stalls ((a.next board vW).instruction board) t.idex.instruction := by
  obtain ⟨data, hex⟩ := h.exmem_of
  rw [Top.MEM_stall, hex, h.fields]
  rfl

theorem reads (h : Inv board t a.arch vW vE vD vF) (hr : t.idex.Reads r) :
    vD = true ∧ Reads t.idex.instruction r := by
  cases vD with
  | true =>
    rw [h.fields] at hr ⊢
    exact ⟨rfl, reads_of_decode hr⟩
  | false => exact absurd hr h.not_reads

theorem inner_of_ready (h : Inv board t a.arch vW vE vD vF) (ha : a.AlwaysReady board)
    (hstall : t.MEM_stall = false) (hr : t.idex.Reads r) (hinner : t.innerForward r = true) :
    t.exmem.regWrite = true ∧ t.exmem.memToReg = false := by
  obtain ⟨rfl, hreads⟩ := h.reads hr
  have hi := h.idex_instruction
  rw [Top.innerForward, Bool.and_eq_true, beq_iff_eq, bne_iff_ne] at hinner
  obtain ⟨rfl, hne⟩ := hinner
  cases vE with
  | true =>
    obtain ⟨data, hex⟩ := h.exmem_of
    rw [h.stalls_eq, hi] at hstall
    rw [hi] at hreads
    rw [hex] at hreads hne ⊢
    have hnext : (a.next board vW).AlwaysReady board := ha.next
    exact (hnext 0).inStep.inner hstall hreads hne
  | false =>
    have hbubble : t.exmem.Bubble := h.exmem
    rcases hbubble.writeReg with hzero | hlast
    · exact absurd hzero hne
    · rw [hi, hlast] at hreads
      have hnext : (a.next board vW).AlwaysReady board := ha.next
      exact absurd hreads (hnext 0).inStep.bubble

theorem stall_of_ready (h : Inv board t a.arch vW vE vD vF) (ha : a.AlwaysReady board)
    (hstall : t.MEM_stall = true) (hr : t.idex.Reads r) (hforward : t.memForward r = true) :
    r = t.exmem.writeReg := by
  obtain ⟨rfl, hreads⟩ := h.reads hr
  have hread : t.exmem.memRead = true := by
    simp only [Top.MEM_stall, Bool.and_eq_true] at hstall
    exact hstall.1.1.1
  obtain ⟨rfl, -, -⟩ := h.of_memRead hread
  have hi := h.idex_instruction
  obtain ⟨data, hex⟩ := h.exmem_of
  rw [h.stalls_eq, hi] at hstall
  rw [hi] at hreads
  rw [Top.memForward, Top.forwardWriteReg, Bool.and_eq_true, beq_iff_eq, bne_iff_ne] at hforward
  obtain ⟨hreg, hne⟩ := hforward
  by_cases hwrite : t.memwb.regWrite = true
  · rw [if_pos hwrite] at hreg
    subst hreg
    cases vW with
    | true =>
      have hwb : t.memwb = .of board a.arch := h.memwb
      rw [hwb] at hwrite hreads ⊢
      rw [hex]
      exact (ha 0).inStep.stall hstall hwrite hreads
    | false => exact absurd (hwrite.symm.trans h.memwb) (by decide)
  · exact absurd (if_neg hwrite) hne

theorem dataClear (h : Inv board t a.arch vW vE vD vF) (ha : a.AlwaysReady board) :
    DataClear t where
  inner _ := h.inner_of_ready ha
  stall _ := h.stall_of_ready ha
  zero _ _ hwrite hreg := by
    cases vW with
    | true =>
      have hwb : t.memwb = .of board a.arch := h.memwb
      rw [Top.WB_writeReg, hwb] at hreg
      rw [hwb] at hwrite
      exact absurd hreg ((ha 0).inStep.zero hwrite)
    | false => exact absurd (hwrite.symm.trans h.memwb) (by decide)

end Inv

/-! ### Predictions -/

/-- The predictions of the pipeline are those that the program finds. -/
structure Foretold (board : Board) (t : Top) (a : Ahead) (vW : Bool) : Prop where
  table : t.branchPredictionTable = (a.next board vW).table
  ifid : Branches t.ifid.instruction →
    t.ifid.branchPredict = t.branchPredictionTable (tableIndex t.ifid.PC)

theorem not_branches_reset : ¬Branches BufferIFID.reset.instruction := by decide

namespace Ahead

theorem next_table_of_not_taken {valid : Bool}
    (h : valid = true → a.arch.taken board = false) : (a.next board valid).table = a.table := by
  cases valid with
  | true => exact if_neg (Bool.eq_false_iff.mp (h rfl))
  | false => rfl

theorem step_table_of_ne {j : BitVec 4} (h : j ≠ tableIndex a.arch.PC) :
    (a.step board).table j = a.table j := by
  rw [step]
  split
  · exact Function.update_of_ne h _ _
  · rfl

end Ahead

namespace Inv

/-- What is decoded, if it is not flushed. -/
theorem ifid_of_ready (h : Inv board t a.arch vW vE vD true) (ha : a.AlwaysReady board)
    (hf : Foretold board t a vW) (hdecodes : t.Decodes) :
    ∃ b : Ahead, b.Ready board ∧ t.ifid.instruction = b.instruction board ∧
      t.ifid.PC = b.arch.PC ∧ t.branchPredictionTable = b.table := by
  have hclear := h.dataClear ha
  obtain ⟨hstall, hpredict⟩ := hdecodes
  have htakenE : vE = true → (a.next board vW).arch.taken board = false := by
    intro hv
    rw [Ahead.next_arch]
    by_contra htaken
    exact absurd (h.jumpE hv (.inr (Bool.of_not_eq_false htaken))).2 (by decide)
  have htakenD : vD = true → ((a.arch.next board vW).next board vE).taken board = false := by
    rintro rfl
    rw [h.predictCorrect, h.branchTaken hclear hstall, Bool.not_eq_true'] at hpredict
    exact hpredict
  have hbranch : t.exmem.branch = false := by
    rw [h.branchE, ← Ahead.next_arch]
    cases hv : vE with
    | true => rw [htakenE hv]; rfl
    | false => rfl
  have hs := h.straight hclear ⟨hstall, hbranch, by rw [h.predictE, hbranch]; rfl⟩ htakenD
  have hfetched := h.ifid rfl
  rw [h.address hs, ← Ahead.next_arch, ← Ahead.next_arch, ← Ahead.next_arch] at hfetched
  refine ⟨((a.next board vW).next board vE).next board vD, ha.next.next.next 0,
    hfetched.instruction, hfetched.PC, ?_⟩
  rw [Ahead.next_table_of_not_taken fun hv => ?_, Ahead.next_table_of_not_taken htakenE, hf.table]
  rw [Ahead.next_arch, Ahead.next_arch]
  exact htakenD hv

theorem controlClear (h : Inv board t a.arch vW vE vD vF) (ha : a.AlwaysReady board)
    (hf : Foretold board t a vW) : ControlClear t := by
  cases vF with
  | true =>
    have hjr : t.Decodes → t.ifid.instruction.branchControl.jr = false := by
      intro hdecodes
      obtain ⟨b, hb, hi, -, -⟩ := h.ifid_of_ready ha hf hdecodes
      rw [hi]
      exact hb.inStep.jr
    refine ⟨fun hdecodes hbranch => ?_, fun hdecodes hj => ?_, fun hdecodes hj => ?_⟩
    · obtain ⟨b, hb, hi, hPC, htable⟩ := h.ifid_of_ready ha hf hdecodes
      rw [hf.ifid hbranch, htable, hPC]
      exact hb.predict (hi ▸ hbranch)
    · exact absurd hj (Bool.eq_false_iff.mp (hjr hdecodes))
    · exact absurd hj (Bool.eq_false_iff.mp (hjr hdecodes))
  | false =>
    obtain ⟨hempty, -⟩ := h.empty rfl
    have hjr : t.ifid.instruction.branchControl.jr = false := by
      rw [hempty]
      rfl
    refine ⟨fun _ hbranch => ?_, fun _ hj => ?_, fun _ hj => ?_⟩
    · exact absurd (hempty ▸ hbranch) not_branches_reset
    · exact absurd hj (Bool.eq_false_iff.mp hjr)
    · exact absurd hj (Bool.eq_false_iff.mp hjr)

theorem cycle_table (h : Inv board t a.arch vW vE vD vF) (hf : Foretold board t a vW) :
    (t.cycle board).branchPredictionTable = ((a.next board vW).next board vE).table := by
  have hcycle : (t.cycle board).branchPredictionTable =
      if t.exmem.predictCorrect then t.branchPredictionTable
      else Function.update t.branchPredictionTable (tableIndex t.exmem.PC)
        (!t.branchPredictionTable (tableIndex t.exmem.PC)) := rfl
  rw [hcycle, h.predictE, h.branchE, ← Ahead.next_arch, hf.table]
  cases vE with
  | true =>
    obtain ⟨data, hex⟩ := h.exmem_of
    rw [hex]
    cases htaken : (a.next board vW).arch.taken board with
    | true => exact (if_pos htaken).symm
    | false => exact (if_neg (Bool.eq_false_iff.mp htaken)).symm
  | false => rfl

/-- The predictions stay those that the program finds. -/
theorem cycle_foretold (h : Inv board t a.arch vW vE vD vF) (hf : Foretold board t a vW) :
    Foretold board (t.cycle board) (a.next board vW) vE where
  table := h.cycle_table hf
  ifid := by
    have hcycle : (t.cycle board).ifid = if (t.edge board).flushIF && !t.flushIF then .reset
        else if t.flushIF then .reset else if t.MEM_stall then t.ifid
        else t.posedge.fetched board := rfl
    rw [hcycle]
    split
    · exact fun hbranch => absurd hbranch not_branches_reset
    split
    · exact fun hbranch => absurd hbranch not_branches_reset
    split
    next hstall =>
      intro hbranch
      have hread : t.exmem.memRead = true := by
        simp only [Top.MEM_stall, Bool.and_eq_true] at hstall
        exact hstall.1.1.1
      have hpredict : t.exmem.predictCorrect = true := by
        rw [h.predictE, (h.of_memRead hread).2.2]
        rfl
      have htable : (t.cycle board).branchPredictionTable = t.branchPredictionTable :=
        if_pos hpredict
      rw [htable]
      exact hf.ifid hbranch
    · exact fun _ => rfl

/-- A program whose instructions are in step runs without a hazard. -/
theorem clear (h : Inv board t a.arch vW vE vD vF) (ha : a.AlwaysReady board)
    (hf : Foretold board t a vW) (n : ℕ) :
    DataClear ((Top.cycle board)^[n] t) ∧ ControlClear ((Top.cycle board)^[n] t) := by
  induction n generalizing t a vW vE vD vF with
  | zero => exact ⟨h.dataClear ha, h.controlClear ha hf⟩
  | succ n ih =>
    obtain ⟨vE', vD', vF', h', -⟩ := h.cycle (h.dataClear ha) (h.controlClear ha hf)
    rw [← Ahead.next_arch] at h'
    exact ih h' ha.next (h.cycle_foretold hf)

end Inv

end Course.Cpu.Pipeline

namespace Course.Cpu.SingleCycle

/-! ### The other processor -/

/-- `Registers` notices `j` behind `i`, or is not used by it. -/
def Notices (i j : Word) : Prop :=
  ¬(j.rs = i.rs ∧ j.rt = i.rt ∧ writeReg j = writeReg i) ∨ j.reads1 = false ∧ j.reads2 = false

instance {i j : Word} : Decidable (Notices i j) := inferInstanceAs (Decidable (_ ∨ _))

variable {board : Board} {s : Top} {regFile : Reg → Word} {memory : Memory}

theorem fresh_cycle (h : Notices (s.instruction board) ((s.cycle board).instruction board)) :
    Fresh board (s.cycle board) := by
  rcases h with hnew | ⟨h₁, h₂⟩
  · have hports : (s.cycle board).ports =
        .read (s.cycle board).regFile ((s.cycle board).instruction board) := if_neg hnew
    exact ⟨fun _ => by rw [hports]; rfl, fun _ => by rw [hports]; rfl⟩
  · exact ⟨fun hreads => absurd hreads (Bool.eq_false_iff.mp h₁),
      fun hreads => absurd hreads (Bool.eq_false_iff.mp h₂)⟩

theorem alwaysFresh_of_path {path : ℕ → Word}
    (hpath : ∀ m, ((Arch.step board)^[m] ⟨0, regFile, memory⟩).PC = path m)
    (hnotices : ∀ m, Notices (board.fetch (path m)) (board.fetch (path (m + 1)))) :
    AlwaysFresh board (start board regFile memory) := by
  have hrun : ∀ n, ((Top.cycle board)^[n] (start board regFile memory)).arch =
      (Arch.step board)^[n] ⟨0, regFile, memory⟩ ∧
        Fresh board ((Top.cycle board)^[n] (start board regFile memory)) := by
    intro n
    induction n with
    | zero => exact ⟨rfl, fun _ => rfl, fun _ => rfl⟩
    | succ n ih =>
      obtain ⟨harch, hfresh⟩ := ih
      have hnext : ((Top.cycle board)^[n + 1] (start board regFile memory)).arch =
          (Arch.step board)^[n + 1] ⟨0, regFile, memory⟩ := by
        rw [Function.iterate_succ_apply', cycle_arch hfresh, harch, Function.iterate_succ_apply']
      refine ⟨hnext, ?_⟩
      have hn := hnotices n
      rw [← hpath, ← hpath, ← hnext, ← harch, Function.iterate_succ_apply'] at hn
      rw [Function.iterate_succ_apply']
      exact fresh_cycle hn
  exact fun n => (hrun n).2

end Course.Cpu.SingleCycle
