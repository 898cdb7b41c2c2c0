import Course.Os.Osh
import Mathlib.Data.List.TakeWhile

/-! The lines that the shell handles in a whole run, and when they are those of its
input. -/

open Course.Lib

namespace Course.Os.Osh

/-! ### Input lines -/

/-- Lines shorter than the buffer; the last one may have no newline. -/
structure Input where
  lines : List Line
  rest : Line
  lines_short : ∀ l ∈ lines, '\n' ∉ l ∧ l.length + 1 < BUFFER_SIZE
  rest_short : '\n' ∉ rest ∧ rest.length < BUFFER_SIZE

namespace Input

def stream (x : Input) : List Char := x.lines.flatMap (· ++ newline) ++ x.rest

def texts (x : Input) : List Line := x.lines ++ if x.rest = [] then [] else [x.rest]

end Input

/-- The command line that an input line stands for, by the most recent one before it. -/
def command (last : Option Line) (l : Line) : Option Line :=
  if l = [] then none else if l = bang then last else some l

def handled (last : Option Line) : List Line → List Line
  | [] => []
  | l :: ls =>
    match command last l with
    | none => handled last ls
    | some p => p :: handled (some p) ls

def events (p : Line) : List Event := [.written p, .parsed p, .executed p]

/-- The shell writes, parses and executes the command lines of its input one after
the other, and nothing after its end. -/
def Meets (sys : System) (x : Input) : Prop :=
  (main sys).Emits (fun s => s.stdin = []) (initShell x.stream)
    ((handled none x.texts).flatMap events)

/-- What `exec` does with the line as the `k`-th one. -/
def runs (sys : System) (k : ℕ) (p : Line) : Option (Bool × List Event) :=
  (parse p).bind fun c => exec sys k c true

/-- No line is cut by a NUL, no `!!` stands right behind an empty line when there is a
command line to repeat, no command line fails or leaves a child that hands over anything
once more, none but the last one ends the shell, and the last one is not left in the
buffer of a shell that goes on. -/
structure Orderly (sys : System) (ls : List Line) : Prop where
  text : ∀ l ∈ ls, '\x00' ∉ l
  repeats : ∀ pre post, ls = pre ++ [] :: bang :: post → handled none pre = []
  survives : ∀ k p, (handled none ls)[k]? = some p → ∃ b, runs sys k p = some (b, []) ∧
    (k + 1 < (handled none ls).length → b = true)
  ends : handled none ls = [] ∨ ls.getLast? = some [] ∨
    ∃ k p, (handled none ls)[k]? = some p ∧ runs sys k p = some (false, [])

/-- What is left of the input, and its lines. -/
inductive Streams : List Line → List Char → Prop
  | nil : Streams [] []
  | last {l : Line} : l ≠ [] → '\n' ∉ l → l.length < BUFFER_SIZE → Streams [l] l
  | cons {l : Line} {ls : List Line} {stdin : List Char} : '\n' ∉ l →
    l.length + 1 < BUFFER_SIZE → Streams ls stdin → Streams (l :: ls) (l ++ '\n' :: stdin)

variable {sys : System} {s s' : Shell} {h last : Option Line} {k : ℕ} {l p b : Line}
  {ls : List Line} {stdin rest : List Char}

theorem Input.streams (x : Input) : Streams x.texts x.stream := by
  obtain ⟨lines, rest, hlines, hrest, hshort⟩ := x
  simp only [texts, stream]
  induction lines with
  | nil =>
    by_cases hnil : rest = []
    · subst hnil
      exact .nil
    · rw [if_neg hnil]
      exact .last hnil hrest hshort
  | cons l lines ih =>
    obtain ⟨⟨hl, hlen⟩, hlines⟩ := List.forall_mem_cons.mp hlines
    have hstream : (l :: lines).flatMap (· ++ newline) ++ rest =
        l ++ '\n' :: (lines.flatMap (· ++ newline) ++ rest) := by
      simp [newline]
    rw [hstream]
    exact .cons hl hlen (ih hlines)

theorem Streams.eq_nil (hs : Streams [] stdin) : stdin = [] := by
  cases hs
  rfl

theorem getLine_newline {n : ℕ} (hl : '\n' ∉ l) (hn : l.length < n) (stdin : List Char) :
    getLine n (l ++ '\n' :: stdin) = (l ++ newline, stdin) := by
  induction l generalizing n with
  | nil =>
    obtain ⟨n, rfl⟩ := Nat.exists_eq_add_one_of_ne_zero (Nat.ne_of_gt hn)
    simp [getLine, newline]
  | cons c l ih =>
    obtain ⟨hc, hl⟩ := List.ne_and_not_mem_of_not_mem_cons hl
    obtain ⟨n, rfl⟩ := Nat.exists_eq_add_one_of_ne_zero (Nat.ne_zero_of_lt hn)
    rw [List.cons_append, getLine, if_neg (Ne.symm hc), ih hl (Nat.lt_of_succ_lt_succ hn)]
    rfl

theorem getLine_rest {n : ℕ} (hl : '\n' ∉ l) (hn : l.length ≤ n) : getLine n l = (l, []) := by
  induction l generalizing n with
  | nil => cases n <;> rfl
  | cons c l ih =>
    obtain ⟨hc, hl⟩ := List.ne_and_not_mem_of_not_mem_cons hl
    obtain ⟨n, rfl⟩ := Nat.exists_eq_add_one_of_ne_zero (Nat.ne_zero_of_lt hn)
    rw [getLine, if_neg (Ne.symm hc), ih hl (Nat.le_of_succ_le_succ hn)]

theorem Streams.fgets (hs : Streams (l :: ls) stdin) : '\n' ∉ l ∧ stdin ≠ [] ∧
    ∃ b rest, fgets BUFFER_SIZE stdin = some (b, rest) ∧ Streams ls rest ∧
      (b = l ++ newline ∨ b = l ∧ l ≠ []) := by
  cases hs with
  | last hne hl hlen =>
    refine ⟨hl, hne, l, [], ?_, .nil, .inr ⟨rfl, hne⟩⟩
    rw [Osh.fgets, if_neg hne, getLine_rest hl (Nat.le_sub_one_of_lt hlen)]
  | @cons _ _ rest hl hlen hs =>
    have hne : l ++ '\n' :: rest ≠ [] := by simp
    refine ⟨hl, hne, l ++ newline, rest, ?_, hs, .inl rfl⟩
    rw [Osh.fgets, if_neg hne, getLine_newline hl (by omega)]

/-! ### Steps -/

/-- The mark of a line to skip, or the last command line. -/
def buffer : Option Line → Line
  | none => newline
  | some p => p

structure Proper (p : Line) : Prop where
  ne_nil : p ≠ []
  newline : '\n' ∉ p
  text : '\x00' ∉ p
  ne_bang : p ≠ bang

/-- The shell before it reads, when it has executed `k` lines. -/
structure Ready (s : Shell) (h : Option Line) (k : ℕ) : Prop where
  buffer : s.inputBuffer = buffer h
  shouldRun : s.shouldRun = true
  line : s.line = k
  proper : ∀ p, h = some p → Proper p

theorem again_of_mem_child {i : Option ℕ} {x : Event} (hx : x ∈ child sys k i) : x = .again := by
  rw [child] at hx
  split at hx
  · exact List.mem_singleton.mp hx
  · cases hx

theorem again_of_execLoop {cmds : List (List Line)} {i : ℕ} {q r : Bool} {d : List Event}
    (hloop : execLoop sys k q i cmds = some (r, d)) : ∀ x ∈ d, x = .again := by
  induction cmds generalizing i q d with
  | nil =>
    cases hloop
    exact List.forall_mem_nil _
  | cons cmd rest ih =>
    rw [execLoop] at hloop
    obtain ⟨name, -, hloop⟩ := Option.bind_eq_some_iff.mp hloop
    obtain ⟨name, -, hloop⟩ := Option.bind_eq_some_iff.mp hloop
    split at hloop
    · exact ih hloop
    · split at hloop
      · cases hloop
        exact List.forall_mem_nil _
      · split at hloop
        · cases hloop
          exact List.forall_mem_nil _
        · obtain ⟨⟨q', e⟩, hrest, heq⟩ := Option.bind_eq_some_iff.mp hloop
          cases heq
          refine List.forall_mem_append.mpr ⟨fun x hx => ?_, ih hrest⟩
          split at hx
          · cases hx
          · exact again_of_mem_child hx

theorem again_of_exec {c : Commands} {q r : Bool} {d : List Event}
    (hexec : exec sys k c q = some (r, d)) : ∀ x ∈ d, x = .again := by
  rw [exec] at hexec
  split at hexec
  · cases hexec
    intro x hx
    split at hx
    · exact again_of_mem_child hx
    · cases hx
  · exact again_of_execLoop hexec

namespace OrderlyFrom

section Handle

variable (hc : command h l = some p) (hlast : command last l = some p)

include hc hlast

end Handle

end OrderlyFrom

def Event.line : Event → Line
  | .written l | .parsed l | .executed l => l
  | .again => []

/-- The buffer and what is put out hold no NUL. -/
def Texts (s : Shell) (d : List Event) : Prop :=
  '\x00' ∉ s.inputBuffer ∧ ∀ e ∈ d, '\x00' ∉ e.line

theorem notMem_cString (l : List Char) : '\x00' ∉ cString l := by
  intro hmem
  simpa using List.mem_takeWhile_imp hmem

theorem texts_prompt {d : List Event} (hs : '\x00' ∉ s.inputBuffer)
    (hp : promptAndInput s = some (s', d)) : Texts s' d := by
  have hread : '\x00' ∉ ({ s with lastCommand := s.inputBuffer }.readLine).inputBuffer ∧
      ({ s with lastCommand := s.inputBuffer }.readLine).lastCommand = s.inputBuffer := by
    rw [Shell.readLine]
    split
    · exact ⟨hs, rfl⟩
    · exact ⟨notMem_cString _, rfl⟩
  simp only [promptAndInput] at hp
  generalize { s with lastCommand := s.inputBuffer }.readLine = r at hp hread
  obtain ⟨hbuffer, hlastCommand⟩ := hread
  rw [← hlastCommand] at hs
  split at hp
  · obtain ⟨rfl, rfl⟩ := Prod.mk.inj (Option.some.inj hp)
    exact ⟨hbuffer, by simp⟩
  split at hp
  · cases hp
  split at hp
  · split at hp
    · obtain ⟨rfl, rfl⟩ := Prod.mk.inj (Option.some.inj hp)
      exact ⟨by simp [newline], by simp⟩
    · obtain ⟨rfl, rfl⟩ := Prod.mk.inj (Option.some.inj hp)
      exact ⟨hs, by simpa [Event.line] using hs⟩
  · have htoken : '\x00' ∉ r.inputBuffer.takeWhile (· ≠ '\n') :=
      fun hmem => hbuffer ((List.takeWhile_sublist _).subset hmem)
    obtain ⟨rfl, rfl⟩ := Prod.mk.inj (Option.some.inj hp)
    exact ⟨htoken, by simpa [Event.line] using htoken⟩

theorem texts_parseInput {d : List Event} (hs : '\x00' ∉ s.inputBuffer)
    (hp : parseInput s = some (s', d)) : Texts s' d := by
  rw [parseInput] at hp
  split at hp
  · obtain ⟨rfl, rfl⟩ := Prod.mk.inj (Option.some.inj hp)
    exact ⟨hs, by simp⟩
  · obtain ⟨c, -, heq⟩ := Option.bind_eq_some_iff.mp hp
    obtain ⟨rfl, rfl⟩ := Prod.mk.inj (Option.some.inj heq)
    exact ⟨hs, by simpa [Event.line] using hs⟩

theorem texts_execCommands {d : List Event} (hs : '\x00' ∉ s.inputBuffer)
    (hp : execCommands sys s = some (s', d)) : Texts s' d := by
  rw [execCommands] at hp
  split at hp
  · obtain ⟨rfl, rfl⟩ := Prod.mk.inj (Option.some.inj hp)
    exact ⟨hs, by simp⟩
  · obtain ⟨⟨b, e⟩, hexec, heq⟩ := Option.bind_eq_some_iff.mp hp
    obtain ⟨rfl, rfl⟩ := Prod.mk.inj (Option.some.inj heq)
    refine ⟨hs, List.forall_mem_cons.mpr ⟨hs, fun x hx => ?_⟩⟩
    simp [again_of_exec hexec x hx, Event.line]

theorem texts_step {d : List Event} (hs : '\x00' ∉ s.inputBuffer)
    (hstep : (main sys).step s = some (s', d)) : Texts s' d := by
  simp only [main] at hstep
  split at hstep
  · obtain ⟨⟨s₁, d₁⟩, hp, hstep⟩ := Option.bind_eq_some_iff.mp hstep
    obtain ⟨⟨s₂, d₂⟩, hparse, hstep⟩ := Option.bind_eq_some_iff.mp hstep
    obtain ⟨⟨s₃, d₃⟩, hexec, heq⟩ := Option.bind_eq_some_iff.mp hstep
    obtain ⟨rfl, rfl⟩ := Prod.mk.inj (Option.some.inj heq)
    obtain ⟨hs₁, hd₁⟩ := texts_prompt hs hp
    obtain ⟨hs₂, hd₂⟩ := texts_parseInput hs₁ hparse
    obtain ⟨hs₃, hd₃⟩ := texts_execCommands hs₂ hexec
    refine ⟨hs₃, fun e he => ?_⟩
    rcases List.mem_append.mp he with he | he
    · exact (List.mem_append.mp he).elim (hd₁ e) (hd₂ e)
    · exact hd₃ e he
  · obtain ⟨rfl, rfl⟩ := Prod.mk.inj (Option.some.inj hstep)
    exact ⟨hs, by simp⟩

theorem mem_handled (hl : l ∈ ls) (hnil : l ≠ []) (hbang : l ≠ bang) : l ∈ handled last ls := by
  induction ls generalizing last with
  | nil => cases hl
  | cons x ls ih =>
    rw [handled]
    rcases List.mem_cons.mp hl with rfl | hl
    · rw [command, if_neg hnil, if_neg hbang]
      exact List.mem_cons_self
    · cases command last x with
      | none => exact ih hl
      | some p => exact List.mem_cons_of_mem p (ih hl)

theorem Meets.text {x : Input} (h : Meets sys x) : ∀ l ∈ x.texts, '\x00' ∉ l := by
  have hall : ∀ e ∈ (handled none x.texts).flatMap events, '\x00' ∉ e.line :=
    Emitter.Emits.forall (I := fun s : Shell => '\x00' ∉ s.inputBuffer)
      (fun s t d hs hstep => texts_step hs hstep) (by simp [initShell, newline]) h
  intro l hl htext
  have hmem : l ∈ handled none x.texts := by
    apply mem_handled hl
    all_goals
      rintro rfl
      revert htext
      decide
  exact hall (.written l) (List.mem_flatMap.mpr ⟨l, hmem, List.mem_cons_self⟩) htext

/-- The line `ls`, and the end of the input. -/
def listing : Input := ⟨[['l', 's']], [], by decide, by decide⟩

end Course.Os.Osh
