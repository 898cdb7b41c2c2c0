import Course.Lib.Descriptors
import Course.Lib.Machine
import Course.Os.OshParse

/-! The descriptors of the shell: what each command of a line is started with, and what is
left open behind the line. -/

open Course.Lib

namespace Course.Os.Osh

/-- What a descriptor stands for: the standard streams, the history file, or what is opened
for a line, by the number of the line; a pipe has the number of the command that writes. -/
inductive Resource
  | terminal
  | history
  | redirectIn (line : ℕ)
  | redirectOut (line : ℕ)
  | readEnd (line i : ℕ)
  | writeEnd (line i : ℕ)
  deriving DecidableEq

def Resource.line : Resource → Option ℕ
  | .terminal | .history => none
  | .redirectIn line | .redirectOut line | .readEnd line _ | .writeEnd line _ => some line

/-- What uses descriptors: a child, which copies `in_fd` and `out_fd` of its command, and
`close`, each in the table of the shell at that time. -/
inductive Action
  | start (i inFd outFd : ℕ) (table : Descriptors Resource)
  | close (fd : ℕ) (table : Descriptors Resource)

/-- The table of descriptors and the fields `in_fd` and `out_fd` of `commands.cmds`, which
outlast the lines; `line` is the number of the next line. -/
structure Files where
  table : Descriptors Resource
  inFd : ℕ → ℕ
  outFd : ℕ → ℕ
  line : ℕ

/-- The commands that fit into `commands.cmds`, each with a name. -/
structure Job extends Commands where
  ne_nil : cmds ≠ []
  length_le : cmds.length ≤ MAX_COMMANDS
  named : [] ∉ cmds

namespace Files

/-- Behind `init_shell`. -/
def init : Files where
  table := ⟨[some .terminal, some .terminal, some .terminal, some .history]⟩
  inFd := fun _ => 0
  outFd := fun _ => 0
  line := 0

def isBuiltin (cmd : List Line) : Bool :=
  match cmd.head? with
  | none => false
  | some name => (checkBuiltinCommands name true).1

/-- The only built-in command that opens or closes anything is `history -c`. -/
def builtin (f : Files) (cmd : List Line) : Files :=
  if cmd = ["history".toList, "-c".toList] then
    let closed := f.table.entries.map fun r => if r = some .history then none else r
    { f with table := (Descriptors.alloc ⟨closed⟩ .history).1 }
  else f

def openIn (f : Files) (c : Commands) : Files :=
  match c.redirectIn with
  | none => { f with inFd := Function.update f.inFd 0 0 }
  | some _ =>
    let (table, fd) := f.table.alloc (.redirectIn f.line)
    { f with table := table, inFd := Function.update f.inFd 0 fd }

def openOut (f : Files) (c : Commands) : Files :=
  let last := c.cmds.length - 1
  match c.redirectOut with
  | none => { f with outFd := Function.update f.outFd last 1 }
  | some _ =>
    let (table, fd) := f.table.alloc (.redirectOut f.line)
    { f with table := table, outFd := Function.update f.outFd last fd }

/-- The pipe between the commands `i` and `i + 1`. -/
def pipe (f : Files) (i : ℕ) : Files :=
  let (table, readFd) := f.table.alloc (.readEnd f.line i)
  let (table, writeFd) := table.alloc (.writeEnd f.line i)
  { f with
    table := table
    inFd := Function.update f.inFd (i + 1) readFd
    outFd := Function.update f.outFd i writeFd }

/-- `if (fd != std) close(fd)`. -/
def closeUnless (f : Files) (fd std : ℕ) : Files × List Action :=
  if fd ≠ std then ({ f with table := f.table.close fd }, [.close fd f.table]) else (f, [])

/-- A command that is not built-in: the shell waits for its child and closes both ends. -/
def external (f : Files) (i : ℕ) : Files × List Action :=
  let (g, closedIn) := f.closeUnless (f.inFd i) 0
  let (h, closedOut) := g.closeUnless (f.outFd i) 1
  (h, .start i (f.inFd i) (f.outFd i) f.table :: (closedIn ++ closedOut))

/-- The loop of `exec_commands` from the command `i` on, every system call succeeding. -/
def execLoop : ℕ → List (List Line) → Files → Files × List Action
  | _, [], f => (f, [])
  | i, cmd :: rest, f =>
    if isBuiltin cmd then execLoop (i + 1) rest (f.builtin cmd)
    else
      let (f, actions) := (if rest = [] then f else f.pipe i).external i
      let (f, actions') := execLoop (i + 1) rest f
      (f, actions ++ actions')

/-- A line in the background is left to a child that ends with it. -/
def execCommands (f : Files) (c : Commands) : Files × List Action :=
  let (g, actions) := execLoop 0 c.cmds ((f.openIn c).openOut c)
  if c.background then ({ f with line := f.line + 1 }, actions)
  else ({ g with line := f.line + 1 }, actions)

def machine : Machine Files Job where
  step f c := some (f.execCommands c.toCommands).1

/-! ### Wiring -/

/-- The commands that are not built-in, from the command `i` on. -/
def externals : ℕ → List (List Line) → List ℕ
  | _, [] => []
  | i, cmd :: rest => if isBuiltin cmd then externals (i + 1) rest else i :: externals (i + 1) rest

def Action.command : Action → Option ℕ
  | .start i .. => some i
  | .close .. => none

/-- Open, and a standard stream or opened for this line. -/
def Owned (line : ℕ) (table : Descriptors Resource) (fd : ℕ) : Prop :=
  ∃ r, table.get fd = some r ∧ (r = .terminal ∨ r.line = some line)

/-- What command `i` is to read: the file or the terminal, the pipe that the command before
it writes, or behind a built-in command the end of file, from a pipe without a writer. -/
def Input (line : ℕ) (c : Commands) (i : ℕ) (table : Descriptors Resource)
    (r : Option Resource) : Prop :=
  if i = 0 then r = some (if c.redirectIn = none then .terminal else .redirectIn line)
  else if c.cmds[i - 1]?.any isBuiltin then
    ∃ j, r = some (.readEnd line j) ∧ ∀ fd, table.get fd ≠ some (.writeEnd line j)
  else r = some (.readEnd line (i - 1))

/-- Where command `i` is to write: the file or the terminal, or the pipe of the command
behind it. -/
def output (line : ℕ) (c : Commands) (i : ℕ) : Resource :=
  if i + 1 = c.cmds.length then if c.redirectOut = none then .terminal else .redirectOut line
  else .writeEnd line i

def Good (line : ℕ) (c : Commands) : Action → Prop
  | .start i inFd outFd table =>
    (Owned line table inFd ∧ Owned line table outFd) ∧
      Input line c i table (table.get inFd) ∧ table.get outFd = some (output line c i)
  | .close fd table => Owned line table fd

/-- Every external command is started once with the streams it is to have, only open
descriptors of this line are used, and none of them is left. -/
structure Wired (f : Files) (c : Commands) : Prop where
  started : (f.execCommands c).2.filterMap Action.command = externals 0 c.cmds
  good : ∀ a ∈ (f.execCommands c).2, Good f.line c a
  closed : ∀ fd r, (f.execCommands c).1.table.get fd = some r → r.line ≠ some f.line

/-- No external command stands behind a built-in one; and in the foreground all commands
are external, or none is and there is no redirection. -/
structure Clean (c : Commands) : Prop where
  order : c.cmds.Pairwise fun a b => isBuiltin a → isBuiltin b
  foreground : c.background ∨ (∀ cmd ∈ c.cmds, isBuiltin cmd = false) ∨
    (∀ cmd ∈ c.cmds, isBuiltin cmd) ∧ c.redirectIn = none ∧ c.redirectOut = none

/-- The standard streams and the history file are open, and nothing else. -/
def Base (t : Descriptors Resource) : Prop := ∀ fd, t.get fd = init.table.get fd

/-- What command `i` reads, if the command before it is external. -/
def source (line : ℕ) (c : Commands) (i : ℕ) : Resource :=
  if i = 0 then if c.redirectIn = none then .terminal else .redirectIn line
  else .readEnd line (i - 1)

/-- `fd` is `std` for a standard stream, and otherwise behind the history file. -/
def Placed (r : Resource) (fd std : ℕ) : Prop := if r = .terminal then fd = std else 4 ≤ fd

/-- Before the external command `i`: what it reads and what the last command writes is
open, and nothing else but what the shell has itself. -/
structure Ready (k : ℕ) (c : Commands) (i : ℕ) (f : Files) : Prop where
  line : f.line = k
  base : ∀ fd < 4, f.table.get fd = init.table.get fd
  input : f.table.get (f.inFd i) = some (source k c i)
  inFd : Placed (source k c i) (f.inFd i) 0
  output : f.table.get (f.outFd (c.cmds.length - 1)) = some (output k c (c.cmds.length - 1))
  outFd : Placed (Files.output k c (c.cmds.length - 1)) (f.outFd (c.cmds.length - 1)) 1
  ne : f.inFd i ≠ f.outFd (c.cmds.length - 1)
  only : ∀ fd, 4 ≤ fd → fd ≠ f.inFd i → fd ≠ f.outFd (c.cmds.length - 1) → f.table.get fd = none

variable {f g : Files} {c : Commands} {cmd : List Line} {cmds : List (List Line)} {i k fd : ℕ}
  {r r' : Resource} {t : Descriptors Resource}

theorem init_get : init.table.get fd =
    if fd < 3 then some .terminal else if fd = 3 then some .history else none := by
  rcases fd with _ | _ | _ | _ | fd <;> rfl

theorem closeUnless_get {std x : ℕ} (hstd : std < 4) (hfd : Placed r fd std) :
    (f.closeUnless fd std).1.table.get x = if x = fd ∧ 4 ≤ x then none else f.table.get x := by
  rw [Placed] at hfd
  rw [closeUnless]
  by_cases hr : r = .terminal
  · rw [if_pos hr] at hfd
    rw [if_neg (not_not.mpr hfd), if_neg (by omega)]
  · rw [if_neg hr] at hfd
    rw [if_pos (by omega), Descriptors.get_close]
    by_cases hx : x = fd
    · rw [if_pos hx, if_pos ⟨hx, by omega⟩]
    · rw [if_neg hx, if_neg (by omega)]

theorem closeUnless_fields (f : Files) (fd std : ℕ) :
    (f.closeUnless fd std).1.inFd = f.inFd ∧ (f.closeUnless fd std).1.outFd = f.outFd ∧
      (f.closeUnless fd std).1.line = f.line := by
  rw [closeUnless]
  split <;> exact ⟨rfl, rfl, rfl⟩

theorem mem_closeUnless {a : Action} {std : ℕ} (ha : a ∈ (f.closeUnless fd std).2) :
    a = .close fd f.table := by
  rw [closeUnless] at ha
  split at ha
  · exact List.mem_singleton.mp ha
  · cases ha

theorem command_closeUnless (f : Files) (fd std : ℕ) :
    (f.closeUnless fd std).2.filterMap Action.command = [] := by
  rw [closeUnless]
  split <;> rfl

theorem external_snd (f : Files) (i : ℕ) :
    (f.external i).2 = .start i (f.inFd i) (f.outFd i) f.table ::
      ((f.closeUnless (f.inFd i) 0).2 ++
        ((f.closeUnless (f.inFd i) 0).1.closeUnless (f.outFd i) 1).2) := rfl

theorem command_external (f : Files) (i : ℕ) :
    (f.external i).2.filterMap Action.command = [i] := by
  simp [external_snd, Action.command, command_closeUnless]

theorem external_fields (f : Files) (i : ℕ) :
    (f.external i).1.inFd = f.inFd ∧ (f.external i).1.outFd = f.outFd ∧
      (f.external i).1.line = f.line := by
  obtain ⟨hin, hout, hline⟩ := closeUnless_fields f (f.inFd i) 0
  obtain ⟨hin', hout', hline'⟩ :=
    closeUnless_fields (f.closeUnless (f.inFd i) 0).1 (f.outFd i) 1
  exact ⟨hin'.trans hin, hout'.trans hout, hline'.trans hline⟩

/-- Both ends are closed, but not the standard streams. -/
theorem external_get {x : ℕ} (hin : Placed r (f.inFd i) 0) (hout : Placed r' (f.outFd i) 1) :
    (f.external i).1.table.get x =
      if (x = f.inFd i ∨ x = f.outFd i) ∧ 4 ≤ x then none else f.table.get x := by
  change ((f.closeUnless (f.inFd i) 0).1.closeUnless (f.outFd i) 1).1.table.get x = _
  rw [closeUnless_get (by omega) hout, closeUnless_get (by omega) hin]
  split_ifs <;> first | rfl | omega

/-- The commands before command `i` are external. -/
def Behind (c : Commands) (i : ℕ) : Prop := i = 0 ∨ c.cmds[i - 1]?.any isBuiltin = false

theorem owned_source (k : ℕ) (c : Commands) (i : ℕ) :
    source k c i = .terminal ∨ (source k c i).line = some k := by
  rw [source]
  split_ifs <;> simp [Resource.line]

theorem owned_output (k : ℕ) (c : Commands) (i : ℕ) :
    output k c i = .terminal ∨ (output k c i).line = some k := by
  rw [output]
  split_ifs <;> simp [Resource.line]

theorem good_external (hbehind : Behind c i) (hin : f.table.get (f.inFd i) = some (source k c i))
    (hplaced : Placed (source k c i) (f.inFd i) 0)
    (hout : f.table.get (f.outFd i) = some (output k c i)) (hne : f.inFd i ≠ f.outFd i) :
    ∀ a ∈ (f.external i).2, Good k c a := by
  have hsource : Owned k f.table (f.inFd i) := ⟨_, hin, owned_source k c i⟩
  have houtput : ∀ t : Descriptors Resource, t.get (f.outFd i) = f.table.get (f.outFd i) →
      Owned k t (f.outFd i) := fun t ht => ⟨_, ht.trans hout, owned_output k c i⟩
  intro a ha
  rw [external_snd] at ha
  obtain rfl | ha := List.mem_cons.mp ha
  · refine ⟨⟨hsource, houtput _ rfl⟩, ?_, hout⟩
    rw [Input, hin, source]
    obtain hzero | hbefore := hbehind
    · rw [if_pos hzero, if_pos hzero]
    · by_cases hzero : i = 0
      · rw [if_pos hzero, if_pos hzero]
      · rw [if_neg hzero, if_neg hzero, if_neg (by simp [hbefore])]
  · obtain ha | ha := List.mem_append.mp ha
    · rw [mem_closeUnless ha]
      exact hsource
    · rw [mem_closeUnless ha]
      refine houtput _ ?_
      rw [closeUnless_get (by omega) hplaced, if_neg fun h => hne h.1.symm]

theorem fd_of_get_none (hbase : ∀ fd < 4, t.get fd = init.table.get fd) (hfd : t.get fd = none) :
    4 ≤ fd := by
  by_contra hlt
  rw [hbase fd (by omega), init_get] at hfd
  split_ifs at hfd
  omega

/-- The two new descriptors of a pipe. -/
theorem pipe_get (hbase : ∀ fd < 4, f.table.get fd = init.table.get fd) (i : ℕ) :
    ∃ p q, 4 ≤ p ∧ 4 ≤ q ∧ p ≠ q ∧ f.table.get p = none ∧ f.table.get q = none ∧
      (f.pipe i).inFd = Function.update f.inFd (i + 1) p ∧
      (f.pipe i).outFd = Function.update f.outFd i q ∧ (f.pipe i).line = f.line ∧
      ∀ x, (f.pipe i).table.get x =
        if x = q then some (.writeEnd f.line i) else if x = p then some (.readEnd f.line i)
        else f.table.get x := by
  have hread := Descriptors.get_alloc_free f.table (.readEnd f.line i)
  have hwrite := Descriptors.get_alloc_free (f.table.alloc (.readEnd f.line i)).1
    (.writeEnd f.line i)
  rw [Descriptors.get_alloc] at hwrite
  have hne : (f.table.alloc (.readEnd f.line i)).2 ≠
      ((f.table.alloc (.readEnd f.line i)).1.alloc (.writeEnd f.line i)).2 := fun e => by
    rw [if_pos e.symm] at hwrite
    cases hwrite
  rw [if_neg hne.symm] at hwrite
  refine ⟨_, _, fd_of_get_none hbase hread, fd_of_get_none hbase hwrite, hne, hread, hwrite,
    rfl, rfl, rfl, fun x => ?_⟩
  change ((f.table.alloc (.readEnd f.line i)).1.alloc (.writeEnd f.line i)).1.get x = _
  rw [Descriptors.get_alloc, Descriptors.get_alloc]

/-- The last command of a line leaves nothing open. -/
theorem Ready.last (h : Ready k c i f) (hi : i + 1 = c.cmds.length) :
    Base (f.external i).1.table ∧
      (Behind c i → ∀ a ∈ (f.external i).2, Good k c a) := by
  obtain ⟨-, hbase, hinput, hin, houtput, hout, hne, honly⟩ := h
  obtain rfl : i = c.cmds.length - 1 := by omega
  refine ⟨fun fd => ?_, fun hbehind => good_external hbehind hinput hin houtput hne⟩
  rw [external_get hin hout]
  by_cases hlt : fd < 4
  · rw [if_neg (by omega), hbase fd hlt]
  · have hinit : init.table.get fd = none := by rw [init_get, if_neg (by omega), if_neg (by omega)]
    rw [hinit]
    split_ifs with hfd
    · rfl
    · exact honly fd (by omega) (by omega) (by omega)

/-- A command with one behind it hands its pipe on. -/
theorem Ready.step (h : Ready k c i f) (hi : i + 1 < c.cmds.length) :
    Ready k c (i + 1) ((f.pipe i).external i).1 ∧
      (Behind c i → ∀ a ∈ ((f.pipe i).external i).2, Good k c a) := by
  obtain ⟨hline, hbase, hinput, hin, houtput, hout, hne, honly⟩ := h
  obtain ⟨p, q, hp, hq, hpq, hpfree, hqfree, hinFd, houtFd, hpline, hget⟩ := pipe_get hbase i
  obtain ⟨hinFd', houtFd', hline'⟩ := external_fields (f.pipe i) i
  set o := f.outFd (c.cmds.length - 1)
  have hfree : ∀ x, f.table.get x ≠ none → x ≠ p ∧ x ≠ q := fun x hx =>
    ⟨fun e => hx (e ▸ hpfree), fun e => hx (e ▸ hqfree)⟩
  obtain ⟨hip, hiq⟩ := hfree (f.inFd i) (by simp [hinput])
  obtain ⟨hop, hoq⟩ := hfree o (by simp [houtput])
  have hini : (f.pipe i).inFd i = f.inFd i := by
    rw [hinFd, Function.update_of_ne (by omega)]
  have houti : (f.pipe i).outFd i = q := by rw [houtFd, Function.update_self]
  have hoi : (f.pipe i).outFd (c.cmds.length - 1) = o := by
    rw [houtFd, Function.update_of_ne (by omega)]
  have hwrite : Files.output k c i = .writeEnd k i := if_neg (by omega)
  have hread : source k c (i + 1) = .readEnd k i := if_neg (by omega)
  have hplaced : Placed (source k c i) ((f.pipe i).inFd i) 0 := by rwa [hini]
  have hplaced' : Placed (.writeEnd k i) ((f.pipe i).outFd i) 1 := by
    rw [houti]
    exact hq
  have hlast : ∀ x, ((f.pipe i).external i).1.table.get x =
      if (x = f.inFd i ∨ x = q) ∧ 4 ≤ x then none else if x = p then some (.readEnd k i)
      else f.table.get x := fun x => by
    rw [external_get hplaced hplaced', hini, houti, hget, hline]
    by_cases hx : x = q
    · rw [if_pos ⟨.inr hx, by omega⟩, if_pos ⟨.inr hx, by omega⟩]
    · rw [if_neg hx]
  refine ⟨⟨?_, fun fd hfd => ?_, ?_, ?_, ?_, ?_, ?_, fun fd hfd hne₁ hne₂ => ?_⟩, fun hbehind => ?_⟩
  · rw [hline', hpline, hline]
  · rw [hlast, if_neg (by omega), if_neg (by omega), hbase fd hfd]
  · rw [hinFd', hinFd, Function.update_self, hlast, hread,
      if_neg (fun h => h.1.elim hip.symm hpq), if_pos rfl]
  · rw [hinFd', hinFd, Function.update_self, hread]
    exact hp
  · rw [houtFd', hoi, hlast, if_neg (fun h => h.1.elim hne.symm hoq), if_neg hop, houtput]
  · rwa [houtFd', hoi]
  · rw [hinFd', hinFd, Function.update_self, houtFd', hoi]
    exact hop.symm
  · rw [hinFd', hinFd, Function.update_self] at hne₁
    rw [houtFd', hoi] at hne₂
    rw [hlast, if_neg hne₁]
    split_ifs with hclosed
    · rfl
    · exact honly fd hfd (fun e => hclosed ⟨.inl e, hfd⟩) hne₂
  · refine good_external hbehind ?_ hplaced ?_ ?_
    · rw [hini, hget, if_neg hiq, if_neg hip, hinput]
    · rw [houti, hget, if_pos rfl, hline, hwrite]
    · rw [hini, houti]
      exact hiq

/-! ### Lines -/

theorem execLoop_cons (i : ℕ) (cmd : List Line) (rest : List (List Line)) (f : Files)
    (hcmd : isBuiltin cmd = false) : execLoop i (cmd :: rest) f =
      let g := (if rest = [] then f else f.pipe i).external i
      ((execLoop (i + 1) rest g.1).1, g.2 ++ (execLoop (i + 1) rest g.1).2) := by
  rw [execLoop, if_neg (by simp [hcmd])]

theorem command_execLoop (i : ℕ) (cmds : List (List Line)) (f : Files) :
    (execLoop i cmds f).2.filterMap Action.command = externals i cmds := by
  induction cmds generalizing i f with
  | nil => rfl
  | cons cmd rest ih =>
    rw [externals]
    by_cases hcmd : isBuiltin cmd
    · rw [execLoop, if_pos hcmd, if_pos hcmd, ih]
    · rw [execLoop_cons i cmd rest f (by simpa using hcmd), if_neg hcmd]
      simp only [List.filterMap_append, command_external, ih, List.singleton_append]

theorem execLoop_builtins (hb : ∀ cmd ∈ cmds, isBuiltin cmd) : (execLoop i cmds f).2 = [] := by
  induction cmds generalizing i f with
  | nil => rfl
  | cons cmd rest ih =>
    obtain ⟨hcmd, hrest⟩ := List.forall_mem_cons.mp hb
    rw [execLoop, if_pos hcmd, ih hrest]

/-- The commands from `i` on; built-in ones come last, if there are any. -/
theorem execLoop_spec (before : List (List Line)) (h : Ready k c i f) (hbehind : Behind c i)
    (hsplit : c.cmds = before ++ cmds) (hi : before.length = i)
    (hp : cmds.Pairwise fun a b => isBuiltin a → isBuiltin b) :
    (∀ a ∈ (execLoop i cmds f).2, Good k c a) ∧
      ((∀ cmd ∈ cmds, isBuiltin cmd = false) → cmds ≠ [] →
        Base (execLoop i cmds f).1.table) := by
  induction cmds generalizing i f before with
  | nil => exact ⟨nofun, fun _ hne => absurd rfl hne⟩
  | cons cmd rest ih =>
    obtain ⟨hcons, hrest⟩ := List.pairwise_cons.mp hp
    have hlength : c.cmds.length = i + (rest.length + 1) := by
      rw [hsplit, List.length_append, hi, List.length_cons]
    by_cases hcmd : isBuiltin cmd
    · refine ⟨?_, fun hall => absurd hcmd (by simp [hall cmd])⟩
      rw [execLoop_builtins (List.forall_mem_cons.mpr ⟨hcmd, fun b hb => hcons b hb hcmd⟩)]
      exact nofun
    · have hcmd : isBuiltin cmd = false := by simpa using hcmd
      rw [execLoop_cons i cmd rest f hcmd]
      dsimp only
      by_cases hlast : rest = []
      · subst hlast
        obtain ⟨hget, hgood⟩ := h.last (by simpa using hlength.symm)
        rw [if_pos rfl, execLoop, List.append_nil]
        exact ⟨hgood hbehind, fun _ _ => hget⟩
      · have hpos := List.length_pos_of_ne_nil hlast
        obtain ⟨hready, hgood⟩ := h.step (by omega)
        have hnext : Behind c (i + 1) := by
          refine .inr ?_
          rw [hsplit, Nat.add_sub_cancel, ← hi, List.getElem?_append_right (le_refl _),
            Nat.sub_self, List.getElem?_cons_zero, Option.any_some, hcmd]
        obtain ⟨hgood', hget⟩ := ih (before ++ [cmd]) hready hnext (by simp [hsplit])
          (by simp [hi]) hrest
        rw [if_neg hlast]
        refine ⟨fun a ha => ?_, fun hall _ => ?_⟩
        · obtain ha | ha := List.mem_append.mp ha
          · exact hgood hbehind a ha
          · exact hgood' a ha
        · exact hget (fun b hb => hall b (List.mem_cons_of_mem cmd hb)) hlast

/-- What is opened gets a number behind those of the shell itself. -/
theorem alloc_get (hbase : ∀ fd < 4, t.get fd = init.table.get fd) (r : Resource) :
    4 ≤ (t.alloc r).2 ∧ t.get (t.alloc r).2 = none :=
  ⟨fd_of_get_none hbase (Descriptors.get_alloc_free t r), Descriptors.get_alloc_free t r⟩

theorem openIn_get (hbase : ∀ fd < 4, f.table.get fd = init.table.get fd) (c : Commands) :
    ∃ p, Placed (source f.line c 0) p 0 ∧ (f.openIn c).inFd 0 = p ∧
      (f.openIn c).outFd = f.outFd ∧ (f.openIn c).line = f.line ∧
      (f.openIn c).table.get p = some (source f.line c 0) ∧
      ∀ x, x ≠ p ∨ x < 4 → (f.openIn c).table.get x = f.table.get x := by
  rw [openIn, source, if_pos rfl]
  cases hredirect : c.redirectIn with
  | none =>
    refine ⟨0, rfl, Function.update_self 0 _ f.inFd, rfl, rfl, ?_, fun _ _ => rfl⟩
    exact (hbase 0 (by omega)).trans rfl
  | some w =>
    obtain ⟨hp, -⟩ := alloc_get hbase (.redirectIn f.line)
    rw [if_neg (by simp)]
    refine ⟨_, hp, Function.update_self 0 _ f.inFd, rfl, rfl, ?_, fun x hx => ?_⟩
    · exact Descriptors.get_alloc.trans (if_pos rfl)
    · exact Descriptors.get_alloc.trans (if_neg (by omega))

theorem openOut_get (hbase : ∀ fd < 4, f.table.get fd = init.table.get fd) (hne : c.cmds ≠ []) :
    ∃ q, Placed (Files.output f.line c (c.cmds.length - 1)) q 1 ∧
      (f.openOut c).outFd (c.cmds.length - 1) = q ∧
      (f.openOut c).inFd = f.inFd ∧ (f.openOut c).line = f.line ∧
      (f.openOut c).table.get q = some (Files.output f.line c (c.cmds.length - 1)) ∧
      (4 ≤ q → f.table.get q = none) ∧
      ∀ x, x ≠ q ∨ x < 4 → (f.openOut c).table.get x = f.table.get x := by
  have hlength : c.cmds.length - 1 + 1 = c.cmds.length :=
    Nat.sub_add_cancel (List.length_pos_of_ne_nil hne)
  rw [openOut, Files.output, if_pos hlength]
  cases hredirect : c.redirectOut with
  | none =>
    refine ⟨1, rfl, Function.update_self .., rfl, rfl, ?_, fun h => by omega, fun _ _ => rfl⟩
    exact (hbase 1 (by omega)).trans rfl
  | some w =>
    obtain ⟨hq, hfree⟩ := alloc_get hbase (.redirectOut f.line)
    rw [if_neg (by simp)]
    refine ⟨_, hq, Function.update_self .., rfl, rfl, ?_, fun _ => hfree, fun x hx => ?_⟩
    · exact Descriptors.get_alloc.trans (if_pos rfl)
    · exact Descriptors.get_alloc.trans (if_neg (by omega))

theorem ready_open (hbase : Base f.table) (hne : c.cmds ≠ []) :
    Ready f.line c 0 ((f.openIn c).openOut c) := by
  obtain ⟨p, hp, hinFd, -, hline, hin, hget⟩ := openIn_get (fun fd _ => hbase fd) c
  have hbase' : ∀ fd < 4, (f.openIn c).table.get fd = init.table.get fd := fun fd hfd => by
    rw [hget fd (.inr hfd), hbase]
  obtain ⟨q, hq, houtFd, hinFd', hline', hout, hfree, hget'⟩ := openOut_get hbase' hne
  rw [hline] at hq hout hline'
  have hpq : p ≠ q := by
    rintro rfl
    have hfree : ¬4 ≤ p := fun h => by
      rw [hfree h] at hin
      cases hin
    rw [Placed] at hp hq
    split_ifs at hp hq <;> omega
  refine ⟨hline', fun fd hfd => ?_, ?_, ?_, ?_, ?_, ?_, fun fd hfd hne₁ hne₂ => ?_⟩
  · rw [hget' fd (.inr hfd), hbase' fd hfd]
  · rw [hinFd', hinFd, hget' p (.inl hpq), hin]
  · rwa [hinFd', hinFd]
  · rw [houtFd, hout]
  · rwa [houtFd]
  · rwa [hinFd', hinFd, houtFd]
  · rw [hinFd', hinFd] at hne₁
    rw [houtFd] at hne₂
    rw [hget' fd (.inl hne₂), hget fd (.inl hne₁), hbase, init_get, if_neg (by omega),
      if_neg (by omega)]

/-- `history -c` gives the history file its number back. -/
theorem builtin_get (hbase : Base f.table) (cmd : List Line) :
    Base (f.builtin cmd).table := by
  rw [builtin]
  split
  · set closed : Descriptors Resource :=
      ⟨f.table.entries.map fun r => if r = some .history then none else r⟩
    have hclosed : ∀ fd, closed.get fd = if fd < 3 then some .terminal else none := fun fd => by
      have hfd := hbase fd
      rw [init_get, Descriptors.get] at hfd
      simp only [closed, Descriptors.get, List.getElem?_map]
      generalize f.table.entries[fd]? = e at hfd
      obtain _ | _ | r := e
      all_goals split_ifs at hfd ⊢ <;> simp_all
    have hfree := Descriptors.get_alloc_free closed .history
    have hlow : ¬3 < (closed.alloc .history).2 := fun hlt =>
      Descriptors.get_of_lt_alloc hlt (by rw [hclosed, if_neg (by omega)])
    have hthree : (closed.alloc .history).2 = 3 := by
      rw [hclosed] at hfree
      split_ifs at hfree
      omega
    intro fd
    rw [Descriptors.get_alloc, hthree, hclosed, init_get]
    split_ifs <;> first | rfl | omega
  · exact hbase

theorem execLoop_builtins_get (hb : ∀ cmd ∈ cmds, isBuiltin cmd)
    (hbase : Base f.table) :
    Base (execLoop i cmds f).1.table := by
  induction cmds generalizing i f with
  | nil => exact hbase
  | cons cmd rest ih =>
    obtain ⟨hcmd, hrest⟩ := List.forall_mem_cons.mp hb
    rw [execLoop, if_pos hcmd]
    exact ih hrest (builtin_get hbase cmd)

/-- One line, in a shell that has nothing open but its own descriptors. -/
theorem wired_of_clean (hbase : Base f.table) (j : Job)
    (hc : Clean j.toCommands) : f.Wired j.toCommands ∧
      Base (f.execCommands j.toCommands).1.table := by
  obtain ⟨horder, hforeground⟩ := hc
  obtain ⟨hgood, hclosed⟩ := execLoop_spec [] (ready_open hbase j.ne_nil) (.inl rfl) rfl
    rfl horder
  have hafter : Base (f.execCommands j.toCommands).1.table := by
    rw [execCommands]
    dsimp only
    split
    · exact hbase
    next hback =>
      obtain hexternal | ⟨hbuiltin, hin, hout⟩ := hforeground.resolve_left hback
      · exact hclosed hexternal j.ne_nil
      · refine execLoop_builtins_get hbuiltin fun fd => ?_
        rw [openOut, hout, openIn, hin]
        exact hbase fd
  have hactions : (f.execCommands j.toCommands).2 =
      (execLoop 0 j.cmds ((f.openIn j.toCommands).openOut j.toCommands)).2 := by
    rw [execCommands]
    dsimp only
    split <;> rfl
  refine ⟨⟨?_, ?_, fun fd r hr => ?_⟩, hafter⟩
  · rw [hactions, command_execLoop]
  · rw [hactions]
    exact hgood
  · rw [hafter, init_get] at hr
    split_ifs at hr <;> cases hr <;> simp [Resource.line]

/-- In every session whose lines are all clean, the next clean line is wired. -/
theorem run_wired {js : List Job} (hrun : machine.Run (fun _ j => Clean j.toCommands) init js f)
    (j : Job) (hj : Clean j.toCommands) : f.Wired j.toCommands := by
  have hbase := hrun.invariant (I := fun f => Base f.table)
    (fun f j g h hc hstep => by
      cases hstep
      exact (wired_of_clean h j hc).2)
    fun _ => rfl
  exact (wired_of_clean hbase j hj).1

/-- `ls | wc`, and `ls` behind it. -/
theorem run_wired_twice : ∃ f, machine.exec init [⟨{ cmds := [[['l', 's']], [['w', 'c']]] },
    by decide, by decide, by decide⟩] = some f ∧ f.Wired { cmds := [[['l', 's']]] } := by
  let j : Job := ⟨{ cmds := [[['l', 's']], [['w', 'c']]] }, by decide, by decide, by decide⟩
  have hj : Clean j.toCommands := ⟨by decide, .inr (.inl (by decide))⟩
  have hrun : machine.Run (fun _ j => Clean j.toCommands) init [j]
      (init.execCommands j.toCommands).1 := .cons hj rfl .nil
  exact ⟨_, rfl, run_wired hrun ⟨{ cmds := [[['l', 's']]] }, by decide, by decide, by decide⟩
    ⟨by decide, .inr (.inl (by decide))⟩⟩

/-- In `cd | cat` the second command reads the terminal. -/
theorem not_wired_cd : ¬∀ (js : List Job) (f : Files) (j : Job), machine.exec init js = some f →
    f.Wired j.toCommands := by
  intro h
  have hwired := h [] init ⟨{ cmds := [[['c', 'd']], [['c', 'a', 't']]] }, by decide, by decide,
    by decide⟩ rfl
  obtain ⟨-, hinput, -⟩ := hwired.good (.start 1 0 1 init.table) List.mem_cons_self
  rw [Input, if_neg (by decide), if_pos (by decide)] at hinput
  obtain ⟨k, hread, -⟩ := hinput
  cases hread

end Files

/-- The commands that the parser makes of a line are such a job, if each has a name. -/
theorem exists_job {l : Line} {c : Commands} (h : parse l = some c) (hc : [] ∉ c.cmds) :
    ∃ j : Job, j.toCommands = c := by
  have hfits := (parse_isSome l).mp (h ▸ rfl)
  have hcmds := parse_cmds h
  exact ⟨⟨c, hcmds ▸ split_ne_nil _, hcmds ▸ hfits.commands, hc⟩, rfl⟩

end Course.Os.Osh
