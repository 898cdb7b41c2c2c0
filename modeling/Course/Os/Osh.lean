import Course.Lib.Emitter

/-! The shell: the lines it reads, keeps in its buffers, parses and executes. -/

open Course.Lib

namespace Course.Os.Osh

def BUFFER_SIZE : ℕ := 2048

def MAX_ARGS : ℕ := 64

def MAX_COMMANDS : ℕ := 16

abbrev Line := List Char

def newline : Line := ['\n']

def bang : Line := ['!', '!']

/-- What a call hands over. `again` is for what a child of the shell hands over once
more, out of its copies of the streams. -/
inductive Event
  | written (l : Line)
  | parsed (l : Line)
  | executed (l : Line)
  | again
  deriving DecidableEq

/-- The arguments of each command of a line, and the rest of `struct commands`. -/
structure Commands where
  cmds : List (List Line) := []
  redirectIn : Option Line := none
  redirectOut : Option Line := none
  background : Bool := false
  deriving DecidableEq

/-- The strings in the buffers end before their first NUL. `line` is the number of
lines executed so far. -/
structure Shell where
  stdin : List Char
  inputBuffer : Line
  lastCommand : Line
  cmds : Commands
  shouldRun : Bool
  line : ℕ

/-- What the system does, by the number of the line and of its command: whether `fork`
and `pipe` succeed, for a whole line in the `background` too, whether `execvp` has
`found` the program, and what is found at `argv[0]`, which points into the frame that
`parse_input` has left. `none` is for memory that cannot be read.

A child that runs on as a shell ends in `exit`, and `copied` says whether its copies of
the buffers hold anything that is handed over once more by that: text of the history
file that the shell has still to write, or lines of an input that can be moved back. The
command is `none` for the child in the background. -/
structure System where
  fork : ℕ → ℕ → Bool
  background : ℕ → Bool
  pipe : ℕ → ℕ → Bool
  found : ℕ → ℕ → Bool
  argv : ℕ → ℕ → Line → Option Line
  copied : ℕ → Option ℕ → Bool

/-! ### Input -/

/-- At most `n` characters, up to the first newline. -/
def getLine : ℕ → List Char → Line × List Char
  | 0, s => ([], s)
  | _ + 1, [] => ([], [])
  | n + 1, c :: s =>
    if c = '\n' then ([c], s)
    else
      let (l, s) := getLine n s
      (c :: l, s)

/-- `none` at the end of the input. -/
def fgets (size : ℕ) (stdin : List Char) : Option (Line × List Char) :=
  if stdin = [] then none else some (getLine (size - 1) stdin)

/-- The characters before the first NUL. -/
def cString (l : List Char) : Line := l.takeWhile (· ≠ '\x00')

def initShell (stdin : List Char) : Shell where
  stdin := stdin
  inputBuffer := newline
  lastCommand := []
  cmds := {}
  shouldRun := true
  line := 0

/-- `fgets` leaves the buffer as it is at the end of the input. -/
def Shell.readLine (s : Shell) : Shell :=
  match fgets BUFFER_SIZE s.stdin with
  | none => s
  | some (l, stdin) => { s with inputBuffer := cString l, stdin := stdin }

/-- The line in the buffer is marked as one to skip. -/
def Shell.Skips (s : Shell) : Prop := s.inputBuffer.head? = some '\n'

instance (s : Shell) : Decidable s.Skips := inferInstanceAs (Decidable (_ = _))

def promptAndInput (s : Shell) : Option (Shell × List Event) :=
  let s := { s with lastCommand := s.inputBuffer }.readLine
  if s.Skips then some (s, [])
  else
    -- `strtok` cuts the buffer at the newline; there is no token in an empty string
    let token := s.inputBuffer.takeWhile (· ≠ '\n')
    if token = [] then none
    else if token = bang then
      if s.lastCommand = newline then some ({ s with inputBuffer := newline }, [])
      else some ({ s with inputBuffer := s.lastCommand }, [.written s.lastCommand])
    else some ({ s with inputBuffer := token }, [.written token])

/-! ### Parsing -/

/-- The tokens that `strtok` finds one after the other, `cur` the beginning of the first. -/
def tokens (delims : List Char) (cur : Line) : Line → List Line
  | [] => if cur = [] then [] else [cur]
  | c :: s =>
    if c ∈ delims then
      if cur = [] then tokens delims [] s else cur :: tokens delims [] s
    else tokens delims (cur ++ [c]) s

/-- The loop of `parse_input`, where `argv` are the arguments of the last command so far.
`none` when an argument or a command is written behind the end of its array. -/
def parseLoop (c : Commands) (argv : List Line) : List Line → Option Commands
  | [] => if argv.length < MAX_ARGS then some { c with cmds := c.cmds ++ [argv] } else none
  | ['<'] :: [] => parseLoop { c with redirectIn := none } argv []
  | ['<'] :: t :: ts => parseLoop { c with redirectIn := some t } argv ts
  | ['>'] :: [] => parseLoop { c with redirectOut := none } argv []
  | ['>'] :: t :: ts => parseLoop { c with redirectOut := some t } argv ts
  | ['|'] :: ts =>
    if argv.length < MAX_ARGS ∧ c.cmds.length + 1 < MAX_COMMANDS then
      parseLoop { c with cmds := c.cmds ++ [argv] } [] ts
    else none
  | ['&'] :: ts => parseLoop { c with background := true } argv ts
  | t :: ts => if argv.length < MAX_ARGS then parseLoop c (argv ++ [t]) ts else none

def parse (l : Line) : Option Commands := parseLoop {} [] (tokens [' ', '\n'] [] l)

def parseInput (s : Shell) : Option (Shell × List Event) :=
  if s.Skips then some (s, [])
  else do
    let cmds ← parse s.inputBuffer
    some ({ s with cmds := cmds }, [.parsed s.inputBuffer])

/-! ### Execution -/

/-- Whether the command is a built-in one, and `should_run` after it. -/
def checkBuiltinCommands (name : Line) (shouldRun : Bool) : Bool × Bool :=
  if name = ['c', 'd'] then (true, shouldRun)
  else if name = ['h', 'i', 's', 't', 'o', 'r', 'y'] then (true, shouldRun)
  else if name = ['e', 'x', 'i', 't'] then (true, false)
  else (false, shouldRun)

/-- What comes of a child that runs on as a shell. -/
def child (sys : System) (line : ℕ) (i : Option ℕ) : List Event :=
  if sys.copied line i then [.again] else []

/-- The loop of `exec_commands` from the command `i` on, as the shell itself goes through
it. `none` where the name of a command cannot be read. -/
def execLoop (sys : System) (line : ℕ) (shouldRun : Bool) :
    ℕ → List (List Line) → Option (Bool × List Event)
  | _, [] => some (shouldRun, [])
  | i, cmd :: rest => do
    let name ← cmd.head?
    let name ← sys.argv line i name
    match checkBuiltinCommands name shouldRun with
    | (true, shouldRun) => execLoop sys line shouldRun (i + 1) rest
    | (false, shouldRun) =>
      if rest ≠ [] ∧ sys.pipe line i = false then some (shouldRun, [])
      else if sys.fork line i = false then some (shouldRun, [])
      else
        let d := if sys.found line i then [] else child sys line (some i)
        let (shouldRun, e) ← execLoop sys line shouldRun (i + 1) rest
        some (shouldRun, d ++ e)

/-- `should_run` after the line, and what its children hand over. A line in the
background is left to a child, if there is one. -/
def exec (sys : System) (line : ℕ) (c : Commands) (shouldRun : Bool) :
    Option (Bool × List Event) :=
  if c.background then
    some (shouldRun, if sys.background line then child sys line none else [])
  else execLoop sys line shouldRun 0 c.cmds

def execCommands (sys : System) (s : Shell) : Option (Shell × List Event) :=
  if s.Skips then some (s, [])
  else do
    let (shouldRun, e) ← exec sys s.line s.cmds s.shouldRun
    some ({ s with shouldRun := shouldRun, line := s.line + 1 }, .executed s.inputBuffer :: e)

/-- The loop of `main`. -/
def main (sys : System) : Emitter Shell Event where
  step s :=
    if s.shouldRun then do
      let (s, d) ← promptAndInput s
      let (s, e) ← parseInput s
      let (s, f) ← execCommands sys s
      some (s, d ++ e ++ f)
    else some (s, [])

end Course.Os.Osh
