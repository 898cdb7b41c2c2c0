import Course.Lib.Strtok
import Course.Os.Osh
import Mathlib.Data.List.Forall2
import Mathlib.Logic.Function.Basic

/-! The parser of the shell on the memory that it works on: its tokens are places in
`parse_buffer`, which ends with the call. -/

open Course.Lib

namespace Course.Os.Osh

/-! ### Commands of a line -/

abbrev delims : List Char := [' ', '\n']

/-- The tokens without the redirections. -/
def plain : List Line → List Line
  | [] => []
  | [t] => if t = ['<'] ∨ t = ['>'] then [] else [t]
  | t :: u :: ts => if t = ['<'] ∨ t = ['>'] then plain ts else t :: plain (u :: ts)

/-- The words of each command. -/
def split (ts : List Line) : List (List Line) := ((plain ts).filter (· ≠ ['&'])).splitOn ['|']

/-- The commands and their arguments find room, the final `NULL` included. -/
structure Fits (cmds : List (List Line)) : Prop where
  commands : cmds.length ≤ MAX_COMMANDS
  args : ∀ argv ∈ cmds, argv.length + 1 ≤ MAX_ARGS

variable {c d : Commands} {argv ws : List Line} {t w : Line} {ts : List Line}

theorem plain_cons (t : Line) (ts : List Line) :
    plain (t :: ts) = if t = ['<'] ∨ t = ['>'] then plain ts.tail else t :: plain ts := by
  cases ts <;> rfl

theorem parseLoop_cons (c : Commands) (argv : List Line) (t : Line) (ts : List Line) :
    parseLoop c argv (t :: ts) =
      if t = ['<'] then parseLoop { c with redirectIn := ts.head? } argv ts.tail
      else if t = ['>'] then parseLoop { c with redirectOut := ts.head? } argv ts.tail
      else if t = ['|'] then
        if argv.length < MAX_ARGS ∧ c.cmds.length + 1 < MAX_COMMANDS then
          parseLoop { c with cmds := c.cmds ++ [argv] } [] ts
        else none
      else if t = ['&'] then parseLoop { c with background := true } argv ts
      else if argv.length < MAX_ARGS then parseLoop c (argv ++ [t]) ts else none := by
  by_cases hin : t = ['<']
  · subst hin
    cases ts <;> rfl
  · by_cases hout : t = ['>']
    · subst hout
      cases ts <;> rfl
    · by_cases hpipe : t = ['|']
      · subst hpipe
        rfl
      · by_cases hbackground : t = ['&']
        · subst hbackground
          rfl
        · rw [if_neg hin, if_neg hout, if_neg hpipe, if_neg hbackground, parseLoop.eq_8]
          all_goals simp_all

theorem split_ne_nil (ts : List Line) : split ts ≠ [] := List.splitOn_ne_nil _ _

theorem split_cons (t : Line) (ts : List Line) : split (t :: ts) =
    if t = ['<'] ∨ t = ['>'] then split ts.tail
    else if t = ['|'] then [] :: split ts
    else if t = ['&'] then split ts
    else (split ts).modifyHead (t :: ·) := by
  rw [split, plain_cons]
  split_ifs with hredirect hpipe hbackground
  · rfl
  · subst hpipe
    simp [split, List.splitOn_cons_eq_if_modifyHead]
  · simp [split, hbackground]
  · simp [split, hbackground, hpipe, List.splitOn_cons_eq_if_modifyHead]

/-- There is room for these commands behind `n` others and the arguments `argv`. -/
structure Room (n : ℕ) (argv : List Line) (cmds : List (List Line)) : Prop where
  commands : n + cmds.length ≤ MAX_COMMANDS
  args : ∀ a ∈ cmds.modifyHead (argv ++ ·), a.length + 1 ≤ MAX_ARGS

/-- The result of the loop on the tokens `ts`. -/
structure Parses (c : Commands) (argv : List Line) (ts : List Line) (r : Option Commands) :
    Prop where
  isSome : r.isSome ↔ Room c.cmds.length argv (split ts)
  cmds : ∀ d, r = some d → d.cmds = c.cmds ++ (split ts).modifyHead (argv ++ ·)
  background : ∀ d, r = some d → (d.background ↔ c.background ∨ ['&'] ∈ plain ts)

variable {n : ℕ} {cmds : List (List Line)}

theorem modifyHead_nil : cmds.modifyHead ([] ++ ·) = cmds := by cases cmds <;> rfl

theorem modifyHead_word :
    (cmds.modifyHead (w :: ·)).modifyHead (argv ++ ·) = cmds.modifyHead (argv ++ [w] ++ ·) := by
  cases cmds <;> simp

theorem room_pipe (n : ℕ) (argv : List Line) (hne : cmds ≠ []) : Room n argv ([] :: cmds) ↔
    (argv.length < MAX_ARGS ∧ n + 1 < MAX_COMMANDS) ∧ Room (n + 1) [] cmds := by
  have hpos := List.length_pos_of_ne_nil hne
  constructor
  · rintro ⟨hcommands, hargs⟩
    rw [List.length_cons] at hcommands
    rw [List.modifyHead_cons, List.append_nil] at hargs
    obtain ⟨hargv, hargs⟩ := List.forall_mem_cons.mp hargs
    exact ⟨⟨hargv, by omega⟩, by omega, by rwa [modifyHead_nil]⟩
  · rintro ⟨⟨hargv, -⟩, hcommands, hargs⟩
    rw [modifyHead_nil] at hargs
    refine ⟨by rw [List.length_cons]; omega, ?_⟩
    rw [List.modifyHead_cons, List.append_nil]
    exact List.forall_mem_cons.mpr ⟨hargv, hargs⟩

theorem room_word (n : ℕ) (argv : List Line) (w : Line) (hne : cmds ≠ []) :
    Room n argv (cmds.modifyHead (w :: ·)) ↔
    argv.length < MAX_ARGS ∧ Room n (argv ++ [w]) cmds := by
  obtain ⟨cmd, cmds, rfl⟩ := List.exists_cons_of_ne_nil hne
  constructor
  · rintro ⟨hcommands, hargs⟩
    rw [modifyHead_word] at hargs
    have hlen := hargs (argv ++ [w] ++ cmd) (by simp)
    simp only [List.length_append, List.length_singleton] at hlen
    exact ⟨by omega, by simpa using hcommands, hargs⟩
  · rintro ⟨-, hcommands, hargs⟩
    exact ⟨by simpa using hcommands, by rwa [modifyHead_word]⟩

namespace Parses

variable {r : Option Commands}

theorem nil (hc : c.cmds.length < MAX_COMMANDS) : Parses c argv [] (parseLoop c argv []) := by
  have hroom : Room c.cmds.length argv [[]] ↔ argv.length < MAX_ARGS := by
    refine ⟨fun h => h.args argv (by simp), fun h => ⟨hc, fun a ha => ?_⟩⟩
    obtain rfl : a = argv := by simpa using ha
    exact h
  rw [parseLoop]
  by_cases hargv : argv.length < MAX_ARGS
  · rw [if_pos hargv]
    refine ⟨iff_of_true rfl (hroom.mpr hargv), fun d hd => ?_, fun d hd => ?_⟩
    all_goals
      cases hd
      simp [split, plain]
  · rw [if_neg hargv]
    exact ⟨iff_of_false (by simp) (fun h => hargv (hroom.mp h)), nofun, nofun⟩

theorem redirect (ht : t = ['<'] ∨ t = ['>']) (hcmds : d.cmds = c.cmds)
    (hback : d.background = c.background) (h : Parses d argv ts.tail r) :
    Parses c argv (t :: ts) r := by
  have hsplit := split_cons t ts
  have hplain := plain_cons t ts
  rw [if_pos ht] at hsplit hplain
  exact ⟨by rw [hsplit, h.isSome, hcmds], by rw [hsplit, ← hcmds]; exact h.cmds,
    by rw [hplain, ← hback]; exact h.background⟩

/-- Any other token than a redirection; `plain` has it in front. -/
theorem mem_plain (ht : t ≠ ['<'] ∧ t ≠ ['>']) :
    ['&'] ∈ plain (t :: ts) ↔ t = ['&'] ∨ ['&'] ∈ plain ts := by
  rw [plain_cons, if_neg (not_or.mpr ht), List.mem_cons, eq_comm]

theorem pipe (h : argv.length < MAX_ARGS ∧ c.cmds.length + 1 < MAX_COMMANDS →
      Parses { c with cmds := c.cmds ++ [argv] } [] ts r) :
    Parses c argv (['|'] :: ts)
      (if argv.length < MAX_ARGS ∧ c.cmds.length + 1 < MAX_COMMANDS then r else none) := by
  have hsplit : split (['|'] :: ts) = [] :: split ts := by simp [split_cons]
  have hroom := room_pipe c.cmds.length argv (split_ne_nil ts)
  rw [← hsplit] at hroom
  by_cases hfits : argv.length < MAX_ARGS ∧ c.cmds.length + 1 < MAX_COMMANDS
  · obtain ⟨hsome, hcmds, hback⟩ := h hfits
    rw [if_pos hfits]
    refine ⟨?_, fun d hd => ?_, fun d hd => ?_⟩
    · rw [hsome, List.length_append, List.length_singleton, hroom]
      exact (and_iff_right hfits).symm
    · rw [hcmds d hd, modifyHead_nil, hsplit, List.modifyHead_cons, List.append_nil,
        List.append_assoc, List.singleton_append]
    · rw [hback d hd, mem_plain (by decide)]
      simp
  · rw [if_neg hfits]
    exact ⟨iff_of_false (by simp) (fun h => hfits (hroom.mp h).1), nofun, nofun⟩

theorem ampersand (h : Parses { c with background := true } argv ts r) :
    Parses c argv (['&'] :: ts) r := by
  have hsplit : split (['&'] :: ts) = split ts := by simp [split_cons]
  refine ⟨by rw [hsplit, h.isSome], by rw [hsplit]; exact h.cmds, fun d hd => ?_⟩
  rw [h.background d hd, mem_plain (by decide)]
  simp

theorem word (ht : (t ≠ ['<'] ∧ t ≠ ['>']) ∧ t ≠ ['|'] ∧ t ≠ ['&'])
    (h : Parses c (argv ++ [t]) ts r) :
    Parses c argv (t :: ts) (if argv.length < MAX_ARGS then r else none) := by
  have hsplit : split (t :: ts) = (split ts).modifyHead (t :: ·) := by
    rw [split_cons, if_neg (not_or.mpr ht.1), if_neg ht.2.1, if_neg ht.2.2]
  have hroom := room_word c.cmds.length argv t (split_ne_nil ts)
  rw [← hsplit] at hroom
  by_cases hargv : argv.length < MAX_ARGS
  · rw [if_pos hargv]
    refine ⟨?_, fun d hd => ?_, fun d hd => ?_⟩
    · rw [h.isSome, hroom]
      exact (and_iff_right hargv).symm
    · rw [h.cmds d hd, hsplit, modifyHead_word]
    · rw [h.background d hd, mem_plain ht.1, or_iff_right ht.2.2]
  · rw [if_neg hargv]
    exact ⟨iff_of_false (by simp) (fun h => hargv (hroom.mp h).1), nofun, nofun⟩

end Parses

/-- The loop splits the tokens at the pipes, as long as there is room. -/
theorem parseLoop_spec (hc : c.cmds.length < MAX_COMMANDS) :
    Parses c argv ts (parseLoop c argv ts) := by
  induction hn : ts.length using Nat.strong_induction_on generalizing c argv ts with
  | _ n ih =>
    cases ts with
    | nil => exact .nil hc
    | cons t ts =>
      rw [List.length_cons] at hn
      have htail : ts.tail.length < n := by
        rw [List.length_tail]
        omega
      have hlt : ts.length < n := by omega
      rw [parseLoop_cons]
      by_cases hin : t = ['<']
      · rw [if_pos hin]
        exact .redirect (d := { c with redirectIn := ts.head? }) (.inl hin) rfl rfl
          (ih _ htail hc rfl)
      · by_cases hout : t = ['>']
        · rw [if_neg hin, if_pos hout]
          exact .redirect (d := { c with redirectOut := ts.head? }) (.inr hout) rfl rfl
            (ih _ htail hc rfl)
        · rw [if_neg hin, if_neg hout]
          by_cases hpipe : t = ['|']
          · rw [if_pos hpipe, hpipe]
            exact .pipe fun hfits => ih _ hlt (by simpa using hfits.2) rfl
          · by_cases hbackground : t = ['&']
            · rw [if_neg hpipe, if_pos hbackground, hbackground]
              exact .ampersand (ih _ hlt hc rfl)
            · rw [if_neg hpipe, if_neg hbackground]
              exact .word ⟨⟨hin, hout⟩, hpipe, hbackground⟩ (ih _ hlt hc rfl)

theorem parse_spec (l : Line) : Parses {} [] (tokens delims [] l) (parse l) :=
  parseLoop_spec (by decide)

theorem room_iff : Room 0 [] cmds ↔ Fits cmds := by
  refine ⟨fun h => ⟨by simpa using h.commands, ?_⟩, fun h => ⟨by simpa using h.commands, ?_⟩⟩
  · have hargs := h.args
    rwa [modifyHead_nil] at hargs
  · rw [modifyHead_nil]
    exact h.args

theorem parse_isSome (l : Line) : (parse l).isSome ↔ Fits (split (tokens delims [] l)) :=
  (parse_spec l).isSome.trans room_iff

theorem parse_cmds (h : parse l = some d) : d.cmds = split (tokens delims [] l) := by
  rw [(parse_spec l).cmds d h, modifyHead_nil]
  rfl

theorem parse_background (h : parse l = some d) :
    d.background ↔ ['&'] ∈ plain (tokens delims [] l) := by
  rw [(parse_spec l).background d h]
  simp

/-! ### Memory -/

/-- A place in the `parse_buffer` of a call of `parse_input`; the calls are numbered. -/
structure Pointer where
  call : ℕ
  offset : ℕ

/-- The parse buffers of the calls that have not returned. -/
abbrev Memory := ℕ → Option (List Char)

def Memory.string (m : Memory) (p : Pointer) : Option Line :=
  (m p.call).map fun buf => stringAt '\x00' buf p.offset

/-- `struct commands`; `argv` is what stands before its `NULL`. -/
structure Pointers where
  cmds : List (List Pointer) := []
  redirectIn : Option Pointer := none
  redirectOut : Option Pointer := none
  background : Bool := false

namespace Pointers

def strcpy (dest src : List Char) : List Char := src ++ '\x00' :: dest.drop (src.length + 1)

/-- The loop of `parse_input`, as `parseLoop` has it, with the calls of `strtok`. -/
def scanLoop (call : ℕ) (s : Strtok Char) (c : Pointers) (argv : List Pointer) :
    Option (Strtok Char × Pointers) :=
  match h : s.next '\x00' delims with
  | (none, s) =>
    if argv.length < MAX_ARGS then some (s, { c with cmds := c.cmds ++ [argv] }) else none
  | (some p, s') =>
    let token := stringAt '\x00' s'.buf p
    let redirect := s'.next '\x00' delims
    if token = ['<'] then
      scanLoop call redirect.2 { c with redirectIn := redirect.1.map (Pointer.mk call) } argv
    else if token = ['>'] then
      scanLoop call redirect.2 { c with redirectOut := redirect.1.map (Pointer.mk call) } argv
    else if token = ['|'] then
      if argv.length < MAX_ARGS ∧ c.cmds.length + 1 < MAX_COMMANDS then
        scanLoop call s' { c with cmds := c.cmds ++ [argv] } []
      else none
    else if token = ['&'] then scanLoop call s' { c with background := true } argv
    else if argv.length < MAX_ARGS then scanLoop call s' c (argv ++ [⟨call, p⟩])
    else none
termination_by s.buf.length - s.saved
decreasing_by
  all_goals
    have hsome := Strtok.next_some h
    have hplace := Strtok.next_place '\x00' delims s
    have hredirect := Strtok.next_place '\x00' delims s'
    rw [h] at hplace
    dsimp only at hplace
    omega

/-- `parse_input` until it returns; `garbage` is what was in its frame. -/
def parseBody (m : Memory) (call : ℕ) (garbage : List Char) (l : Line) :
    Option (Memory × Pointers) :=
  if l.length < BUFFER_SIZE then
    (scanLoop call ⟨strcpy garbage l, 0⟩ {} []).map fun r =>
      (Function.update m call (some r.1.buf), r.2)
  else none

/-- The line in `input_buffer` is `l`, and the commands of the line before are `c`. -/
def parseInput (m : Memory) (call : ℕ) (garbage : List Char) (c : Pointers) (l : Line) :
    Option (Memory × Pointers) :=
  if l.head? = some '\n' then some (m, c)
  else (parseBody m call garbage l).map fun r => (Function.update r.1 call none, r.2)

/-! ### The tokens in the buffer -/

variable {call : ℕ} {s s' : Strtok Char} {c c' : Pointers} {d d' : Commands}
  {argv argv' : List Pointer} {ws r l : Line} {p : Pointer} {q : ℕ}

/-- The token `w` is where `p` points. -/
def Refers (call : ℕ) (s : Strtok Char) (p : Pointer) (w : Line) : Prop :=
  p.call = call ∧ s.Holds '\x00' p.offset w

/-- The pointers to the tokens of `d`. -/
structure Describes (call : ℕ) (s : Strtok Char) (c : Pointers) (d : Commands) : Prop where
  cmds : List.Forall₂ (List.Forall₂ (Refers call s)) c.cmds d.cmds
  redirectIn : Option.Rel (Refers call s) c.redirectIn d.redirectIn
  redirectOut : Option.Rel (Refers call s) c.redirectOut d.redirectOut
  background : c.background = d.background

/-- No token is lost on the way from `s` to `s'`. -/
def Keeps (s s' : Strtok Char) : Prop := ∀ q w, s.Holds '\x00' q w → s'.Holds '\x00' q w

theorem Refers.mono (hk : Keeps s s') (h : Refers call s p w) : Refers call s' p w :=
  ⟨h.1, hk _ _ h.2⟩

theorem relMono {o : Option Pointer} {v : Option Line} (hk : Keeps s s')
    (h : Option.Rel (Refers call s) o v) : Option.Rel (Refers call s') o v := by
  cases h with
  | none => exact .none
  | some h => exact .some (h.mono hk)

theorem argsMono {ws : List Line} (hk : Keeps s s') (h : List.Forall₂ (Refers call s) argv ws) :
    List.Forall₂ (Refers call s') argv ws :=
  h.imp fun _ _ => Refers.mono hk

theorem Describes.mono (hk : Keeps s s') (h : Describes call s c d) : Describes call s' c d where
  cmds := h.cmds.imp fun _ _ => argsMono hk
  redirectIn := relMono hk h.redirectIn
  redirectOut := relMono hk h.redirectOut
  background := h.background

theorem tokens_delims (hr : ∀ x ∈ r, x ∈ delims) : tokens delims [] r = [] := by
  induction r with
  | nil => rfl
  | cons x r ih =>
    obtain ⟨hx, hr⟩ := List.forall_mem_cons.mp hr
    rw [tokens, if_pos hx, if_pos rfl, ih hr]

theorem tokens_word {rest : Line} (cur : Line) (hne : cur ++ w ≠ []) (hw : ∀ x ∈ w, x ∉ delims)
    (hrest : ∀ x ∈ rest.head?, x ∈ delims) :
    tokens delims cur (w ++ rest) = (cur ++ w) :: tokens delims [] rest.tail := by
  induction w generalizing cur with
  | nil =>
    rw [List.append_nil] at hne ⊢
    cases rest with
    | nil => rw [List.nil_append, tokens, if_neg hne]; rfl
    | cons x rest => rw [List.nil_append, tokens, if_pos (hrest x rfl), if_neg hne]; rfl
  | cons x w ih =>
    obtain ⟨hx, hw⟩ := List.forall_mem_cons.mp hw
    rw [List.cons_append, tokens, if_neg hx, ih _ (by simp) hw, List.append_assoc,
      List.singleton_append]

theorem tokens_append {front rest : Line} (hf : ∀ x ∈ front, x ∈ delims) (hne : w ≠ [])
    (hw : ∀ x ∈ w, x ∉ delims) (hrest : ∀ x ∈ rest.head?, x ∈ delims) :
    tokens delims [] (front ++ w ++ rest) = w :: tokens delims [] rest.tail := by
  induction front with
  | nil => exact tokens_word [] hne hw hrest
  | cons x front ih =>
    obtain ⟨hx, hf⟩ := List.forall_mem_cons.mp hf
    rw [List.cons_append, List.cons_append, tokens, if_pos hx, if_pos rfl, ih hf]

/-- One call of `strtok` takes the first token off the list. -/
theorem next_spec (h : s.Scans '\x00' r) :
    ∃ r', (s.next '\x00' delims).2.Scans '\x00' r' ∧ Keeps s (s.next '\x00' delims).2 ∧
      tokens delims [] r' = (tokens delims [] r).tail ∧ r'.length ≤ r.length ∧
      ((s.next '\x00' delims).1 = none ∧ tokens delims [] r = [] ∨
        ∃ q w, (s.next '\x00' delims).1 = some q ∧ tokens delims [] r = w :: tokens delims [] r' ∧
          (s.next '\x00' delims).2.Holds '\x00' q w ∧ r'.length < r.length) := by
  obtain hr | ⟨front, w, rest, rfl, hf, hne, hw, hrest⟩ := Strtok.split_word delims r
  · obtain ⟨s', hnext, hscans, hkeeps⟩ := h.next_none hr
    have htokens := tokens_delims hr
    rw [hnext]
    exact ⟨[], hscans, hkeeps, by rw [htokens]; rfl, Nat.zero_le _, .inl ⟨rfl, htokens⟩⟩
  · obtain ⟨q, s', hnext, hscans, hholds, hkeeps⟩ := h.next_some hf hne hw hrest
    have htokens := tokens_append hf hne hw hrest
    have hpos := List.length_pos_of_ne_nil hne
    have hlen : rest.tail.length < (front ++ w ++ rest).length := by
      rw [List.length_tail, List.length_append, List.length_append]
      omega
    rw [hnext]
    exact ⟨rest.tail, hscans, hkeeps, by rw [htokens]; rfl, hlen.le,
      .inr ⟨q, w, rfl, htokens, hholds, hlen⟩⟩

/-- The file of a redirection is the next token, or `NULL`. -/
theorem redirect_spec (call : ℕ) (h : s.Scans '\x00' r) :
    ∃ r', (s.next '\x00' delims).2.Scans '\x00' r' ∧ Keeps s (s.next '\x00' delims).2 ∧
      tokens delims [] r' = (tokens delims [] r).tail ∧ r'.length ≤ r.length ∧
      Option.Rel (Refers call (s.next '\x00' delims).2)
        ((s.next '\x00' delims).1.map (Pointer.mk call)) (tokens delims [] r).head? := by
  obtain ⟨r', hscans, hkeeps, htail, hle, hcase⟩ := next_spec h
  refine ⟨r', hscans, hkeeps, htail, hle, ?_⟩
  obtain ⟨hnone, htokens⟩ | ⟨q, w, hsome, htokens, hholds, -⟩ := hcase
  · rw [hnone, htokens]
    exact .none
  · rw [hsome, htokens]
    exact .some ⟨rfl, hholds⟩

/-- The loop does on its pointers what `parseLoop` does on the tokens. -/
theorem scanLoop_spec {ws : List Line} (h : s.Scans '\x00' r) (hc : Describes call s c d)
    (hargv : List.Forall₂ (Refers call s) argv ws) :
    Option.Rel (fun x d => Describes call x.1 x.2 d) (scanLoop call s c argv)
      (parseLoop d ws (tokens delims [] r)) := by
  induction hn : r.length using Nat.strong_induction_on generalizing s r c d argv ws with
  | _ n ih =>
    obtain ⟨r', hscans, hkeeps, -, -, hcase⟩ := next_spec h
    have hargv' := argsMono hkeeps hargv
    have hc' := hc.mono hkeeps
    have hcount := hargv.length_eq
    have hcmds := hc.cmds.length_eq
    rw [scanLoop]
    split
    next s' hnext =>
      rw [hnext] at hcase hargv' hc'
      obtain ⟨-, htokens⟩ | ⟨_, _, hsome, -⟩ := hcase
      · rw [htokens, parseLoop, hcount]
        split_ifs
        · exact .some { hc' with cmds := List.rel_append hc'.cmds (.cons hargv' .nil) }
        · exact .none
      · cases hsome
    next q s' hnext =>
      rw [hnext] at hcase hargv' hc' hscans
      obtain ⟨hnone, -⟩ | ⟨q', w, hsome, htokens, hholds, hlt⟩ := hcase
      · cases hnone
      · obtain rfl := Option.some.inj hsome
        obtain ⟨r₂, hscans₂, hkeeps₂, htail₂, hle₂, hrel₂⟩ := redirect_spec call hscans
        have hlt₂ : r₂.length < n := by omega
        have hargs₂ := argsMono hkeeps₂ hargv'
        have hc₂ := hc'.mono hkeeps₂
        rw [hn] at hlt
        rw [htokens, parseLoop_cons, hholds.stringAt, ← htail₂, hcount, hcmds]
        dsimp only at hscans hargv' hc' hholds hscans₂ hargs₂ hc₂ hrel₂ ⊢
        by_cases hin : w = ['<']
        · rw [if_pos hin, if_pos hin]
          exact ih _ hlt₂ hscans₂ ⟨hc₂.cmds, hrel₂, hc₂.redirectOut, hc₂.background⟩ hargs₂ rfl
        rw [if_neg hin, if_neg hin]
        by_cases hout : w = ['>']
        · rw [if_pos hout, if_pos hout]
          exact ih _ hlt₂ hscans₂ ⟨hc₂.cmds, hc₂.redirectIn, hrel₂, hc₂.background⟩ hargs₂ rfl
        rw [if_neg hout, if_neg hout]
        by_cases hpipe : w = ['|']
        · have hcmds' := List.rel_append hc'.cmds (.cons hargv' .nil)
          rw [if_pos hpipe, if_pos hpipe]
          split
          · exact ih _ hlt hscans ⟨hcmds', hc'.redirectIn, hc'.redirectOut, hc'.background⟩ .nil rfl
          · exact .none
        rw [if_neg hpipe, if_neg hpipe]
        by_cases hbackground : w = ['&']
        · rw [if_pos hbackground, if_pos hbackground]
          exact ih _ hlt hscans ⟨hc'.cmds, hc'.redirectIn, hc'.redirectOut, rfl⟩ hargv' rfl
        have hpointer : Refers call s' ⟨call, q⟩ w := ⟨rfl, hholds⟩
        rw [if_neg hbackground, if_neg hbackground]
        split
        · exact ih _ hlt hscans hc' (List.rel_append hargv' (.cons hpointer .nil)) rfl
        · exact .none

/-- The content of `input_buffer`. -/
structure Buffered where
  line : Line
  short : line.length < BUFFER_SIZE
  text : '\x00' ∉ line

variable {x : Buffered}

theorem parseBody_spec (m : Memory) (call : ℕ) (garbage : List Char) (x : Buffered) :
    (parse x.line = none ∧ parseBody m call garbage x.line = none) ∨
      ∃ d s c, parse x.line = some d ∧ Describes call s c d ∧
        parseBody m call garbage x.line = some (Function.update m call (some s.buf), c) := by
  obtain ⟨l, hshort, hl⟩ := x
  have hscans : (⟨strcpy garbage l, 0⟩ : Strtok Char).Scans '\x00' l :=
    ⟨hl, [], garbage.drop (l.length + 1), rfl, rfl⟩
  have hempty : Describes call ⟨strcpy garbage l, 0⟩ {} {} := ⟨.nil, .none, .none, rfl⟩
  have hrel := scanLoop_spec hscans hempty .nil
  rw [parseBody, if_pos hshort, parse]
  generalize scanLoop call ⟨strcpy garbage l, 0⟩ {} [] = o at hrel
  generalize parseLoop {} [] (tokens [' ', '\n'] [] l) = v at hrel
  cases hrel with
  | none => exact .inl ⟨rfl, rfl⟩
  | @some r d h => exact .inr ⟨d, r.1, r.2, rfl, h, rfl⟩

/-! ### What is passed on -/

/-- The outcomes of the calls of `exec_commands`: of the `fork` for a line in the
background, and of `fork` and `pipe` for each command. -/
structure Calls where
  background : Bool
  fork : ℕ → Bool
  pipe : ℕ → Bool

/-- The `argv[0]` of the commands that are passed on, from the command `i` on, up to the
first one that does not lead to a string. -/
def passedLoop (calls : Calls) (m : Memory) : ℕ → List (List Pointer) → List (Option Pointer)
  | _, [] => []
  | i, argv :: rest =>
    argv.head? ::
      match argv.head?.bind m.string with
      | none => []
      | some name =>
        if (checkBuiltinCommands name true).1 then passedLoop calls m (i + 1) rest
        else if (rest ≠ [] ∧ calls.pipe i = false) ∨ calls.fork i = false then []
        else passedLoop calls m (i + 1) rest

/-- A line in the background is left to the child, if there is one. -/
def passed (calls : Calls) (m : Memory) (l : Line) (c : Pointers) : List (Option Pointer) :=
  if l.head? = some '\n' ∨ c.background ∧ calls.background = false then []
  else passedLoop calls m 0 c.cmds

/-- The pointer leads to a word of the line. -/
def PointsInto (m : Memory) (l : Line) (o : Option Pointer) : Prop :=
  ∃ p w, o = some p ∧ m.string p = some w ∧ w ∈ tokens delims [] l

/-- `parse_input` keeps to its arrays, and `exec_commands` passes on words of the line. -/
def Safe (calls : Calls) (m : Memory) (call : ℕ) (garbage : List Char) (c : Pointers)
    (l : Line) : Prop :=
  ∃ m' c', parseInput m call garbage c l = some (m', c') ∧
    ∀ o ∈ passed calls m' l c', PointsInto m' l o

/-- The same as long as `parse_input` has not returned, for all commands. -/
def SafeInside (m : Memory) (call : ℕ) (garbage : List Char) (l : Line) : Prop :=
  ∃ m' c', parseBody m call garbage l = some (m', c') ∧
    ∀ argv ∈ c'.cmds, PointsInto m' l argv.head?

theorem mem_of_mem_plain {ts : List Line} (hw : w ∈ plain ts) : w ∈ ts := by
  induction hn : ts.length using Nat.strong_induction_on generalizing ts with
  | _ n ih =>
    cases ts with
    | nil => exact hw
    | cons t ts =>
      rw [List.length_cons] at hn
      rw [plain_cons] at hw
      split at hw
      · have hlt : ts.tail.length < n := by
          rw [List.length_tail]
          omega
        exact List.mem_cons_of_mem t (List.mem_of_mem_tail (ih _ hlt hw rfl))
      · obtain rfl | hw := List.mem_cons.mp hw
        · exact List.mem_cons_self
        · exact List.mem_cons_of_mem t (ih _ (by omega) hw rfl)

theorem mem_of_mem_splitOn {ts : List Line} {cmd : List Line} (hcmd : cmd ∈ ts.splitOn t)
    (hw : w ∈ cmd) : w ∈ ts := by
  induction ts generalizing cmd with
  | nil =>
    obtain rfl : cmd = [] := by simpa using hcmd
    exact hw
  | cons u ts ih =>
    rw [List.splitOn_cons_eq_if_modifyHead] at hcmd
    split at hcmd
    · obtain rfl | hcmd := List.mem_cons.mp hcmd
      · cases hw
      · exact List.mem_cons_of_mem u (ih hcmd hw)
    · obtain ⟨head, rest, hsplit⟩ := List.exists_cons_of_ne_nil (List.splitOn_ne_nil t ts)
      rw [hsplit, List.modifyHead_cons] at hcmd
      obtain rfl | hcmd := List.mem_cons.mp hcmd
      · obtain rfl | hw := List.mem_cons.mp hw
        · exact List.mem_cons_self
        · exact List.mem_cons_of_mem u (ih (by rw [hsplit]; exact List.mem_cons_self) hw)
      · exact List.mem_cons_of_mem u (ih (by rw [hsplit]; exact List.mem_cons_of_mem head hcmd) hw)

theorem mem_of_mem_split {ts : List Line} {cmd : List Line} (hcmd : cmd ∈ split ts)
    (hw : w ∈ cmd) : w ∈ ts :=
  mem_of_mem_plain (List.mem_of_mem_filter (mem_of_mem_splitOn hcmd hw))

theorem forall_iff {α β : Type} {R : α → β → Prop} {P : α → Prop} {Q : β → Prop} {as : List α}
    {bs : List β} (h : List.Forall₂ R as bs) (hPQ : ∀ a, ∀ b ∈ bs, R a b → (P a ↔ Q b)) :
    (∀ a ∈ as, P a) ↔ ∀ b ∈ bs, Q b := by
  induction h with
  | nil => simp
  | cons hR _ ih =>
    rw [List.forall_mem_cons, List.forall_mem_cons, hPQ _ _ (by simp) hR,
      ih fun a b hb => hPQ a b (List.mem_cons_of_mem _ hb)]

/-- What lies in the frame can be read until the call returns. -/
theorem pointsInto_iff {ts : List Line} {buf : List Char} {m : Memory}
    (hargv : List.Forall₂ (Refers call s) argv ts) (hts : ∀ w ∈ ts, w ∈ tokens delims [] l)
    (hbuf : s.buf = buf) :
    PointsInto (Function.update m call (some buf)) l argv.head? ↔ ts ≠ [] := by
  cases hargv with
  | nil =>
    refine iff_of_false ?_ (by simp)
    rintro ⟨p, w, hp, -⟩
    cases hp
  | @cons p w argv ts hpw _ =>
    refine iff_of_true ⟨p, w, rfl, ?_, hts w (by simp)⟩ (by simp)
    rw [Memory.string, hpw.1, Function.update_self, Option.map_some, ← hbuf, hpw.2.stringAt]

/-- What lay in the frame cannot be read once the call has returned. -/
theorem not_pointsInto {ts : List Line} {m : Memory}
    (hargv : List.Forall₂ (Refers call s) argv ts) :
    ¬PointsInto (Function.update m call none) l argv.head? := by
  rintro ⟨p, w, hp, hw, -⟩
  cases hargv with
  | nil => cases hp
  | cons hpw _ =>
    obtain rfl := Option.some.inj hp
    rw [Memory.string, hpw.1, Function.update_self] at hw
    cases hw

theorem passedLoop_cons (calls : Calls) (m : Memory) (i : ℕ) (argv : List Pointer)
    (rest : List (List Pointer)) :
    argv.head? ∈ passedLoop calls m i (argv :: rest) := by
  rw [passedLoop]
  exact List.mem_cons_self

/-- As soon as something is passed on, it leads into the frame that is gone. -/
theorem safe_iff_nothing (calls : Calls) (m : Memory) (call : ℕ) (garbage : List Char)
    (c : Pointers) (x : Buffered) : Safe calls m call garbage c x.line ↔
      x.line.head? = some '\n' ∨ Fits (split (tokens delims [] x.line)) ∧
        ['&'] ∈ plain (tokens delims [] x.line) ∧ calls.background = false := by
  rw [Safe, parseInput]
  by_cases hskip : x.line.head? = some '\n'
  · rw [if_pos hskip]
    refine iff_of_true ⟨m, c, rfl, ?_⟩ (.inl hskip)
    simp [passed, hskip]
  · rw [if_neg hskip, or_iff_right hskip, ← parse_isSome]
    obtain ⟨hparse, hbody⟩ | ⟨d, s, c', hparse, hdescribes, hbody⟩ :=
      parseBody_spec m call garbage x
    · rw [hparse, hbody]
      simp
    · rw [hparse, hbody, ← parse_background hparse, ← hdescribes.background,
        and_iff_right Option.isSome_some]
      constructor
      · rintro ⟨m', c'', hsome, hpassed⟩
        obtain ⟨rfl, rfl⟩ := Prod.mk.inj (Option.some.inj hsome)
        by_contra hforeground
        have hcmds := hdescribes.cmds
        rw [parse_cmds hparse] at hcmds
        rw [passed, if_neg (not_or.mpr ⟨hskip, hforeground⟩)] at hpassed
        obtain ⟨cmd, cmds, hsplit⟩ := List.exists_cons_of_ne_nil
          (split_ne_nil (tokens delims [] x.line))
        rw [hsplit] at hcmds
        obtain ⟨argv, rest, hargv, -, heq⟩ := List.forall₂_cons_right_iff.mp hcmds
        rw [heq] at hpassed
        exact not_pointsInto hargv (hpassed _ (passedLoop_cons ..))
      · rintro hback
        refine ⟨_, c', rfl, ?_⟩
        rw [passed, if_pos (.inr hback)]
        simp

theorem safeInside_iff (m : Memory) (call : ℕ) (garbage : List Char) (x : Buffered) :
    SafeInside m call garbage x.line ↔
      Fits (split (tokens delims [] x.line)) ∧ [] ∉ split (tokens delims [] x.line) := by
  rw [SafeInside, ← parse_isSome]
  obtain ⟨hparse, hbody⟩ | ⟨d, s, c', hparse, hdescribes, hbody⟩ :=
    parseBody_spec m call garbage x
  · rw [hparse, hbody]
    simp
  · rw [hparse, hbody, and_iff_right Option.isSome_some]
    have hcmds := hdescribes.cmds
    rw [parse_cmds hparse] at hcmds
    have hall : (∀ argv ∈ c'.cmds,
        PointsInto (Function.update m call (some s.buf)) x.line argv.head?) ↔
        ∀ cmd ∈ split (tokens delims [] x.line), cmd ≠ [] :=
      forall_iff hcmds fun argv cmd hcmd hargv =>
        pointsInto_iff hargv (fun w hw => mem_of_mem_split hcmd hw) rfl
    have hmem : [] ∉ split (tokens delims [] x.line) ↔
        ∀ cmd ∈ split (tokens delims [] x.line), cmd ≠ [] :=
      ⟨fun h cmd hcmd e => h (e ▸ hcmd), fun h hnil => h [] hnil rfl⟩
    rw [hmem, ← hall]
    constructor
    · rintro ⟨m', c'', hsome, hpoints⟩
      obtain ⟨rfl, rfl⟩ := Prod.mk.inj (Option.some.inj hsome)
      exact hpoints
    · exact fun hpoints => ⟨_, c', rfl, hpoints⟩

/-- Nothing of the line is left once `parse_input` has returned; inside of the call all is
well if there is room for the commands and each has a word. -/
theorem safe_iff (calls : Calls) (m : Memory) (call : ℕ) (garbage : List Char) (c : Pointers)
    (x : Buffered) :
    (Safe calls m call garbage c x.line ↔ x.line.head? = some '\n' ∨
      Fits (split (tokens delims [] x.line)) ∧ ['&'] ∈ plain (tokens delims [] x.line) ∧
        calls.background = false) ∧
    (SafeInside m call garbage x.line ↔
      Fits (split (tokens delims [] x.line)) ∧ [] ∉ split (tokens delims [] x.line)) :=
  ⟨safe_iff_nothing calls m call garbage c x, safeInside_iff m call garbage x⟩

/-- The line `ls`. -/
theorem not_safe_ls : ¬∀ (calls : Calls) (m : Memory) (call : ℕ) (garbage : List Char)
    (c : Pointers) (x : Buffered), Safe calls m call garbage c x.line := by
  intro h
  let x : Buffered := ⟨['l', 's'], by decide, by decide⟩
  let calls : Calls := ⟨true, fun _ => true, fun _ => true⟩
  obtain hskip | ⟨-, -, hfork⟩ :=
    (safe_iff_nothing calls (fun _ => none) 0 [] {} x).mp (h calls (fun _ => none) 0 [] {} x)
  · cases hskip
  · cases hfork

end Pointers

end Course.Os.Osh
