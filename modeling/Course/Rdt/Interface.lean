import Mathlib.Data.List.Basic
import Mathlib.Data.List.Nodup
import Mathlib.Logic.Function.Basic

/-! The lines of the interface of the RDT Lab: how `log` writes the arguments of an operation,
and how `tokenize` and `parse` read them again.  A character is a byte. -/

namespace Course.Rdt.Interface

abbrev Text := List UInt8

def text (s : String) : Text := s.toList.map Char.toUInt8

def backslash : UInt8 := '\\'.toUInt8

def equals : UInt8 := '='.toUInt8

def space : UInt8 := ' '.toUInt8

def newline : UInt8 := '\n'.toUInt8

/-- `isspace`, and `\s` of a regular expression, in the locale of C. -/
def isspace (c : UInt8) : Bool := c == space || 9 ≤ c && c ≤ 13

/-! ### Reading -/

/-- The variables of `tokenize`. -/
structure Tokenizer where
  tokens : List Text
  token : Text
  escaping : Bool

/-- One turn of its loop. -/
def Tokenizer.next (s : Tokenizer) (current : UInt8) : Tokenizer :=
  if s.escaping then { s with token := s.token ++ [current], escaping := false }
  else if current = backslash then { s with escaping := true }
  else if !isspace current then { s with token := s.token ++ [current] }
  else if s.token ≠ [] then { s with tokens := s.tokens ++ [s.token], token := [] }
  else s

def tokenize (command : Text) : List Text :=
  let s := command.foldl Tokenizer.next ⟨[], [], false⟩
  if s.token ≠ [] then s.tokens ++ [s.token] else s.tokens

/-- `std::unordered_map` of what `parse` finds. -/
abbrev ArgumentsType := Text → Option Text

/-- One turn of the loop of `parse`. -/
def assign (arguments : ArgumentsType) (token : Text) : ArgumentsType :=
  match token.idxOf? equals with
  | none => arguments
  | some pos => Function.update arguments (token.take pos) (some (token.drop (pos + 1)))

/-- Without a token there is no command to take. -/
def parse : List Text → Option (Text × ArgumentsType)
  | [] => none
  | command :: tokens => some (command, tokens.foldl assign fun _ => none)

/-! ### Writing -/

/-- The host and the operation of every call of `log`. -/
inductive Operation
  | interfaceError | clientStart | clientRequest | clientStatistics | clientFinish | clientError
  | serverStart | serverStop | serverTask | serverFinish | serverError
  deriving DecidableEq

def Operation.host : Operation → String
  | interfaceError => "interface"
  | clientStart | clientRequest | clientStatistics | clientFinish | clientError => "client"
  | serverStart | serverStop | serverTask | serverFinish | serverError => "server"

def Operation.operation : Operation → String
  | interfaceError | clientError | serverError => "error"
  | clientStart | serverStart => "start"
  | clientRequest => "request"
  | clientStatistics => "statistics"
  | clientFinish | serverFinish => "finish"
  | serverStop => "stop"
  | serverTask => "task"

/-- The arguments of a call of `log`, in the order in which its loop meets them. -/
structure Message where
  entries : List (Text × Text)
  nodup : (entries.map Prod.fst).Nodup

/-- `regex_replace` for an expression that matches one character. -/
def regexReplace (p : UInt8 → Bool) (replacement value : Text) : Text :=
  value.flatMap fun c => if p c then replacement else [c]

def escaped (value : Text) : Text :=
  regexReplace isspace [backslash, space]
    (regexReplace (· == backslash) [backslash, backslash] value)

def entry (e : Text × Text) : Text := space :: e.1 ++ equals :: escaped e.2

def header (o : Operation) (message : Message) : Text :=
  text o.host ++ text "-" ++ text o.operation ++ if message.entries ≠ [] then text ":" else []

def log (o : Operation) (message : Message) : Text :=
  header o message ++ message.entries.flatMap entry ++ [newline]

/-! ### The line format -/

/-- The keys have no whitespace, no backslash and no `=`. -/
def Message.Plain (message : Message) : Prop :=
  ∀ e ∈ message.entries, ∀ c ∈ e.1, isspace c = false ∧ c ≠ backslash ∧ c ≠ equals

/-- What is read from the line is the map that was written. -/
def GivesBack (o : Operation) (message : Message) : Prop :=
  ∃ command arguments, parse (tokenize (log o message)) = some (command, arguments) ∧
    ∀ key value, arguments key = some value ↔ (key, value) ∈ message.entries

/-- Every whitespace comes back as a space. -/
def blank (c : UInt8) : UInt8 := if isspace c then space else c

/-- A character that `tokenize` adds to the token as it is. -/
def Word (l : Text) : Prop := ∀ c ∈ l, isspace c = false ∧ c ≠ backslash

variable {tokens : List Text} {token key value l : Text} {o : Operation} {message : Message}
  {entries : List (Text × Text)}

theorem next_word {c : UInt8} (hc : isspace c = false ∧ c ≠ backslash) :
    Tokenizer.next ⟨tokens, token, false⟩ c = ⟨tokens, token ++ [c], false⟩ := by
  simp [Tokenizer.next, hc.1, hc.2]

theorem next_newline (h : token ≠ []) :
    Tokenizer.next ⟨tokens, token, false⟩ newline = ⟨tokens ++ [token], [], false⟩ := by
  have hspace : isspace newline = true := by decide
  have hne : newline ≠ backslash := by decide
  simp [Tokenizer.next, hspace, hne, h]

theorem next_space (h : token ≠ []) :
    Tokenizer.next ⟨tokens, token, false⟩ space = ⟨tokens ++ [token], [], false⟩ := by
  have hspace : isspace space = true := by decide
  have hne : space ≠ backslash := by decide
  simp [Tokenizer.next, hspace, hne, h]

theorem foldl_word (hl : Word l) :
    l.foldl Tokenizer.next ⟨tokens, token, false⟩ = ⟨tokens, token ++ l, false⟩ := by
  induction l generalizing token with
  | nil => rw [List.foldl_nil, List.append_nil]
  | cons c l ih =>
    obtain ⟨hc, hl⟩ := List.forall_mem_cons.mp hl
    rw [List.foldl_cons, next_word hc, ih hl, List.append_assoc]
    rfl

/-- The two replacements of one character. -/
def escapeChar (c : UInt8) : Text :=
  if c = backslash then [backslash, backslash] else if isspace c then [backslash, space] else [c]

theorem escaped_eq (value : Text) : escaped value = value.flatMap escapeChar := by
  rw [escaped, regexReplace, regexReplace, List.flatMap_assoc]
  refine List.flatMap_congr fun c _ => ?_
  by_cases hc : c = backslash
  · subst hc
    decide
  · simp [escapeChar, hc]

theorem foldl_escapeChar (c : UInt8) : (escapeChar c).foldl Tokenizer.next ⟨tokens, token, false⟩ =
    ⟨tokens, token ++ [blank c], false⟩ := by
  by_cases hc : c = backslash
  · have hspace : isspace backslash = false := by decide
    simp [escapeChar, blank, Tokenizer.next, hc, hspace]
  · by_cases hspace : isspace c = true
    · simp [escapeChar, blank, Tokenizer.next, hc, hspace]
    · simp [escapeChar, blank, Tokenizer.next, hc, hspace]

theorem foldl_escaped (value : Text) : (escaped value).foldl Tokenizer.next ⟨tokens, token, false⟩ =
    ⟨tokens, token ++ value.map blank, false⟩ := by
  rw [escaped_eq]
  induction value generalizing token with
  | nil => exact congrArg (Tokenizer.mk _ · _) (List.append_nil token).symm
  | cons c value ih =>
    rw [List.flatMap_cons, List.foldl_append, foldl_escapeChar, ih, List.append_assoc]
    rfl

/-- The token that an entry becomes. -/
def entryToken (e : Text × Text) : Text := e.1 ++ equals :: e.2.map blank

theorem entryToken_ne_nil (e : Text × Text) : entryToken e ≠ [] :=
  List.append_ne_nil_of_right_ne_nil _ (List.cons_ne_nil _ _)

theorem foldl_entry {e : Text × Text} (he : Word e.1) (h : token ≠ []) :
    (entry e).foldl Tokenizer.next ⟨tokens, token, false⟩ =
      ⟨tokens ++ [token], entryToken e, false⟩ := by
  have hequals : isspace equals = false ∧ equals ≠ backslash := by decide
  rw [entry, List.cons_append, List.foldl_cons, next_space h, List.foldl_append, foldl_word he,
    List.foldl_cons, next_word hequals, foldl_escaped, List.nil_append, List.append_assoc]
  rfl

/-- A line of entries behind a token. -/
theorem foldl_entries (he : ∀ e ∈ entries, Word e.1) (h : token ≠ []) :
    (entries.flatMap entry ++ [newline]).foldl Tokenizer.next ⟨tokens, token, false⟩ =
      ⟨tokens ++ token :: entries.map entryToken, [], false⟩ := by
  induction entries generalizing tokens token with
  | nil => exact next_newline h
  | cons e entries ih =>
    obtain ⟨he, hrest⟩ := List.forall_mem_cons.mp he
    rw [List.flatMap_cons, List.append_assoc, List.foldl_append, foldl_entry he h,
      ih hrest (entryToken_ne_nil e), List.append_assoc]
    rfl

theorem word_of_all (h : (l.all fun c => !isspace c && c != backslash) = true) : Word l := by
  intro c hc
  simpa using List.all_eq_true.mp h c hc

theorem word_header (o : Operation) (message : Message) : Word (header o message) := by
  have hcolon : Word (text ":") := word_of_all (by decide)
  have hname : Word (text o.host ++ text "-" ++ text o.operation) := by
    apply word_of_all
    cases o <;> decide
  intro c hc
  rcases List.mem_append.mp hc with hc | hc
  · exact hname c hc
  · split at hc
    · exact hcolon c hc
    · exact absurd hc List.not_mem_nil

theorem header_ne_nil (o : Operation) (message : Message) : header o message ≠ [] := by
  have hname : text o.host ++ text "-" ++ text o.operation ≠ [] := by
    cases o <;> decide
  exact List.append_ne_nil_of_left_ne_nil hname _

theorem tokenize_log (h : message.Plain) :
    tokenize (log o message) = header o message :: message.entries.map entryToken := by
  have hkeys : ∀ e ∈ message.entries, Word e.1 :=
    fun e he c hc => ⟨(h e he c hc).1, (h e he c hc).2.1⟩
  have hrun : (log o message).foldl Tokenizer.next ⟨[], [], false⟩ =
      ⟨header o message :: message.entries.map entryToken, [], false⟩ := by
    rw [log, List.append_assoc, List.foldl_append, foldl_word (word_header o message),
      List.nil_append, foldl_entries hkeys (header_ne_nil o message)]
    rfl
  simp only [tokenize, hrun, ne_eq, not_true_eq_false, if_false]

theorem idxOf_equals (h : equals ∉ key) (rest : Text) :
    (key ++ equals :: rest).idxOf? equals = some key.length := by
  induction key with
  | nil => rfl
  | cons c key ih =>
    obtain ⟨hc, hkey⟩ := not_or.mp (mt List.mem_cons.mpr h)
    rw [List.cons_append, List.idxOf?_cons, if_neg (by simpa using Ne.symm hc), ih hkey]
    rfl

theorem assign_entryToken {e : Text × Text} (he : equals ∉ e.1) (arguments : ArgumentsType) :
    assign arguments (entryToken e) = Function.update arguments e.1 (some (e.2.map blank)) := by
  rw [assign, entryToken, idxOf_equals he]
  dsimp only
  rw [List.take_left, List.append_cons, List.drop_left' (by simp)]

/-- With distinct keys every entry is the last of its key. -/
theorem foldl_assign (hkeys : ∀ e ∈ entries, equals ∉ e.1) (hnodup : (entries.map Prod.fst).Nodup)
    (arguments : ArgumentsType) : (entries.map entryToken).foldl assign arguments key = some value ↔
      (∃ written, (key, written) ∈ entries ∧ written.map blank = value) ∨
        key ∉ entries.map Prod.fst ∧ arguments key = some value := by
  induction entries generalizing arguments with
  | nil => simp
  | cons e entries ih =>
    obtain ⟨he, hkeys⟩ := List.forall_mem_cons.mp hkeys
    rw [List.map_cons, List.nodup_cons] at hnodup
    rw [List.map_cons, List.foldl_cons, assign_entryToken he, ih hkeys hnodup.2, List.map_cons,
      List.mem_cons]
    by_cases hkey : key = e.1
    · subst hkey
      have hnone : ∀ written, (e.1, written) ∉ entries :=
        fun written hmem => hnodup.1 (List.mem_map.mpr ⟨_, hmem, rfl⟩)
      simp [hnone, hnodup.1, Prod.ext_iff]
    · rw [Function.update_of_ne hkey]
      simp [hkey, Prod.ext_iff]

theorem parse_log (h : message.Plain) : ∃ arguments,
    parse (tokenize (log o message)) = some (header o message, arguments) ∧
      ∀ key value, arguments key = some value ↔
        ∃ written, (key, written) ∈ message.entries ∧ written.map blank = value := by
  refine ⟨_, by rw [tokenize_log h, parse], fun key value => ?_⟩
  rw [foldl_assign (fun e he hmem => (h e he _ hmem).2.2 rfl) message.nodup]
  simp

theorem map_blank_eq_self : value.map blank = value ↔ ∀ c ∈ value, isspace c → c = space := by
  have hmap : value.map blank = value ↔ ∀ c ∈ value, blank c = c := by
    conv_lhs => rhs; rw [← List.map_id value]
    exact List.map_inj_left
  rw [hmap]
  refine forall₂_congr fun c _ => ?_
  rw [blank]
  split
  · rename_i hc
    exact ⟨fun h _ => h.symm, fun h => (h hc).symm⟩
  · rename_i hc
    exact ⟨fun _ h => absurd h hc, fun _ => rfl⟩

theorem GivesBack.spaces (hback : GivesBack o message) (h : message.Plain) :
    ∀ e ∈ message.entries, ∀ c ∈ e.2, isspace c → c = space := by
  obtain ⟨arguments, hparse, hread⟩ := parse_log (o := o) h
  obtain ⟨command, arguments', hparse', hsame⟩ := hback
  obtain ⟨rfl, rfl⟩ : header o message = command ∧ arguments = arguments' := by
    simpa using hparse.symm.trans hparse'
  intro e he
  have hmem := (hsame e.1 (e.2.map blank)).mp ((hread _ _).mpr ⟨e.2, he, rfl⟩)
  exact map_blank_eq_self.mp
    (congrArg Prod.snd (List.inj_on_of_nodup_map message.nodup hmem he rfl))

/-- The line gives the arguments back exactly when no value has a whitespace other than the
space. -/
theorem givesBack_iff (o : Operation) (h : message.Plain) : GivesBack o message ↔
    ∀ e ∈ message.entries, ∀ c ∈ e.2, isspace c → c = space := by
  refine ⟨fun hback => hback.spaces h, fun hspaces => ?_⟩
  obtain ⟨arguments, hparse, hread⟩ := parse_log (o := o) h
  refine ⟨_, _, hparse, fun key value => ?_⟩
  rw [hread]
  constructor
  · rintro ⟨written, hmem, rfl⟩
    rwa [map_blank_eq_self.mpr (hspaces _ hmem)]
  · exact fun hmem => ⟨value, hmem, map_blank_eq_self.mpr (hspaces _ hmem)⟩

/-- An error that is reported with a tab in it. -/
def tabbed : Message := ⟨[(text "reason", text "a\tb")], by simp⟩

theorem tabbed_plain : tabbed.Plain := by
  intro e he c hc
  obtain rfl := List.mem_singleton.mp he
  have hall : ((text "reason").all fun c =>
      !isspace c && c != backslash && c != equals) = true := by decide
  simpa [and_assoc] using List.all_eq_true.mp hall c hc

theorem givesBack_iff_tabbed : GivesBack .clientError tabbed ↔
    ∀ e ∈ tabbed.entries, ∀ c ∈ e.2, isspace c → c = space :=
  givesBack_iff .clientError tabbed_plain

theorem not_givesBack_tabbed : ¬∀ (o : Operation) (message : Message), message.Plain →
    GivesBack o message := by
  intro hall
  have hspaces := (hall .clientError tabbed tabbed_plain).spaces tabbed_plain
  have htab := hspaces _ (List.mem_singleton.mpr rfl) 9 (by decide) (by decide)
  exact absurd htab (by decide)

end Course.Rdt.Interface
