import Course.Lib.Text
import Course.Os.OshHistory
import Mathlib.Algebra.Order.Ring.Int
import Mathlib.Data.List.DropRight

/-! The `history` command of the shell, which prints the history file. -/

open Course.Lib

namespace Course.Os.Osh

/-! ### The C library -/

/-- A value that is kept in an `int`. -/
def int (n : ℤ) : Option ℤ := if -2 ^ 31 ≤ n ∧ n < 2 ^ 31 then some n else none

def isSpace (c : Char) : Bool := c ∈ [' ', '\t', '\n', '\x0b', '\x0c', '\r']

/-- The digits in front, behind white space and a sign; `none` when they are out of range. -/
def atoi (s : Line) : Option ℤ :=
  let value (s : Line) : ℤ := Nat.ofDigitChars 10 (s.takeWhile Char.isDigit) 0
  match s.dropWhile isSpace with
  | '-' :: s => int (-value s)
  | '+' :: s => int (value s)
  | s => int (value s)

/-- `printf("    %d  %s", n, line)`. -/
def entry (n : ℤ) (line : Line) : Line :=
  "    ".toList ++ Text.str n ++ "  ".toList ++ cString line

/-! ### The file -/

theorem getLine_length (n : ℕ) (s : List Char) :
    (getLine n s).1.length + (getLine n s).2.length = s.length := by
  induction n generalizing s with
  | zero => simp [getLine]
  | succ n ih =>
    cases s with
    | nil => simp [getLine]
    | cons c s =>
      have h := ih s
      by_cases hc : c = '\n'
      · simp [getLine, hc, Nat.add_comm]
      · simp only [getLine, if_neg hc, List.length_cons]
        omega

/-- Every line has a character. -/
theorem fgets_length {file line rest : List Char} (h : fgets BUFFER_SIZE file = some (line, rest)) :
    rest.length < file.length := by
  rw [fgets] at h
  split at h
  · cases h
  next hne =>
    obtain ⟨c, s, rfl⟩ := List.exists_cons_of_ne_nil hne
    have hlen := getLine_length (BUFFER_SIZE - 1) (c :: s)
    have hpos : 0 < (getLine (BUFFER_SIZE - 1) (c :: s)).1.length := by
      rw [show BUFFER_SIZE - 1 = 2046 + 1 from rfl, getLine]
      split <;> simp
    rw [Option.some.inj h] at hlen hpos
    dsimp only at hlen hpos
    omega

/-! ### The command -/

/-- `while (fgets(line, BUFFER_SIZE, file) != NULL) ++n`. -/
def countLines (file : List Char) (n : ℤ) : Option ℤ :=
  match h : fgets BUFFER_SIZE file with
  | none => some n
  | some (_, rest) => (int (n + 1)).bind fun n => countLines rest n
termination_by file.length
decreasing_by exact fgets_length h

/-- `for (i = 1; i <= last; ++i)`, with an `fgets` that fails only at the end of the file;
the value of `i` after it, and what is left of the file. -/
def skipLines (last i : ℤ) (file : List Char) : Option (ℤ × List Char) :=
  if i ≤ last then
    let rest := match fgets BUFFER_SIZE file with
      | none => file
      | some (_, rest) => rest
    if i + 1 < 2 ^ 31 then skipLines last (i + 1) rest else none
  else some (i, file)
termination_by (last + 1 - i).toNat

/-- The loops that print: `number` is what they print of `i`. -/
def printLines (number : ℤ → Option ℤ) (file : List Char) (i : ℤ) : Option (List Line) :=
  match h : fgets BUFFER_SIZE file with
  | none => some []
  | some (line, rest) => do
    let n ← number i
    let i ← int (i + 1)
    let lines ← printLines number rest i
    some (entry n line :: lines)
termination_by file.length
decreasing_by exact fgets_length h

/-- The branch for a number: the last `outputN` lines. -/
def lastLines (outputN : ℤ) (file : List Char) : Option (List Line) :=
  (countLines file 0).bind fun n =>
  (int (n - outputN)).bind fun last =>
  (skipLines last 1 file).bind fun skipped =>
  printLines (fun i => int (i - 1)) skipped.2 skipped.1

/-- What is printed, and the file after it. -/
def history (argv : List Line) (file : List Char) : Option (List Line × List Char) :=
  match argv with
  | [_] => (printLines some file 1).map fun lines => (lines, file)
  | [_, arg] =>
    if arg = ['-', 'c'] then some ([], [])
    else
      (atoi arg).bind fun outputN => (lastLines outputN file).map fun lines => (lines, file)
  | _ => some (["history: too many arguments\n".toList], file)

/-! ### What the loops read -/

/-- The lines that `fgets` gets out of the file. -/
inductive Reads : List Char → List Line → Prop
  | nil : Reads [] []
  | cons {file rest : List Char} {b : Line} {bs : List Line} :
    fgets BUFFER_SIZE file = some (b, rest) → Reads rest bs → Reads file (b :: bs)

/-- The entries from the number `n` on. -/
def entries (n : ℤ) : List Line → List Line
  | [] => []
  | b :: bs => entry n b :: entries (n + 1) bs

variable {file : List Char} {ls bs : List Line} {n i last : ℤ} {k : ℕ}

theorem Streams.reads (h : Streams ls file) : ∃ bs, Reads file bs ∧ bs.length = ls.length := by
  induction ls generalizing file with
  | nil =>
    obtain rfl := h.eq_nil
    exact ⟨[], .nil, rfl⟩
  | cons l ls ih =>
    obtain ⟨-, -, b, rest, hfgets, hrest, -⟩ := h.fgets
    obtain ⟨bs, hbs, hlen⟩ := ih hrest
    exact ⟨b :: bs, .cons hfgets hbs, congrArg (· + 1) hlen⟩

theorem fgets_nil : fgets BUFFER_SIZE [] = none := rfl

@[simp] theorem length_entries (n : ℤ) (bs : List Line) : (entries n bs).length = bs.length := by
  induction bs generalizing n with
  | nil => rfl
  | cons b bs ih => simp [entries, ih]

theorem drop_entries (n : ℤ) (bs : List Line) (m : ℕ) :
    (entries n bs).drop m = entries (n + m) (bs.drop m) := by
  induction m generalizing n bs with
  | zero => simp
  | succ m ih =>
    cases bs with
    | nil => rfl
    | cons b bs =>
      have hnext : n + 1 + (m : ℤ) = n + (m + 1 : ℕ) := by omega
      rw [entries, List.drop_succ_cons, List.drop_succ_cons, ih, hnext]

/-- An entry shows its number. -/
theorem entry_inj {m n : ℤ} {b : Line} : entry m b = entry n b ↔ m = n := by
  constructor
  · intro h
    have h : "    ".toList ++ Text.str m ++ "  ".toList ++ cString b =
        "    ".toList ++ Text.str n ++ "  ".toList ++ cString b := h
    rw [List.append_cancel_right_eq, List.append_cancel_right_eq, List.append_cancel_left_eq] at h
    exact Option.some.inj (by rw [← Text.int_str m, h, Text.int_str])
  · rintro rfl
    rfl

theorem int_eq (h : 0 ≤ n) (hn : n < 2 ^ 31) : int n = some n := if_pos ⟨by omega, hn⟩

theorem int_overflow (hn : 2 ^ 31 ≤ n) : int n = none := if_neg fun h => by omega

theorem countLines_eq (h : Reads file bs) (hn : 0 ≤ n) (hlt : n < 2 ^ 31) :
    countLines file n = int (n + bs.length) := by
  induction h generalizing n with
  | nil => simp [countLines, fgets_nil, int_eq hn hlt]
  | @cons file rest b bs hfgets _ ih =>
    rw [countLines]
    split
    next hnone => cases hfgets.symm.trans hnone
    next b' rest' hsome =>
      cases hfgets.symm.trans hsome
      by_cases hnext : n + 1 < 2 ^ 31
      · rw [int_eq (by omega) hnext, Option.bind_some, ih (by omega) hnext, List.length_cons]
        congr 1
        omega
      · rw [int_overflow (by omega), int_overflow (by rw [List.length_cons]; omega)]
        rfl

theorem skipLines_eq (h : Reads file bs) (hi : i ≤ last + 1) (hlast : last + 1 < 2 ^ 31)
    (hlen : last + 1 - i ≤ bs.length) :
    ∃ rest, skipLines last i file = some (last + 1, rest) ∧
      Reads rest (bs.drop (last + 1 - i).toNat) := by
  induction h generalizing i with
  | nil =>
    obtain rfl : i = last + 1 := by simp only [List.length_nil] at hlen; omega
    refine ⟨[], ?_, ?_⟩
    · rw [skipLines, if_neg (by omega)]
    · simpa using Reads.nil
  | @cons file rest b bs hfgets hrest ih =>
    by_cases hle : i ≤ last
    · rw [List.length_cons] at hlen
      obtain ⟨rest', hskip, hreads⟩ := ih (i := i + 1) (by omega) (by omega)
      refine ⟨rest', ?_, ?_⟩
      · rw [skipLines, if_pos hle]
        simp only [hfgets]
        rw [if_pos (by omega), hskip]
      · have hstep : (last + 1 - i).toNat = (last + 1 - (i + 1)).toNat + 1 := by omega
        rwa [hstep, List.drop_succ_cons]
    · obtain rfl : i = last + 1 := by omega
      refine ⟨file, ?_, ?_⟩
      · rw [skipLines, if_neg hle]
      · simpa using hrest.cons hfgets

theorem skipLines_overflow (hi : i ≤ last) (hlast : 2 ^ 31 ≤ last + 1) :
    skipLines last i file = none := by
  induction hm : (last - i).toNat generalizing i file with
  | zero =>
    rw [skipLines, if_pos hi]
    exact if_neg (by omega)
  | succ m ih =>
    rw [skipLines, if_pos hi]
    dsimp only
    split
    · exact ih (by omega) (by omega)
    · rfl

/-- Nothing is skipped when all lines are asked for. -/
theorem skipLines_none (hi : last < i) : skipLines last i file = some (i, file) := by
  rw [skipLines, if_neg (by omega)]

theorem printLines_eq {number : ℤ → Option ℤ} {d : ℤ} (h : Reads file bs) (hi : 0 ≤ i)
    (hlt : i < 2 ^ 31) (hnumber : ∀ j, i ≤ j → j < 2 ^ 31 → number j = some (j - d)) :
    printLines number file i =
      if i + bs.length < 2 ^ 31 then some (entries (i - d) bs) else none := by
  induction h generalizing i with
  | nil =>
    rw [if_pos (by simpa using hlt)]
    simp [printLines, fgets_nil, entries]
  | @cons file rest b bs hfgets _ ih =>
    have hlength : i + (b :: bs).length = i + 1 + bs.length := by
      rw [List.length_cons]
      omega
    rw [printLines]
    split
    next hnone => cases hfgets.symm.trans hnone
    next b' rest' hsome =>
      cases hfgets.symm.trans hsome
      rw [hnumber i (Int.le_refl i) hlt, hlength]
      by_cases hnext : i + 1 < 2 ^ 31
      · have hrest := ih (by omega) hnext fun j hj => hnumber j (by omega)
        have hnumbers : i + 1 - d = i - d + 1 := by omega
        rw [int_eq (by omega) hnext]
        simp only [Option.bind_eq_bind, Option.bind_some, hrest, entries, hnumbers]
        split <;> rfl
      · rw [int_overflow (by omega), if_neg (by omega)]
        rfl

/-! ### The number of entries -/

/-- The number as it is typed. -/
def decimal (k : ℕ) : Line := Text.str k

theorem decimal_digits (hc : c ∈ decimal k) : c.isDigit :=
  Nat.isDigit_of_mem_toDigits (by decide) (by decide) hc

theorem atoi_decimal (k : ℕ) : atoi (decimal k) = int k := by
  have hdigits : (decimal k).takeWhile Char.isDigit = decimal k :=
    List.takeWhile_eq_self_iff.mpr fun c hc => decimal_digits hc
  have hvalue : Nat.ofDigitChars 10 (decimal k) 0 = k := Nat.ofDigitChars_ten_toDigits
  obtain ⟨c, s, hcons⟩ := List.exists_cons_of_ne_nil (show decimal k ≠ [] from Nat.toDigits_ne_nil)
  have hc : c.isDigit := decimal_digits (k := k) (by simp [hcons])
  have hspace : (decimal k).dropWhile isSpace = c :: s := by
    rw [hcons, List.dropWhile_cons_of_neg]
    intro hs
    simp only [isSpace, decide_eq_true_eq, List.mem_cons, List.not_mem_nil, or_false] at hs
    rcases hs with rfl | rfl | rfl | rfl | rfl | rfl <;> cases hc
  rw [atoi, hspace]
  split
  next heq =>
    obtain rfl := (List.cons_eq_cons.mp heq).1
    cases hc
  next heq =>
    obtain rfl := (List.cons_eq_cons.mp heq).1
    cases hc
  next =>
    simp only [← hcons, hdigits, hvalue]

theorem decimal_ne_clear (k : ℕ) : decimal k ≠ ['-', 'c'] := by
  intro h
  have hc : Char.isDigit '-' := decimal_digits (k := k) (by simp [h])
  cases hc

/-! ### Both forms of the command -/

def name : Line := "history".toList

theorem history_all (h : Reads file bs) :
    history [name] file =
      if (bs.length : ℤ) + 1 < 2 ^ 31 then some (entries 1 bs, file) else none := by
  have hprint := printLines_eq (d := 0) h (show (0 : ℤ) ≤ 1 by omega) (by omega) fun j _ _ => by
    rw [Int.sub_zero]
  rw [history, hprint, Int.add_comm]
  split <;> rfl

/-- The numbers of the entries that are left start from 0. -/
theorem lastLines_eq (h : Reads file bs) (hk : (k : ℤ) < 2 ^ 31) :
    lastLines k file =
      if (bs.length : ℤ) + 1 < 2 ^ 31 then some ((entries 0 bs).rtake k) else none := by
  have hnumber : ∀ j : ℤ, 1 ≤ j → j < 2 ^ 31 → int (j - 1) = some (j - 1) := fun j hj hlt =>
    int_eq (by omega) (by omega)
  rw [lastLines, countLines_eq h (Int.le_refl 0) (by omega), Int.zero_add]
  by_cases hlen : (bs.length : ℤ) < 2 ^ 31
  · have hdiff : int ((bs.length : ℤ) - k) = some ((bs.length : ℤ) - k) :=
      if_pos ⟨by omega, by omega⟩
    rw [int_eq (by omega) hlen, Option.bind_some, hdiff, Option.bind_some]
    by_cases hle : k ≤ bs.length
    · by_cases hlast : (bs.length : ℤ) - k + 1 < 2 ^ 31
      · obtain ⟨rest, hskip, hrest⟩ := skipLines_eq (i := 1) h (by omega) hlast (by omega)
        have hdrop : ((bs.length : ℤ) - k + 1 - 1).toNat = bs.length - k := by omega
        rw [hdrop] at hrest
        have hprint := printLines_eq hrest (show (0 : ℤ) ≤ bs.length - k + 1 by omega) hlast
          fun j hj hlt => hnumber j (by omega) hlt
        have hcount : (bs.length : ℤ) - k + 1 + (bs.drop (bs.length - k)).length =
            bs.length + 1 := by
          rw [List.length_drop]
          omega
        have hstart : (bs.length : ℤ) - k + 1 - 1 = 0 + (bs.length - k : ℕ) := by omega
        rw [hskip, Option.bind_some, hprint, hcount, hstart, List.rtake, length_entries,
          drop_entries]
      · rw [skipLines_overflow (by omega) (by omega), if_neg (by omega)]
        rfl
    · have hprint := printLines_eq h (show (0 : ℤ) ≤ 1 by omega) (by omega) hnumber
      have hall : (entries 0 bs).rtake k = entries 0 bs := by
        rw [List.rtake, length_entries, Nat.sub_eq_zero_of_le (by omega), List.drop_zero]
      rw [skipLines_none (by omega), Option.bind_some, hprint, hall, Int.add_comm]
      rfl
  · rw [int_overflow (by omega), if_neg (by omega)]
    rfl

theorem history_last (h : Reads file bs) (hk : (k : ℤ) < 2 ^ 31) :
    history [name, decimal k] file =
      if (bs.length : ℤ) + 1 < 2 ^ 31 then some ((entries 0 bs).rtake k, file) else none := by
  rw [history, if_neg (decimal_ne_clear k), atoi_decimal, int_eq (by omega) hk, Option.bind_some,
    lastLines_eq h hk]
  split <;> rfl

theorem history_overflow (hk : 2 ^ 31 ≤ (k : ℤ)) : history [name, decimal k] file = none := by
  rw [history, if_neg (decimal_ne_clear k), atoi_decimal, int_overflow hk]
  rfl

theorem entries_inj {m n : ℤ} : entries m bs = entries n bs ↔ m = n ∨ bs = [] := by
  cases bs with
  | nil => simp [entries]
  | cons b bs =>
    refine ⟨fun h => .inl (entry_inj.mp (List.cons_eq_cons.mp h).1), fun h => ?_⟩
    rw [h.resolve_right (by simp)]

theorem rtake_entries (n : ℤ) (bs : List Line) (k : ℕ) :
    (entries n bs).rtake k = entries (n + (bs.length - k : ℕ)) (bs.rtake k) := by
  rw [List.rtake, length_entries, drop_entries, List.rtake]

/-- `history k` prints the last `k` of the lines that `history` prints, or all of them. -/
def ListsLast (file : List Char) (k : ℕ) : Prop :=
  ∃ lines, history [name] file = some (lines, file) ∧
    history [name, decimal k] file = some (lines.rtake k, file)

/-- They are the same lines only if there are none, since their numbers are not. -/
theorem listsLast_iff (x : Input) (k : ℕ) : ListsLast x.stream k ↔
    (k = 0 ∨ x.texts = []) ∧ (x.texts.length : ℤ) + 1 < 2 ^ 31 ∧ (k : ℤ) < 2 ^ 31 := by
  obtain ⟨bs, hreads, hlen⟩ := x.streams.reads
  have hempty : bs.rtake k = [] ↔ k = 0 ∨ x.texts = [] := by
    rw [List.rtake, List.drop_eq_nil_iff, ← List.length_eq_zero_iff, ← hlen]
    omega
  rw [← hempty, ← hlen, ListsLast, history_all hreads]
  constructor
  · rintro ⟨lines, hall, hlast⟩
    by_cases hk : (k : ℤ) < 2 ^ 31
    · rw [history_last hreads hk] at hlast
      by_cases hfits : (bs.length : ℤ) + 1 < 2 ^ 31
      · rw [if_pos hfits] at hall hlast
        obtain rfl := (Prod.mk.inj (Option.some.inj hall)).1
        have hsame := (Prod.mk.inj (Option.some.inj hlast)).1
        rw [rtake_entries, rtake_entries, entries_inj] at hsame
        exact ⟨hsame.resolve_left (by omega), hfits, hk⟩
      · rw [if_neg hfits] at hall
        cases hall
    · rw [history_overflow (by omega)] at hlast
      cases hlast
  · rintro ⟨hnil, hfits, hk⟩
    refine ⟨entries 1 bs, if_pos hfits, ?_⟩
    rw [history_last hreads hk, if_pos hfits, rtake_entries, rtake_entries, hnil]
    rfl

/-- A file of one line. -/
theorem not_listsLast_listing : ¬∀ (x : Input) (k : ℕ), ListsLast x.stream k := by
  intro h
  obtain ⟨lines, hall, hlast⟩ := h listing 1
  have hreads : Reads listing.stream [['l', 's', '\n']] := .cons rfl .nil
  rw [history_all hreads] at hall
  rw [history_last hreads (by decide)] at hlast
  obtain rfl := (Prod.mk.inj (Option.some.inj hall)).1
  have hsame := (Prod.mk.inj (Option.some.inj hlast)).1
  rw [rtake_entries, rtake_entries, entries_inj] at hsame
  rcases hsame with hnumber | hnil
  · cases hnumber
  · cases hnil

end Course.Os.Osh
