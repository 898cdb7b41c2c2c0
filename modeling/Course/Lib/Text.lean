import Mathlib.Data.Int.Notation
import Mathlib.Data.List.DropRight

/-! Text as Python reads and writes it: decimal numbers, and lines with fields between
commas. -/

namespace Course.Lib.Text

/-! ### Blanks -/

/-- The characters that are white space in Unicode. -/
def isSpace (c : Char) : Bool :=
  let n := c.toNat
  9 ≤ n && n ≤ 13 || 28 ≤ n && n ≤ 32 || n == 0x85 || n == 0xa0 || n == 0x1680 ||
    0x2000 ≤ n && n ≤ 0x200a || n == 0x2028 || n == 0x2029 || n == 0x202f || n == 0x205f ||
    n == 0x3000

def strip (l : List Char) : List Char := (l.dropWhile isSpace).rdropWhile isSpace

theorem dropWhile_append {l : List Char} (hl : ∀ c ∈ l, isSpace c = false) (hne : l ≠ [])
    (t : List Char) : (l ++ t).dropWhile isSpace = l ++ t := by
  obtain ⟨c, l, rfl⟩ := List.exists_cons_of_ne_nil hne
  exact List.dropWhile_cons_of_neg (by simp [hl c List.mem_cons_self])

theorem rdropWhile_eq_self {l : List Char} (hl : ∀ c ∈ l, isSpace c = false) :
    l.rdropWhile isSpace = l := by
  rw [List.rdropWhile_eq_self_iff]
  exact fun hne => Bool.eq_false_iff.mp (hl _ (List.getLast_mem hne))

theorem strip_eq_self {l : List Char} (hl : ∀ c ∈ l, isSpace c = false) : strip l = l := by
  by_cases hne : l = []
  · rw [hne]
    rfl
  · have hdrop := dropWhile_append hl hne []
    rw [List.append_nil] at hdrop
    rw [strip, hdrop, rdropWhile_eq_self hl]

theorem strip_newline {l : List Char} (hl : ∀ c ∈ l, isSpace c = false) :
    strip (l ++ ['\n']) = l := by
  by_cases hne : l = []
  · rw [hne]
    rfl
  · rw [strip, dropWhile_append hl hne, List.rdropWhile_concat_pos _ _ _ (by rfl),
      rdropWhile_eq_self hl]

/-! ### Numbers -/

def str : ℤ → List Char
  | .ofNat n => Nat.toDigits 10 n
  | .negSucc n => '-' :: Nat.toDigits 10 (n + 1)

theorem mem_str {n : ℤ} {c : Char} (hc : c ∈ str n) : c = '-' ∨ c.isDigit = true := by
  cases n with
  | ofNat n => exact .inr (Nat.isDigit_of_mem_toDigits (by decide) (by decide) hc)
  | negSucc n =>
    rcases List.mem_cons.mp hc with rfl | hc
    · exact .inl rfl
    · exact .inr (Nat.isDigit_of_mem_toDigits (by decide) (by decide) hc)

theorem isSpace_of_mem_str {n : ℤ} {c : Char} (hc : c ∈ str n) : isSpace c = false := by
  rcases mem_str hc with rfl | hdigit
  · rfl
  · have hdigit : 48 ≤ c.toNat ∧ c.toNat ≤ 57 := by
      simpa [Char.isDigit, UInt32.le_iff_toNat_le] using hdigit
    simp only [isSpace]
    grind

theorem comma_notMem_str (n : ℤ) : ',' ∉ str n := by
  intro hmem
  rcases mem_str hmem with heq | hdigit
  · exact absurd heq (by decide)
  · exact absurd hdigit (by decide)

/-- The digits, in groups between underscores. -/
def natural (l : List Char) : Option ℕ :=
  if (l.splitOn '_').all fun digits => digits ≠ [] ∧ digits.all Char.isDigit then
    some (Nat.ofDigitChars 10 (l.filter (· ≠ '_')) 0)
  else none

theorem natural_toDigits (n : ℕ) : natural (Nat.toDigits 10 n) = some n := by
  have hdigit : ∀ c ∈ Nat.toDigits 10 n, c.isDigit = true := fun c hc =>
    Nat.isDigit_of_mem_toDigits (by decide) (by decide) hc
  have hne : ∀ c ∈ Nat.toDigits 10 n, c ≠ '_' := by
    rintro c hc rfl
    exact absurd (hdigit _ hc) (by decide)
  have hfilter : (Nat.toDigits 10 n).filter (· ≠ '_') = Nat.toDigits 10 n :=
    List.filter_eq_self.mpr fun c hc => decide_eq_true (hne c hc)
  have hsplit : (Nat.toDigits 10 n).splitOn '_' = [Nat.toDigits 10 n] :=
    List.splitOn_eq_singleton fun hmem => hne _ hmem rfl
  rw [natural, hsplit, hfilter, Nat.ofDigitChars_ten_toDigits, if_pos]
  simpa [Nat.toDigits_ne_nil] using hdigit

/-- The number with this sign and these digits, which are ASCII. -/
def int (l : List Char) : Option ℤ :=
  match strip l with
  | '-' :: l => (natural l).map fun n => -n
  | '+' :: l => (natural l).map Int.ofNat
  | l => (natural l).map Int.ofNat

theorem int_str (n : ℤ) : int (str n) = some n := by
  rw [int, strip_eq_self fun c hc => isSpace_of_mem_str hc]
  cases n with
  | ofNat n =>
    have hdigit : ∀ c l, Nat.toDigits 10 n = c :: l → c.isDigit = true := fun c l hl =>
      Nat.isDigit_of_mem_toDigits (by decide) (by decide) (hl ▸ List.mem_cons_self)
    rw [str]
    split
    next l hl => exact absurd (hdigit _ _ hl) (by decide)
    next l hl => exact absurd (hdigit _ _ hl) (by decide)
    next => simp [natural_toDigits]
  | negSucc n =>
    simp only [str, natural_toDigits]
    rfl

/-! ### Lines -/

/-- The lines of a text with their newlines, `cur` the beginning of the first. -/
def lines (cur : List Char) : List Char → List (List Char)
  | [] => if cur = [] then [] else [cur]
  | c :: s => if c = '\n' then (cur ++ ['\n']) :: lines [] s else lines (cur ++ [c]) s

def readlines (text : List Char) : List (List Char) := lines [] text

theorem lines_newline {l : List Char} (hl : '\n' ∉ l) (cur s : List Char) :
    lines cur (l ++ '\n' :: s) = (cur ++ l ++ ['\n']) :: lines [] s := by
  induction l generalizing cur with
  | nil => simp [lines]
  | cons c l ih =>
    obtain ⟨hc, hl⟩ := List.ne_and_not_mem_of_not_mem_cons hl
    rw [List.cons_append, lines, if_neg (Ne.symm hc), ih hl, List.append_assoc cur]
    rfl

/-- The text with these lines. -/
def unlines (ls : List (List Char)) : List Char := ls.flatMap (· ++ ['\n'])

theorem readlines_unlines {ls : List (List Char)} (h : ∀ l ∈ ls, '\n' ∉ l) :
    readlines (unlines ls) = ls.map (· ++ ['\n']) := by
  induction ls with
  | nil => rfl
  | cons l ls ih =>
    obtain ⟨hl, hls⟩ := List.forall_mem_cons.mp h
    rw [unlines, List.flatMap_cons, List.append_assoc, List.singleton_append, readlines,
      lines_newline hl, ← readlines, ← unlines, ih hls]
    rfl

/-! ### Fields -/

def fields (l : List Char) : List (List Char) := l.splitOn ','

def record (fs : List (List Char)) : List Char := [','].intercalate fs

/-- A cell keeps its place in a line: it has no commas and no white space. -/
structure Cell (f : List Char) : Prop where
  comma : ',' ∉ f
  space : ∀ c ∈ f, isSpace c = false

theorem cell_of_all {f : List Char} (h : (f.all fun c => c != ',' && !isSpace c) = true) :
    Cell f := by
  rw [List.all_eq_true] at h
  refine ⟨fun hc => absurd (h _ hc) (by decide), fun c hc => ?_⟩
  simpa using (Bool.and_eq_true_iff.mp (h c hc)).2

theorem cell_str (n : ℤ) : Cell (str n) where
  comma := comma_notMem_str n
  space _ hc := isSpace_of_mem_str hc

theorem record_cons (f g : List Char) (fs : List (List Char)) :
    record (f :: g :: fs) = f ++ ',' :: record (g :: fs) := by
  simp [record, List.intercalate_cons_cons]

/-- What holds of commas and of the fields holds of the record. -/
theorem forall_mem_record {p : Char → Prop} {fs : List (List Char)} (hcomma : p ',')
    (h : ∀ f ∈ fs, ∀ c ∈ f, p c) : ∀ c ∈ record fs, p c := by
  induction fs with
  | nil => simp [record]
  | cons f fs ih =>
    obtain ⟨hf, hfs⟩ := List.forall_mem_cons.mp h
    cases fs with
    | nil => simpa [record] using hf
    | cons g fs =>
      rw [record_cons]
      intro c hc
      rcases List.mem_append.mp hc with hc | hc
      · exact hf c hc
      · rcases List.mem_cons.mp hc with rfl | hc
        · exact hcomma
        · exact ih hfs c hc

/-- A text without commas that a record begins with lies in its first field. -/
theorem prefix_of_prefix_record {p f g t : List Char} {fs : List (List Char)} (hp : ',' ∉ p)
    (h : p <+: record (f :: g :: fs) ++ t) : p <+: f := by
  rw [record_cons, List.append_assoc] at h
  induction p generalizing f with
  | nil => exact List.nil_prefix
  | cons c p ih =>
    obtain ⟨hc, hp⟩ := List.ne_and_not_mem_of_not_mem_cons hp
    cases f with
    | nil =>
      obtain ⟨rfl, -⟩ := List.cons_prefix_cons.mp h
      exact absurd rfl hc
    | cons x f =>
      rw [List.cons_append] at h
      obtain ⟨rfl, hrest⟩ := List.cons_prefix_cons.mp h
      exact List.cons_prefix_cons.mpr ⟨rfl, ih hp hrest⟩

theorem cell_of_mem_numbers {f g : List Char} {ns : List ℤ} (hf : Cell f)
    (hg : g ∈ f :: ns.map str) : Cell g := by
  rcases List.mem_cons.mp hg with rfl | hg
  · exact hf
  · obtain ⟨n, -, rfl⟩ := List.mem_map.mp hg
    exact cell_str n

theorem isSpace_of_mem_record {fs : List (List Char)} (h : ∀ f ∈ fs, Cell f) :
    ∀ c ∈ record fs, isSpace c = false :=
  forall_mem_record (by rfl) fun f hf => (h f hf).space

theorem newline_notMem_record {fs : List (List Char)} (h : ∀ f ∈ fs, Cell f) :
    '\n' ∉ record fs := by
  intro hmem
  have hspace := isSpace_of_mem_record h _ hmem
  exact absurd hspace (by decide)

/-- A record is read back from its line. -/
theorem fields_strip_record {fs : List (List Char)} (hne : fs ≠ []) (h : ∀ f ∈ fs, Cell f) :
    fields (strip (record fs ++ ['\n'])) = fs := by
  rw [strip_newline (isSpace_of_mem_record h)]
  exact List.splitOn_intercalate ',' (fun f hf => (h f hf).comma) hne

end Course.Lib.Text
