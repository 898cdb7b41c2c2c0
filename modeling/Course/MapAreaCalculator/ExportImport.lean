import Course.MapAreaCalculator.ConflictRuns

/-! What is exported and imported again: the vertices, unless the polygon that imports them takes
the first ones for its scale. -/

open Course.Lib

namespace Course.MapAreaCalculator.Polygon

variable {width height n : ℤ} {v : Point} {vs : List Point} {q : Polygon} {l r : List Char}

/-! ### Lines -/

/-- The number is one of those that `int` has and `\d+` matches. -/
def Natural (n : ℤ) : Prop := 0 ≤ n ∧ n < 2 ^ 31

theorem isDigit_of_mem_str (hn : 0 ≤ n) : ∀ c ∈ Text.str n, c.isDigit = true := by
  obtain ⟨m, rfl⟩ := Int.eq_ofNat_of_zero_le hn
  exact fun c hc => Nat.isDigit_of_mem_toDigits (by decide) (by decide) hc

theorem str_ne_nil (hn : 0 ≤ n) : Text.str n ≠ [] := by
  obtain ⟨m, rfl⟩ := Int.eq_ofNat_of_zero_le hn
  exact Nat.toDigits_ne_nil

theorem stoi_str (h : Natural n) : stoi (Text.str n) = some n := by
  obtain ⟨hn, hlt⟩ := h
  obtain ⟨m, rfl⟩ := Int.eq_ofNat_of_zero_le hn
  have hdigits : Nat.ofDigitChars 10 (Text.str m) 0 = m := Nat.ofDigitChars_ten_toDigits
  rw [stoi, hdigits, if_pos (by omega)]

theorem isspace_of_isDigit {c : Char} (h : c.isDigit = true) : isspace c = false := by
  have hdigit : 48 ≤ c.toNat ∧ c.toNat ≤ 57 := by
    simpa [Char.isDigit, UInt32.le_iff_toNat_le] using h
  have hspace : c ≠ ' ' := by
    rintro rfl
    exact absurd hdigit.1 (by decide)
  have hreturn : ¬c ≤ '\r' := fun hle => absurd (hdigit.1.trans hle) (by decide)
  simp [isspace, hspace, hreturn]

/-- The line of a vertex. -/
def line (v : Point) : List Char := Text.str v.x ++ ' ' :: Text.str v.y

theorem dropWhile_isspace (hl : ∀ c ∈ l, c.isDigit = true) (hne : l ≠ []) (r : List Char) :
    (l ++ r).dropWhile isspace = l ++ r := by
  obtain ⟨c, l, rfl⟩ := List.exists_cons_of_ne_nil hne
  have hc := isspace_of_isDigit (hl c List.mem_cons_self)
  exact List.dropWhile_cons_of_neg (by simp [hc])

theorem takeWhile_isspace (hl : ∀ c ∈ l, c.isDigit = true) (hne : l ≠ []) :
    l.takeWhile isspace = [] := by
  obtain ⟨c, l, rfl⟩ := List.exists_cons_of_ne_nil hne
  have hc := isspace_of_isDigit (hl c List.mem_cons_self)
  exact List.takeWhile_cons_of_neg (by simp [hc])

theorem matchLine_line (hx : 0 ≤ v.x) (hy : 0 ≤ v.y) :
    matchLine (line v) = some (Text.str v.x, Text.str v.y) := by
  have hxs := isDigit_of_mem_str hx
  have hys := isDigit_of_mem_str hy
  have hxne := str_ne_nil hx
  have hyne := str_ne_nil hy
  have hblank : (' ' :: Text.str v.y).takeWhile isspace = [' '] := by
    rw [List.takeWhile_cons_of_pos (by decide), takeWhile_isspace hys hyne]
  have hrest : (' ' :: Text.str v.y).dropWhile isspace = Text.str v.y := by
    have hdrop := dropWhile_isspace hys hyne []
    rw [List.append_nil] at hdrop
    rw [List.dropWhile_cons_of_pos (by decide), hdrop]
  have hytake : (Text.str v.y).takeWhile Char.isDigit = Text.str v.y :=
    List.takeWhile_eq_self_iff.mpr hys
  have hydrop : (Text.str v.y).dropWhile Char.isDigit = [] := List.dropWhile_eq_nil_iff.mpr hys
  rw [matchLine, line, dropWhile_isspace hxs hxne, List.takeWhile_append_of_pos hxs,
    List.dropWhile_append_of_pos hxs, List.takeWhile_cons_of_neg (by decide),
    List.dropWhile_cons_of_neg (by decide), hblank, hrest, hytake, hydrop, List.append_nil,
    if_pos ⟨hxne, List.cons_ne_nil _ _, hyne, rfl⟩]

/-- The vertex can be written and read for an image of this size. -/
structure InImage (width height : ℤ) (v : Point) : Prop where
  x : 0 ≤ v.x ∧ v.x ≤ width
  y : 0 ≤ v.y ∧ v.y ≤ height

theorem readLine_line (hwidth : width < 2 ^ 31) (hheight : height < 2 ^ 31)
    (h : InImage width height v) : readLine width height (line v) = some v := by
  obtain ⟨⟨hx, hx'⟩, hy, hy'⟩ := h
  rw [readLine, matchLine_line hx hy]
  simp only [Option.bind_eq_bind, Option.bind_some,
    stoi_str (n := v.x) ⟨hx, hx'.trans_lt hwidth⟩, stoi_str (n := v.y) ⟨hy, hy'.trans_lt hheight⟩]
  rw [if_neg (by omega)]

theorem newline_notMem_line (hx : 0 ≤ v.x) (hy : 0 ≤ v.y) : '\n' ∉ line v := by
  intro hmem
  have hdigit : ∀ {n : ℤ}, 0 ≤ n → '\n' ∉ Text.str n := fun hn hmem =>
    absurd (isDigit_of_mem_str hn _ hmem) (by decide)
  rcases List.mem_append.mp hmem with hmem | hmem
  · exact hdigit hx hmem
  · rcases List.mem_cons.mp hmem with heq | hmem
    · exact absurd heq (by decide)
    · exact hdigit hy hmem

theorem getlines_unlines {ls : List (List Char)} (h : ∀ l ∈ ls, '\n' ∉ l) :
    getlines (Text.unlines ls) = ls := by
  rw [getlines, Text.readlines_unlines h, List.map_map]
  refine (List.map_congr_left fun l hl => ?_).trans (List.map_id ls)
  rw [Function.comp_apply, List.rdropWhile_concat_pos _ _ _ (by rfl), id,
    List.rdropWhile_eq_self_iff]
  intro hne heq
  exact h l hl (of_decide_eq_true heq ▸ List.getLast_mem hne)

/-! ### The polygon that imports -/

/-- The vertices are pushed one by one into the emptied polygon. -/
theorem importVertices_exportVertices {p : Polygon} {verticesPath : List Char}
    (hpath : verticesPath ≠ []) (hwidth : width < 2 ^ 31) (hheight : height < 2 ^ 31)
    (h : ∀ v ∈ p.mVertices, InImage width height v) (q : Polygon) :
    q.importVertices verticesPath (some p.exportVertices) width height =
      pushAll { q with mVertices := [], mConflicts := [] } p.mVertices := by
  have hlines : getlines p.exportVertices = p.mVertices.map line := by
    refine getlines_unlines fun l hl => ?_
    obtain ⟨v, hv, rfl⟩ := List.mem_map.mp hl
    exact newline_notMem_line (h v hv).x.1 (h v hv).y.1
  have hread : ∀ l ∈ p.mVertices.map line, readLine width height l ≠ none := by
    intro l hl
    obtain ⟨v, hv, rfl⟩ := List.mem_map.mp hl
    rw [readLine_line hwidth hheight (h v hv)]
    exact Option.some_ne_none v
  have hvertices : (p.mVertices.map line).filterMap (readLine width height) = p.mVertices := by
    rw [List.filterMap_map]
    refine (List.filterMap_congr fun v hv => ?_).trans List.filterMap_some
    exact readLine_line hwidth hheight (h v hv)
  rw [importVertices, if_neg hpath]
  dsimp only
  rw [hlines, readLines_eq_pushAll hread, hvertices]

theorem push_setScale (hsel : q.mSelectScale = false) (scale : List Point) (x y : ℤ) :
    ({ q with mScale := scale } : Polygon).push x y =
      { q.push x y with mScale := scale } := by
  obtain ⟨select, vs, cs, _⟩ := q
  obtain rfl : select = false := hsel
  simp only [push, Bool.false_eq_true, if_false]
  split <;> rfl

/-- A polygon that selects no scale does not look at it. -/
theorem pushAll_setScale (hsel : q.mSelectScale = false) (scale vs : List Point) :
    ({ q with mScale := scale } : Polygon).pushAll vs = { q.pushAll vs with mScale := scale } := by
  induction vs generalizing q with
  | nil => rfl
  | cons v vs ih =>
    rw [pushAll_cons, push_setScale hsel, ih (push_mSelectScale hsel _ _), pushAll_cons]

theorem length_pushAll_le (q : Polygon) (vs : List Point) :
    (q.pushAll vs).mVertices.length ≤ q.mVertices.length + vs.length := by
  induction vs generalizing q with
  | nil => exact le_rfl
  | cons v vs ih =>
    have hpush : (q.push v.x v.y).mVertices.length ≤ q.mVertices.length + 1 := by
      cases hsel : q.mSelectScale with
      | true => exact (congrArg List.length (push_of_selecting hsel).1).trans_le (Nat.le_succ _)
      | false => exact (length_push hsel).le
    have hrest := ih (q.push v.x v.y)
    rw [pushAll_cons, List.length_cons]
    omega

theorem mVertices_pushAll (hsel : q.mSelectScale = false) (vs : List Point) :
    (q.pushAll vs).mVertices = q.mVertices ++ vs := by
  induction vs generalizing q with
  | nil => exact (List.append_nil _).symm
  | cons v vs ih =>
    rw [pushAll_cons, ih (push_mSelectScale hsel _ _), push_mVertices hsel, List.append_assoc]
    rfl

/-- The polygon that imported is the one whose vertices were pushed into an empty polygon. -/
def Restored (vs : List Point) (s : Polygon) : Prop :=
  s.mVertices = vs ∧ s.mConflicts = (init.pushAll vs).mConflicts

/-- The vertices come back with their conflicts unless the first ones are taken for a scale. -/
theorem restored_iff {p : Polygon} {verticesPath : List Char}
    (hpath : verticesPath ≠ []) (hwidth : width < 2 ^ 31) (hheight : height < 2 ^ 31)
    (h : ∀ v ∈ p.mVertices, InImage width height v) (q : Polygon) :
    Restored p.mVertices (q.importVertices verticesPath (some p.exportVertices) width height) ↔
      q.mSelectScale = false ∨ p.mVertices = [] := by
  rw [importVertices_exportVertices hpath hwidth hheight h, Restored]
  constructor
  · rintro ⟨hvs, -⟩
    by_contra hnot
    rw [not_or, Bool.not_eq_false] at hnot
    obtain ⟨hsel, hne⟩ := hnot
    obtain ⟨v, vs, hcons⟩ := List.exists_cons_of_ne_nil hne
    have hlost : (push { q with mVertices := [], mConflicts := [] } v.x v.y).mVertices = [] :=
      (push_of_selecting (s := { q with mVertices := [], mConflicts := [] }) hsel).1
    have hle := length_pushAll_le (push { q with mVertices := [], mConflicts := [] } v.x v.y) vs
    rw [hcons, pushAll_cons] at hvs
    rw [hvs, hlost, List.length_cons, List.length_nil] at hle
    omega
  · rintro (hsel | hnil)
    · have hq : ({ q with mVertices := [], mConflicts := [] } : Polygon) =
          { init with mScale := q.mScale } := by
        rw [init, hsel]
      rw [hq, pushAll_setScale rfl]
      exact ⟨mVertices_pushAll rfl p.mVertices, rfl⟩
    · rw [hnil]
      exact ⟨rfl, rfl⟩

/-- One vertex for an image of 5 by 5. -/
def dot : List Action := [.push 1 2]

theorem dot_inImage : ∀ v ∈ (run dot).mVertices, InImage 5 5 v := by
  intro v hv
  obtain rfl : v = ⟨1, 2⟩ := List.mem_singleton.mp hv
  exact ⟨by decide, by decide⟩

/-- Two edges that cross. -/
def bow : List Action := [.push 0 0, .push 4 4, .push 4 0, .push 0 3]

/-- A polygon that has its scale and a side. -/
def used : List Action := [.selectScale, .push 0 0, .push 0 4, .push 1 1, .push 2 1]

theorem bow_inImage : ∀ v ∈ (run bow).mVertices, InImage 5 5 v := by
  have hvs : (run bow).mVertices = [⟨0, 0⟩, ⟨4, 4⟩, ⟨4, 0⟩, ⟨0, 3⟩] := rfl
  rw [hvs]
  simp only [List.forall_mem_cons, List.not_mem_nil, false_imp_iff, implies_true, and_true]
  refine ⟨?_, ?_, ?_, ?_⟩
  all_goals exact ⟨by decide, by decide⟩

theorem restored_iff_bow :
    Restored (run bow).mVertices
        ((run used).importVertices ['a'] (some (run bow).exportVertices) 5 5) ∧
      (Restored (run bow).mVertices
          ((run used).importVertices ['a'] (some (run bow).exportVertices) 5 5) ↔
        (run used).mSelectScale = false ∨ (run bow).mVertices = []) := by
  have hpath : ['a'] ≠ [] := by simp
  have hiff := restored_iff hpath (by norm_num) (by norm_num) bow_inImage (run used)
  exact ⟨hiff.mpr (.inl rfl), hiff⟩

/-- The polygon that imports it has just been told to select a scale. -/
theorem not_restored_dot : ¬∀ (as bs : List Action) (verticesPath : List Char) (width height : ℤ),
    verticesPath ≠ [] → width < 2 ^ 31 → height < 2 ^ 31 →
      (∀ v ∈ (run as).mVertices, InImage width height v) →
        Restored (run as).mVertices
          ((run bs).importVertices verticesPath (some (run as).exportVertices) width height) := by
  intro hall
  have hvs := (hall dot [.selectScale] ['a'] 5 5 (by simp) (by norm_num) (by norm_num)
    dot_inImage).1
  rw [importVertices_exportVertices (by simp) (by norm_num) (by norm_num) dot_inImage] at hvs
  cases hvs

end Course.MapAreaCalculator.Polygon
