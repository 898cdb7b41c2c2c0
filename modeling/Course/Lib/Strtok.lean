import Mathlib.Data.List.Infix
import Mathlib.Data.List.TakeWhile
import Mathlib.Data.Nat.Notation

/-! Strings that end with a terminator in a buffer, and `strtok`, which cuts a string
into its tokens right in the buffer. -/

universe u

namespace Course.Lib

variable {α : Type u} [DecidableEq α]

/-- The string at the place `p` of a buffer. -/
def stringAt (nul : α) (buf : List α) (p : ℕ) : List α := (buf.drop p).takeWhile (· ≠ nul)

def strspn (delims s : List α) : ℕ := (s.takeWhile (· ∈ delims)).length

def strcspn (delims s : List α) : ℕ := (s.takeWhile (· ∉ delims)).length

/-- The buffer, and the place where the next call goes on. -/
structure Strtok (α : Type u) where
  buf : List α
  saved : ℕ

namespace Strtok

/-- The place of the next token, which is ended in the buffer. -/
def next (nul : α) (delims : List α) (t : Strtok α) : Option ℕ × Strtok α :=
  let token := t.saved + strspn delims (stringAt nul t.buf t.saved)
  if stringAt nul t.buf token = [] then (none, { t with saved := token })
  else
    let stop := token + strcspn delims (stringAt nul t.buf token)
    if stringAt nul t.buf stop = [] then (some token, { t with saved := stop })
    else (some token, { buf := t.buf.set stop nul, saved := stop + 1 })

/-- `r` is what is left of the string. -/
structure Scans (nul : α) (t : Strtok α) (r : List α) : Prop where
  notMem : nul ∉ r
  split : ∃ pre post, t.buf = pre ++ r ++ nul :: post ∧ pre.length = t.saved

/-- The token `w` is at the place `p`, in front of all that later calls write. -/
structure Holds (nul : α) (t : Strtok α) (p : ℕ) (w : List α) : Prop where
  notMem : nul ∉ w
  isPrefix : w ++ [nul] <+: (t.buf.take (t.saved + 1)).drop p

variable {nul : α} {delims r s w pre post : List α} {t t' : Strtok α} {p n : ℕ}

/-! ### Places -/

theorem next_place (nul : α) (delims : List α) (t : Strtok α) :
    (t.next nul delims).2.buf.length = t.buf.length ∧ t.saved ≤ (t.next nul delims).2.saved := by
  rw [next]
  dsimp only
  split
  · exact ⟨rfl, Nat.le_add_right ..⟩
  · split
    · exact ⟨rfl, by dsimp only; omega⟩
    · exact ⟨List.length_set, by dsimp only; omega⟩

/-- Every token is behind the last place, and still in the buffer. -/
theorem next_some (h : t.next nul delims = (some p, t')) :
    t.saved < t'.saved ∧ t.saved < t.buf.length := by
  rw [next] at h
  dsimp only at h
  generalize htoken : t.saved + strspn delims (stringAt nul t.buf t.saved) = token at h
  split at h
  · cases h
  next hne =>
    have hlt : token < t.buf.length := by
      by_contra hle
      exact hne (by rw [stringAt, List.drop_eq_nil_of_le (by omega)]; rfl)
    split at h
    next hstop =>
      cases h
      refine ⟨?_, by omega⟩
      have hpos : strcspn delims (stringAt nul t.buf p) ≠ 0 := fun hzero =>
        hne (by rwa [hzero] at hstop)
      dsimp only
      omega
    next =>
      cases h
      dsimp only
      omega

/-! ### Tokens -/

theorem takeWhile_ne (h : nul ∉ s) : (s ++ nul :: post).takeWhile (· ≠ nul) = s := by
  rw [List.takeWhile_append_of_pos (fun c hc => by simpa using ne_of_mem_of_not_mem hc h),
    List.takeWhile_cons_of_neg (by simp), List.append_nil]

theorem stringAt_append (h : nul ∉ s) (hn : n = pre.length) :
    stringAt nul (pre ++ s ++ nul :: post) n = s := by
  rw [stringAt, List.append_assoc, hn, List.drop_left, takeWhile_ne h]

theorem Scans.stringAt (h : Scans nul t r) : stringAt nul t.buf t.saved = r := by
  obtain ⟨hr, pre, post, hbuf, hpre⟩ := h
  rw [hbuf, stringAt_append hr hpre.symm]

/-- Later calls do not change the string at the place of a token. -/
theorem Holds.stringAt (h : Holds nul t p w) : Course.Lib.stringAt nul t.buf p = w := by
  have htake : (t.buf.take (t.saved + 1)).drop p <+: t.buf.drop p := (List.take_prefix _ _).drop p
  obtain ⟨post, hpost⟩ := h.isPrefix.trans htake
  rw [Course.Lib.stringAt, ← hpost, List.append_assoc, List.singleton_append, takeWhile_ne h.notMem]

omit [DecidableEq α] in
theorem Holds.mono (h : Holds nul t p w) (hsaved : t.saved ≤ t'.saved)
    (hbuf : t'.buf.take (t.saved + 1) = t.buf.take (t.saved + 1)) : Holds nul t' p w := by
  refine ⟨h.notMem, h.isPrefix.trans ?_⟩
  rw [← hbuf]
  exact (List.take_prefix_take_left (by omega)).drop p

/-- Delimiters, a word, and what is behind it. -/
theorem split_word (delims r : List α) : (∀ c ∈ r, c ∈ delims) ∨
    ∃ s w rest, r = s ++ w ++ rest ∧ (∀ c ∈ s, c ∈ delims) ∧ w ≠ [] ∧ (∀ c ∈ w, c ∉ delims) ∧
      ∀ c ∈ rest.head?, c ∈ delims := by
  induction r with
  | nil => exact .inl (by simp)
  | cons c r ih =>
    by_cases hc : c ∈ delims
    · obtain hr | ⟨s, w, rest, rfl, hs, hw⟩ := ih
      · exact .inl (List.forall_mem_cons.mpr ⟨hc, hr⟩)
      · exact .inr ⟨c :: s, w, rest, rfl, List.forall_mem_cons.mpr ⟨hc, hs⟩, hw⟩
    · refine .inr ⟨[], c :: r.takeWhile (· ∉ delims), r.dropWhile (· ∉ delims), ?_, by simp,
        List.cons_ne_nil _ _, List.forall_mem_cons.mpr ⟨hc, fun d hd => ?_⟩, fun d hd => ?_⟩
      · rw [List.nil_append, List.cons_append, List.takeWhile_append_dropWhile]
      · simpa using List.mem_takeWhile_imp hd
      · have hnot := List.head?_dropWhile_not (· ∉ delims) r
        rw [Option.mem_def.mp hd] at hnot
        simpa using hnot

theorem strspn_append (hs : ∀ c ∈ s, c ∈ delims) (hr : ∀ c ∈ r.head?, c ∉ delims) :
    strspn delims (s ++ r) = s.length := by
  rw [strspn, List.takeWhile_append_of_pos (fun c hc => by simpa using hs c hc)]
  cases r with
  | nil => simp
  | cons c r => rw [List.takeWhile_cons_of_neg (by simpa using hr c rfl), List.append_nil]

theorem strcspn_append (hs : ∀ c ∈ s, c ∉ delims) (hr : ∀ c ∈ r.head?, c ∈ delims) :
    strcspn delims (s ++ r) = s.length := by
  rw [strcspn, List.takeWhile_append_of_pos (fun c hc => by simpa using hs c hc)]
  cases r with
  | nil => simp
  | cons c r => rw [List.takeWhile_cons_of_neg (by simpa using hr c rfl), List.append_nil]

/-- Behind the first part of the string. -/
theorem Scans.stringAt_add (h : Scans nul t (s ++ r)) :
    Course.Lib.stringAt nul t.buf (t.saved + s.length) = r := by
  obtain ⟨hr, pre, post, hbuf, hpre⟩ := h
  have hplace : t.saved + s.length = (pre ++ s).length := by rw [List.length_append, hpre]
  rw [hbuf, ← List.append_assoc, stringAt_append (fun hmem => hr (List.mem_append_right s hmem))
    hplace]

omit [DecidableEq α] in
theorem Holds.of_split (post : List α) (hw : nul ∉ w) (hbuf : t.buf = pre ++ w ++ nul :: post)
    (hp : p = pre.length) (hsaved : p + w.length ≤ t.saved) : Holds nul t p w := by
  refine ⟨hw, ?_⟩
  rw [List.drop_take, List.prefix_take_iff, hbuf, List.append_assoc, hp, List.drop_left]
  refine ⟨⟨post, by simp⟩, ?_⟩
  rw [List.length_append, List.length_singleton]
  omega

theorem Scans.next_none (h : Scans nul t s) (hs : ∀ c ∈ s, c ∈ delims) :
    ∃ t', t.next nul delims = (none, t') ∧ Scans nul t' [] ∧
      ∀ q v, Holds nul t q v → Holds nul t' q v := by
  have hspan := strspn_append (r := []) hs (by simp)
  rw [List.append_nil] at hspan
  have hend := Scans.stringAt_add (s := s) (r := []) (by rwa [List.append_nil])
  refine ⟨{ t with saved := t.saved + s.length }, ?_, ?_,
    fun q v hq => hq.mono (Nat.le_add_right ..) rfl⟩
  · rw [Strtok.next, h.stringAt, hspan, hend]
    rfl
  · obtain ⟨-, pre, post, hbuf, hpre⟩ := h
    exact ⟨by simp, pre ++ s, post, by simp [hbuf], by simp [hpre]⟩

/-- The token is ended in the buffer; the tokens before it are kept. -/
theorem Scans.next_some (h : Scans nul t (s ++ w ++ r)) (hs : ∀ c ∈ s, c ∈ delims) (hne : w ≠ [])
    (hw : ∀ c ∈ w, c ∉ delims) (hr : ∀ c ∈ r.head?, c ∈ delims) :
    ∃ p t', t.next nul delims = (some p, t') ∧ Scans nul t' r.tail ∧ Holds nul t' p w ∧
      ∀ q v, Holds nul t q v → Holds nul t' q v := by
  have hstring := h.stringAt
  have htoken := Scans.stringAt_add (s := s) (r := w ++ r) (by rwa [← List.append_assoc])
  have hstop := h.stringAt_add
  have hspan : strspn delims (s ++ w ++ r) = s.length := by
    rw [List.append_assoc, strspn_append hs]
    obtain ⟨c, w, rfl⟩ := List.exists_cons_of_ne_nil hne
    simpa using hw c (by simp)
  have hcspan := strcspn_append hw hr
  obtain ⟨hnotMem, pre, post, hbuf, hpre⟩ := h
  have hwnotMem : nul ∉ w := fun hmem => hnotMem (by simp [hmem])
  have hplace : t.saved + s.length = (pre ++ s).length := by rw [List.length_append, hpre]
  rw [List.length_append, ← Nat.add_assoc] at hstop
  cases r with
  | nil =>
    refine ⟨t.saved + s.length, { t with saved := t.saved + s.length + w.length }, ?_, ?_, ?_,
      fun q v hq => hq.mono (by dsimp only; omega) rfl⟩
    · rw [Strtok.next, hstring, hspan, htoken, hcspan]
      simp [hne, hstop]
    · exact ⟨by simp, pre ++ s ++ w, post, by simp [hbuf], by simp [hpre, Nat.add_assoc]⟩
    · exact .of_split post hwnotMem (by simp [hbuf]) hplace le_rfl
  | cons c r =>
    have hset : t.buf.set (t.saved + s.length + w.length) nul =
        pre ++ s ++ w ++ nul :: (r ++ nul :: post) := by
      have hlength : t.saved + s.length + w.length = (pre ++ s ++ w).length := by
        rw [hplace, ← List.length_append]
      have hsplit : t.buf = pre ++ s ++ w ++ c :: (r ++ nul :: post) := by simp [hbuf]
      rw [hsplit, hlength, List.set_append_right _ _ le_rfl, Nat.sub_self, List.set_cons_zero]
    refine ⟨t.saved + s.length,
      ⟨t.buf.set (t.saved + s.length + w.length) nul, t.saved + s.length + w.length + 1⟩,
      ?_, ?_, ?_, fun q v hq => hq.mono (by dsimp only; omega) ?_⟩
    · rw [Strtok.next, hstring, hspan, htoken, hcspan]
      simp [hne, hstop]
    · refine ⟨fun hmem => hnotMem (by simp [List.mem_of_mem_tail hmem]),
        pre ++ s ++ w ++ [nul], post, by simp [hset], ?_⟩
      simp [hpre, Nat.add_assoc]
    · exact .of_split _ hwnotMem hset hplace (Nat.le_succ _)
    · have hpos := List.length_pos_of_ne_nil hne
      rw [List.take_set_of_le (by omega)]

end Strtok

end Course.Lib
