import Course.Lib.LittleEndian

/-! Byte layouts as pairs of a writer and a reader.  A reader returns the value
and the bytes it left; the three laws below are what a format promises, and the
sequencing of two layouts inherits them. -/

universe u v

namespace Course.Lib

structure Codec (ε : Type u) (α : Type v) where
  write : α → List UInt8
  read : List UInt8 → Except ε (α × List UInt8)

namespace Codec

variable {ε : Type u} {α β : Type v}

/-- Whatever follows a written value is left unread. -/
def Delimited (c : Codec ε α) (valid : α → Prop) : Prop :=
  ∀ a rest, valid a → c.read (c.write a ++ rest) = .ok (a, rest)

/-- A written value is read back when nothing follows it. -/
def Whole (c : Codec ε α) (valid : α → Prop) : Prop :=
  ∀ a, valid a → c.read (c.write a) = .ok (a, [])

/-- What is read is what would have been written. -/
def Sound (c : Codec ε α) : Prop :=
  ∀ d a rest, c.read d = .ok (a, rest) → d = c.write a ++ rest

/-- A successful read leaves nothing. -/
def Exhaustive (c : Codec ε α) : Prop :=
  ∀ d a rest, c.read d = .ok (a, rest) → rest = []

/-- Every way in which reading these bytes can fail is an expected one. -/
def FailsIn (c : Codec ε α) (expected : ε → Prop) (bytes : List UInt8) : Prop :=
  ∀ e, c.read bytes = .error e → expected e

theorem Delimited.whole {c : Codec ε α} {valid : α → Prop} (h : c.Delimited valid) :
    c.Whole valid := fun a ha => by simpa using h a [] ha

/-! ### Sequencing -/

def seq (c : Codec ε α) (d : Codec ε β) : Codec ε (α × β) where
  write := fun (a, b) => c.write a ++ d.write b
  read := fun bytes => do
    let (a, bytes) ← c.read bytes
    let (b, bytes) ← d.read bytes
    return ((a, b), bytes)

variable {c : Codec ε α} {d : Codec ε β} {validA : α → Prop} {validB : β → Prop}

theorem Delimited.seq (hc : c.Delimited validA) (hd : d.Delimited validB) :
    (c.seq d).Delimited fun p => validA p.1 ∧ validB p.2 := by
  rintro ⟨a, b⟩ rest ⟨ha, hb⟩
  simp only [Codec.seq, List.append_assoc, hc a _ ha]
  change (d.read (d.write b ++ rest) >>= fun q => Except.ok ((a, q.1), q.2)) = _
  rw [hd b rest hb]
  rfl

theorem Whole.seq (hc : c.Delimited validA) (hd : d.Whole validB) :
    (c.seq d).Whole fun p => validA p.1 ∧ validB p.2 := by
  rintro ⟨a, b⟩ ⟨ha, hb⟩
  simp only [Codec.seq, hc a _ ha]
  change (d.read (d.write b) >>= fun q => Except.ok ((a, q.1), q.2)) = _
  rw [hd b hb]
  rfl

/-- Reading two fields and using them is reading one, then the other. -/
theorem map_seq_read {γ : Type v} (f : α × β → γ) (bytes : List UInt8) :
    (((c.seq d).read bytes).map fun p => f p.1) =
      c.read bytes >>= fun p => (d.read p.2).map fun q => f (p.1, q.1) := by
  simp only [seq]
  cases c.read bytes with
  | error e => rfl
  | ok p => cases hd : d.read p.2 <;> simp [bind, Except.bind, Except.map, pure, Except.pure, hd]

theorem seq_read_eq_ok {bytes rest : List UInt8} {p : α × β}
    (h : (c.seq d).read bytes = .ok (p, rest)) :
    ∃ mid, c.read bytes = .ok (p.1, mid) ∧ d.read mid = .ok (p.2, rest) := by
  simp only [seq] at h
  cases hc : c.read bytes with
  | error e => rw [hc] at h; cases h
  | ok r =>
    rw [hc] at h
    change (d.read r.2 >>= fun q => Except.ok ((r.1, q.1), q.2)) = _ at h
    cases hd : d.read r.2 with
    | error e => rw [hd] at h; cases h
    | ok q =>
      rw [hd] at h
      cases h
      exact ⟨r.2, rfl, hd⟩

theorem Sound.seq (hc : c.Sound) (hd : d.Sound) : (c.seq d).Sound := by
  intro bytes p rest h
  obtain ⟨mid, h₁, h₂⟩ := seq_read_eq_ok h
  rw [hc _ _ _ h₁, hd _ _ _ h₂, Codec.seq, List.append_assoc]

theorem Exhaustive.seq (hd : d.Exhaustive) : (c.seq d).Exhaustive := by
  intro bytes p rest h
  obtain ⟨mid, _, h₂⟩ := seq_read_eq_ok h
  exact hd _ _ _ h₂

theorem failsIn_seq {expected : ε → Prop} {bytes : List UInt8} :
    (c.seq d).FailsIn expected bytes ↔
      c.FailsIn expected bytes ∧
        ∀ a mid, c.read bytes = .ok (a, mid) → d.FailsIn expected mid := by
  have hread : (c.seq d).read bytes = c.read bytes >>= fun p =>
      d.read p.2 >>= fun q => Except.ok ((p.1, q.1), q.2) := rfl
  simp only [FailsIn, hread]
  cases hc : c.read bytes with
  | error e => simp [bind, Except.bind]
  | ok p =>
    obtain ⟨a, mid⟩ := p
    cases hd : d.read mid <;> simp [bind, Except.bind, hd]

/-! ### Fields -/

/-- A little-endian word of `k` bytes. -/
def word (k : ℕ) (short : ε) : Codec ε ℕ where
  write := LittleEndian.toBytes k
  read := fun bytes =>
    if bytes.length < k then .error short
    else .ok (LittleEndian.ofBytes (bytes.take k), bytes.drop k)

theorem word_delimited (k : ℕ) (short : ε) : (word k short).Delimited (· < 256 ^ k) := by
  intro v rest hv
  have hlen : ¬(LittleEndian.toBytes k v ++ rest).length < k := by simp
  simp only [word, if_neg hlen]
  simp [LittleEndian.ofBytes_toBytes, Nat.mod_eq_of_lt hv]

theorem word_sound (k : ℕ) (short : ε) : (word k short).Sound := by
  intro bytes v rest h
  simp only [word] at h
  split at h
  · cases h
  · rename_i hlen
    cases h
    have htake : (bytes.take k).length = k := by simp; omega
    have := LittleEndian.toBytes_ofBytes (bytes.take k)
    rw [htake] at this
    simp [word, this]

theorem word_failsIn {expected : ε → Prop} (k : ℕ) {short : ε} (h : expected short)
    (bytes : List UInt8) : (word k short).FailsIn expected bytes := by
  intro e he
  simp only [word] at he
  split at he <;> cases he
  exact h

/-- A 64-bit word. -/
def uint64 (short : ε) : Codec ε UInt64 where
  write := fun v => (word 8 short).write v.toNat
  read := fun bytes => ((word 8 short).read bytes).map fun p => (UInt64.ofNat p.1, p.2)

theorem uint64_delimited (short : ε) : (uint64 short).Delimited fun _ => True := by
  intro v rest _
  simp [uint64, word_delimited 8 short v.toNat rest v.toNat_lt, Except.map]

theorem uint64_sound (short : ε) : (uint64 short).Sound := by
  intro bytes v rest h
  simp only [uint64] at h ⊢
  cases hr : (word 8 short).read bytes with
  | error e => rw [hr] at h; cases h
  | ok p =>
    rw [hr] at h
    cases h
    have hv : p.1 < 2 ^ 64 := by
      simp only [word] at hr
      split at hr <;> cases hr
      refine (LittleEndian.ofBytes_lt _).trans_le ?_
      exact Nat.pow_le_pow_right (n := 256) (by omega) (List.length_take_le 8 bytes)
    rw [UInt64.toNat_ofNat_of_lt' hv]
    exact word_sound 8 short bytes p.1 p.2 hr

theorem uint64_failsIn {expected : ε → Prop} {short : ε} (h : expected short)
    (bytes : List UInt8) : (uint64 short).FailsIn expected bytes := by
  intro e he
  simp only [uint64] at he
  cases hr : (word 8 short).read bytes with
  | error e' =>
    rw [hr] at he
    cases he
    exact word_failsIn 8 h bytes _ hr
  | ok p => rw [hr] at he; cases he

/-- Bytes up to and without the first `stop`; `atEnd` is what happens to a
string that has none. -/
def readTerminated (stop : UInt8) (atEnd : ε) : List UInt8 → Except ε (List UInt8 × List UInt8)
  | [] => .error atEnd
  | b :: bytes =>
    if b = stop then .ok ([], bytes)
    else (readTerminated stop atEnd bytes).map fun (s, rest) => (b :: s, rest)

def terminated (stop : UInt8) (atEnd : ε) : Codec ε (List UInt8) where
  write := fun s => s ++ [stop]
  read := readTerminated stop atEnd

theorem terminated_delimited (stop : UInt8) (atEnd : ε) :
    (terminated stop atEnd).Delimited (stop ∉ ·) := by
  intro s rest hs
  simp only [terminated]
  induction s with
  | nil => simp [readTerminated]
  | cons b s ih =>
    simp only [List.mem_cons, not_or] at hs
    have hb : b ≠ stop := fun h => hs.1 h.symm
    simp only [List.cons_append, readTerminated, if_neg hb, ih hs.2]
    rfl

theorem terminated_sound (stop : UInt8) (atEnd : ε) : (terminated stop atEnd).Sound := by
  intro bytes s rest h
  simp only [terminated] at h ⊢
  induction bytes generalizing s with
  | nil => cases h
  | cons b bytes ih =>
    by_cases hb : b = stop
    · simp only [readTerminated, if_pos hb] at h
      cases h
      simp [hb]
    · simp only [readTerminated, if_neg hb] at h
      cases hr : readTerminated stop atEnd bytes with
      | error e => rw [hr] at h; cases h
      | ok p =>
        rw [hr] at h
        cases h
        simpa using ih p.1 hr

/-- The reader of a terminated string succeeds when the terminator is there
and fails with `atEnd` when it is not. -/
theorem readTerminated_spec (stop : UInt8) (atEnd : ε) (bytes : List UInt8) :
    if stop ∈ bytes then
      ∃ s rest, readTerminated stop atEnd bytes = .ok (s, rest) ∧
        bytes.count stop = rest.count stop + 1
    else readTerminated stop atEnd bytes = .error atEnd := by
  induction bytes with
  | nil => simp [readTerminated]
  | cons b bytes ih =>
    by_cases hb : b = stop
    · simp [readTerminated, hb]
    · have hb' : stop ≠ b := fun h => hb h.symm
      split at ih
      · rename_i hmem
        obtain ⟨s, rest, hr, hcount⟩ := ih
        simp [readTerminated, hb, hr, hmem, Except.map, hcount]
      · rename_i hmem
        simp [readTerminated, hb, hb', ih, hmem, Except.map]

theorem terminated_failsIn {expected : ε → Prop} {stop : UInt8} {atEnd : ε}
    (h : ¬expected atEnd) {bytes : List UInt8} :
    (terminated stop atEnd).FailsIn expected bytes ↔ 1 ≤ bytes.count stop := by
  have hspec := readTerminated_spec stop atEnd bytes
  simp only [FailsIn, terminated]
  split at hspec
  · rename_i hmem
    obtain ⟨s, rest, hr, hcount⟩ := hspec
    simp [hr, hcount]
  · rename_i hmem
    simp [hspec, h, hmem]

theorem terminated_notMem {stop : UInt8} {atEnd : ε} {bytes s rest : List UInt8}
    (h : (terminated stop atEnd).read bytes = .ok (s, rest)) : stop ∉ s := by
  simp only [terminated] at h
  induction bytes generalizing s with
  | nil => cases h
  | cons b bytes ih =>
    by_cases hb : b = stop
    · simp only [readTerminated, if_pos hb] at h
      cases h
      exact List.not_mem_nil
    · simp only [readTerminated, if_neg hb] at h
      cases hr : readTerminated stop atEnd bytes with
      | error e => rw [hr] at h; cases h
      | ok p =>
        rw [hr] at h
        cases h
        simp only [List.mem_cons, not_or]
        exact ⟨fun hs => hb hs.symm, ih hr⟩

/-- A terminated string in front of a layout takes one terminator more. -/
theorem terminated_seq_failsIn {expected : ε → Prop} {stop : UInt8} {atEnd : ε}
    (h : ¬expected atEnd) {γ : Type} {c : Codec ε γ} {k : ℕ}
    (hc : ∀ bytes, c.FailsIn expected bytes ↔ k ≤ bytes.count stop) (bytes : List UInt8) :
    ((terminated stop atEnd).seq c).FailsIn expected bytes ↔ k + 1 ≤ bytes.count stop := by
  have hspec := readTerminated_spec stop atEnd bytes
  rw [failsIn_seq, terminated_failsIn h]
  simp only [terminated]
  split at hspec
  · obtain ⟨s, rest, hr, hcount⟩ := hspec
    simp [hr, hc, hcount]
  · rename_i hmem
    simp [hspec, List.count_eq_zero_of_not_mem hmem]

/-- All the bytes there are. -/
def rest : Codec ε (List UInt8) where
  write := id
  read := fun bytes => .ok (bytes, [])

theorem rest_whole : (rest : Codec ε (List UInt8)).Whole fun _ => True := fun _ _ => rfl

theorem rest_sound : (rest : Codec ε (List UInt8)).Sound := by
  intro bytes a r h
  cases h
  simp [rest]

theorem rest_exhaustive : (rest : Codec ε (List UInt8)).Exhaustive := by
  intro bytes a r h
  cases h
  rfl

theorem rest_failsIn {expected : ε → Prop} (bytes : List UInt8) :
    (rest : Codec ε (List UInt8)).FailsIn expected bytes := by
  intro e he
  cases he

end Codec

end Course.Lib
