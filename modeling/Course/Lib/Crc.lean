import Mathlib.Data.List.Induction
import Mathlib.Data.Nat.Notation

/-! The shift register of a cyclic redundancy check that takes the bits of a
message most significant first, for any width and any polynomial. -/

namespace Course.Lib.Crc

variable {w : ℕ} {p : BitVec w}

/-- The register takes one bit. -/
def step (p : BitVec w) (c : BitVec w) (b : Bool) : BitVec w :=
  (c <<< 1) ^^^ if c.msb ^^ b then p else 0

def feed (p : BitVec w) (c : BitVec w) (bits : List Bool) : BitVec w := bits.foldl (step p) c

theorem feed_append (c : BitVec w) (bits bits' : List Bool) :
    feed p c (bits ++ bits') = feed p (feed p c bits) bits' := List.foldl_append

/-! ### The register is linear -/

theorem feedback_xor (f f' : Bool) :
    (if f ^^ f' then p else 0) = (if f then p else 0) ^^^ if f' then p else 0 := by
  cases f <;> cases f' <;> simp

theorem step_xor (c c' : BitVec w) (b b' : Bool) :
    step p (c ^^^ c') (b ^^ b') = step p c b ^^^ step p c' b' := by
  have hbits : ((c.msb ^^ c'.msb) ^^ (b ^^ b')) = ((c.msb ^^ b) ^^ (c'.msb ^^ b')) := by
    cases c.msb <;> cases c'.msb <;> cases b <;> cases b' <;> rfl
  rw [step, step, step, BitVec.msb_xor, BitVec.shiftLeft_xor_distrib, hbits, feedback_xor]
  ac_rfl

theorem feed_xor {bits bits' : List Bool} (h : bits.length = bits'.length) (c c' : BitVec w) :
    feed p (c ^^^ c') (List.zipWith xor bits bits') = feed p c bits ^^^ feed p c' bits' := by
  induction bits generalizing c c' bits' with
  | nil =>
    obtain rfl : bits' = [] := List.eq_nil_of_length_eq_zero h.symm
    rfl
  | cons b bits ih =>
    obtain ⟨b', bits', rfl⟩ := List.exists_cons_of_length_eq_add_one h.symm
    have hlength : bits.length = bits'.length := Nat.succ.inj h
    simp only [feed, List.zipWith_cons_cons, List.foldl_cons, step_xor]
    exact ih hlength (step p c b) (step p c' b')

/-! ### Bits that are zero -/

theorem step_zero : step p 0 false = 0 := by
  simp [step]

theorem feed_zeros (n : ℕ) : feed p 0 (List.replicate n false) = 0 := by
  induction n with
  | zero => rfl
  | succ n ih =>
    rw [List.replicate_succ, feed, List.foldl_cons, step_zero]
    exact ih

/-- The bit that enters at the bottom is the feedback. -/
theorem getLsbD_step_zero (hp : p.getLsbD 0 = true) (c : BitVec w) (b : Bool) :
    (step p c b).getLsbD 0 = (c.msb ^^ b) := by
  simp only [step, BitVec.getLsbD_xor, BitVec.getLsbD_shiftLeft]
  cases h : c.msb ^^ b <;> simp [hp]

/-- Without feedback the register is shifted. -/
theorem step_of_msb {c : BitVec w} {b : Bool} (h : c.msb = b) : step p c b = c <<< 1 := by
  simp [step, h]

theorem step_false_ne_zero (hp : p.getLsbD 0 = true) {c : BitVec w} (hc : c ≠ 0) :
    step p c false ≠ 0 := by
  intro h
  have hmsb : c.msb = false := by
    have hbit := getLsbD_step_zero hp c false
    rw [h] at hbit
    simpa using hbit.symm
  rw [step_of_msb hmsb] at h
  apply hc
  apply BitVec.eq_of_getLsbD_eq
  intro i hi
  rcases Nat.lt_or_ge (i + 1) w with hlt | hge
  · have hbit := congrArg (BitVec.getLsbD · (i + 1)) h
    simp only [BitVec.getLsbD_shiftLeft] at hbit
    rw [show (0 : BitVec w).getLsbD i = false by simp]
    simpa [-BitVec.getLsbD_eq_getElem, hlt] using hbit
  · have hlast : i = w - 1 := by omega
    rw [hlast, ← BitVec.msb_eq_getLsbD_last, hmsb]
    simp

theorem feed_zeros_ne_zero (hp : p.getLsbD 0 = true) {c : BitVec w} (hc : c ≠ 0) (n : ℕ) :
    feed p c (List.replicate n false) ≠ 0 := by
  induction n generalizing c with
  | zero => exact hc
  | succ n ih =>
    rw [List.replicate_succ, feed, List.foldl_cons]
    exact ih (step_false_ne_zero hp hc)

/-- Bits that are shifted out without feedback. -/
theorem feed_zeros_of_low {n : ℕ} {c : BitVec w} (h : ∀ i < n, c.getMsbD i = false) :
    feed p c (List.replicate n false) = c <<< n := by
  induction n generalizing c with
  | zero => simp [feed]
  | succ n ih =>
    have hmsb : c.msb = false := h 0 (Nat.succ_pos n)
    have hshift : ∀ i < n, (c <<< 1).getMsbD i = false := by
      intro i hi
      rw [BitVec.getMsbD_shiftLeft]
      exact h (i + 1) (by omega)
    rw [List.replicate_succ, feed, List.foldl_cons, step_of_msb hmsb]
    exact (ih hshift).trans (by rw [← BitVec.shiftLeft_add, Nat.add_comm])

/-- The bits of a message act on the register apart from what it holds. -/
theorem feed_eq_zeros_xor (c : BitVec w) (bits : List Bool) :
    feed p c bits = feed p c (List.replicate bits.length false) ^^^ feed p 0 bits := by
  have hzip : List.zipWith xor (List.replicate bits.length false) bits = bits := by
    induction bits with
    | nil => rfl
    | cons b bits ih => simp [List.replicate_succ, ih]
  have hlength : (List.replicate bits.length false).length = bits.length := List.length_replicate
  have hxor := feed_xor (p := p) hlength c 0
  rwa [hzip, show c ^^^ 0 = c from BitVec.xor_zero] at hxor

theorem feed_zeros_xor (n : ℕ) (c c' : BitVec w) : feed p (c ^^^ c') (List.replicate n false) =
    feed p c (List.replicate n false) ^^^ feed p c' (List.replicate n false) := by
  have hxor := feed_xor (p := p) (Eq.refl (List.replicate n false).length) c c'
  rwa [List.zipWith_replicate', Bool.false_xor] at hxor

/-! ### Bursts -/

/-- A register that was fed no more bits than it has, and whose low bits are
clear, was fed none that is set: each bit is still there to be seen. -/
theorem forall_false_of_feed (hp : p.getLsbD 0 = true) {bits : List Bool} (hlen : bits.length ≤ w)
    (hlow : ∀ i < bits.length, (feed p 0 bits).getLsbD i = false) :
    feed p 0 bits = 0 ∧ ∀ b ∈ bits, b = false := by
  induction bits using List.reverseRecOn with
  | nil => exact ⟨rfl, fun b hb => absurd hb List.not_mem_nil⟩
  | append_singleton bits b ih =>
    rw [List.length_append, List.length_singleton] at hlen hlow
    rw [feed_append] at hlow ⊢
    change ∀ i < bits.length + 1, (step p (feed p 0 bits) b).getLsbD i = false at hlow
    change step p (feed p 0 bits) b = 0 ∧ _
    have hmsb : (feed p 0 bits).msb = b := by
      have hbit := hlow 0 (by omega)
      rw [getLsbD_step_zero hp] at hbit
      simpa using hbit
    rw [step_of_msb hmsb] at hlow ⊢
    obtain ⟨hzero, hfalse⟩ := ih (by omega) fun i hi => by
      have hbit := hlow (i + 1) (by omega)
      rw [BitVec.getLsbD_shiftLeft] at hbit
      simpa [show i + 1 < w by omega] using hbit
    rw [hzero] at hmsb ⊢
    have hb : b = false := by simpa using hmsb.symm
    refine ⟨by simp, fun b' hb' => ?_⟩
    rcases List.mem_append.mp hb' with hb' | hb'
    · exact hfalse b' hb'
    · rw [List.mem_singleton.mp hb', hb]

/-- A burst no longer than the register is never taken for no error. -/
theorem feed_burst_ne_zero (hp : p.getLsbD 0 = true) (n m : ℕ) {burst : List Bool}
    (hlen : burst.length ≤ w) (hburst : true ∈ burst) :
    feed p 0 (List.replicate n false ++ burst ++ List.replicate m false) ≠ 0 := by
  rw [feed_append, feed_append, feed_zeros]
  apply feed_zeros_ne_zero hp
  intro hzero
  have hall := (forall_false_of_feed hp hlen fun i _ => by rw [hzero]; simp).2 true hburst
  cases hall

theorem forall_false_of_getElem? {bits : List Bool} (h : ∀ i : ℕ, bits[i]? ≠ some true) :
    ∀ b ∈ bits, b = false := by
  intro b hb
  obtain ⟨i, hi⟩ := List.mem_iff_getElem?.mp hb
  cases b with
  | false => rfl
  | true => exact absurd hi (h i)

/-- Bits that are set within a window as wide as the register. -/
theorem feed_window_ne_zero (hp : p.getLsbD 0 = true) {bits : List Bool} {start : ℕ}
    (hset : true ∈ bits) (h : ∀ i : ℕ, bits[i]? = some true → start ≤ i ∧ i < start + w) :
    feed p 0 bits ≠ 0 := by
  have hbefore : bits.take start = List.replicate (bits.take start).length false := by
    apply List.eq_replicate_of_mem
    apply forall_false_of_getElem?
    intro i hi
    rw [List.getElem?_take] at hi
    split at hi
    · have hstart := (h i hi).1
      omega
    · cases hi
  have hbehind : (bits.drop start).drop w =
      List.replicate ((bits.drop start).drop w).length false := by
    apply List.eq_replicate_of_mem
    apply forall_false_of_getElem?
    intro i hi
    rw [List.drop_drop, List.getElem?_drop] at hi
    have hend := (h _ hi).2
    omega
  have hsplit : bits = bits.take start ++ (bits.drop start).take w ++ (bits.drop start).drop w := by
    rw [List.append_assoc, List.take_append_drop, List.take_append_drop]
  have hburst : true ∈ (bits.drop start).take w := by
    rw [hsplit, hbefore, hbehind, List.mem_append, List.mem_append] at hset
    rcases hset with (hset | hset) | hset
    · cases List.eq_of_mem_replicate hset
    · exact hset
    · cases List.eq_of_mem_replicate hset
  rw [hsplit, hbefore, hbehind]
  exact feed_burst_ne_zero hp _ _ (List.length_take_le ..) hburst

end Course.Lib.Crc
