import Course.Rdt.Framing

/-! Bursts of noise on an encoded frame: `decode` notices each. -/

open Course.Lib LittleEndian

namespace Course.Rdt

/-- What arrives of `data` where the set bits of `error` were flipped. -/
def corrupt (data error : Data) : Data := List.zipWith (· ^^^ ·) data error

/-- Some bits of the frame are flipped, all of them within 32 consecutive ones,
and all in its first four bytes or all behind these. -/
structure Burst (error : Data) : Prop where
  flipped : true ∈ CRC32.bits error
  window : ∃ start, ∀ i : ℕ, (CRC32.bits error)[i]? = some true → start ≤ i ∧ i < start + 32
  side : (∀ i : ℕ, (CRC32.bits error)[i]? = some true → i < 32) ∨
    ∀ i : ℕ, (CRC32.bits error)[i]? = some true → 32 ≤ i

namespace CRC32

/-! ### Flipped bits -/

theorem byteBits_xor : ∀ b e : UInt8, byteBits (b ^^^ e) = List.zipWith xor (byteBits b) (byteBits e) := by
  intro b e
  simp only [byteBits, UInt8.toBitVec_xor, List.zipWith_map, List.zipWith_self]
  congr 1
  funext i
  exact BitVec.getMsbD_xor

theorem byteBits_clear : ∀ e : BitVec 8, (∀ b ∈ byteBits ⟨e⟩, b = false) ↔ e = 0 := by
  decide +kernel

theorem bits_append (data data' : Data) : bits (data ++ data') = bits data ++ bits data' :=
  List.flatMap_append

theorem bits_corrupt {data error : Data} (h : error.length = data.length) :
    bits (corrupt data error) = List.zipWith xor (bits data) (bits error) := by
  induction data generalizing error with
  | nil =>
    obtain rfl : error = [] := List.eq_nil_of_length_eq_zero h
    rfl
  | cons b data ih =>
    obtain ⟨e, error, rfl⟩ := List.exists_cons_of_length_eq_add_one h
    have hlength : error.length = data.length := Nat.succ.inj h
    have hbytes : (byteBits b).length = (byteBits e).length := rfl
    rw [corrupt, List.zipWith_cons_cons, bits_cons, bits_cons, bits_cons, byteBits_xor,
      List.zipWith_append hbytes]
    exact congrArg _ (ih hlength)

theorem corrupt_eq_iff {data error : Data} (h : error.length = data.length) :
    corrupt data error = data ↔ ∀ b ∈ bits error, b = false := by
  induction data generalizing error with
  | nil =>
    obtain rfl : error = [] := List.eq_nil_of_length_eq_zero h
    simp [corrupt, bits]
  | cons b data ih =>
    obtain ⟨e, error, rfl⟩ := List.exists_cons_of_length_eq_add_one h
    have hlength : error.length = data.length := Nat.succ.inj h
    have hbyte : b ^^^ e = b ↔ ∀ b ∈ byteBits e, b = false := by
      rw [byteBits_clear e.toBitVec, ← UInt8.toBitVec_inj, UInt8.toBitVec_xor,
        show b.toBitVec ^^^ e.toBitVec = b.toBitVec ↔ b.toBitVec ^^^ e.toBitVec = b.toBitVec ^^^ 0 by
          simp, BitVec.xor_right_inj]
    rw [corrupt, List.zipWith_cons_cons, List.cons.injEq, bits_cons, List.forall_mem_append]
    exact and_congr hbyte (ih hlength)

/-! ### The digest tells two messages apart that differ by a burst -/

theorem value_of_digestOf {data data' : Data} (h : digestOf data = digestOf data') :
    value data = value data' := by
  simp only [digestOf, List.cons.injEq, ← UInt8.toNat_inj, UInt32.toNat_toUInt8,
    UInt32.toNat_shiftRight, Nat.shiftRight_eq_div_pow] at h
  obtain ⟨h24, h16, h8, h0, -⟩ := h
  have hlt := (value data).toNat_lt
  have hlt' := (value data').toNat_lt
  apply UInt32.toNat_inj.mp
  simp at h24 h16 h8 h0
  omega

theorem digestOf_corrupt_ne {data error : Data} (h : error.length = data.length)
    (hne : Crc.feed poly 0 (bits error) ≠ 0) : digestOf (corrupt data error) ≠ digestOf data := by
  intro hdigest
  apply hne
  have hlength : (bits data).length = (bits error).length := by
    rw [length_bits, length_bits, h]
  have hregister : (corrupt data error).foldl byteStep 0xffffffff = data.foldl byteStep 0xffffffff :=
    (UInt32.xor_left_inj _).mp (value_of_digestOf hdigest)
  have hfeed := congrArg UInt32.toBitVec hregister
  rw [foldl_byteStep, foldl_byteStep, bits_corrupt h] at hfeed
  have hxor := Crc.feed_xor (p := poly) hlength (UInt32.toBitVec 0xffffffff) 0
  rw [show UInt32.toBitVec 0xffffffff ^^^ 0 = UInt32.toBitVec 0xffffffff from BitVec.xor_zero,
    hfeed] at hxor
  exact (BitVec.xor_right_inj _).mp (hxor.symm.trans BitVec.xor_zero.symm)

end CRC32

namespace Channel

theorem corrupt_append {digest error : Data} (h : error.length = digest.length) (data error' : Data) :
    corrupt (digest ++ data) (error ++ error') = corrupt digest error ++ corrupt data error' :=
  List.zipWith_append h.symm

/-- The first four bytes of a noisy frame do not match the others. -/
theorem corrupt_digest_ne {digest data error : Data} (hdigest : digest = CRC32.digestOf data)
    (hlength : error.length = digest.length + data.length) (h : Burst error) :
    corrupt digest (error.take 4) ≠ CRC32.digestOf (corrupt data (error.drop 4)) := by
  have hfour : digest.length = 4 := by rw [hdigest, CRC32.length_digestOf]
  have htake : (error.take 4).length = digest.length := by
    rw [List.length_take]
    omega
  have hdrop : (error.drop 4).length = data.length := by
    rw [List.length_drop]
    omega
  have hbits : CRC32.bits error = CRC32.bits (error.take 4) ++ CRC32.bits (error.drop 4) := by
    rw [← CRC32.bits_append, List.take_append_drop]
  have hbits4 : (CRC32.bits (error.take 4)).length = 32 := by
    rw [CRC32.length_bits, htake, hfour]
  obtain ⟨hset, ⟨start, hwindow⟩, hside⟩ := h
  have hhead : ∀ i : ℕ, (CRC32.bits (error.take 4))[i]? = some true →
      (CRC32.bits error)[i]? = some true := by
    intro i hi
    obtain ⟨hlt, -⟩ := List.getElem?_eq_some_iff.mp hi
    rw [hbits, List.getElem?_append_left hlt, hi]
  have htail : ∀ i : ℕ, (CRC32.bits (error.drop 4))[i]? = some true →
      (CRC32.bits error)[32 + i]? = some true := by
    intro i hi
    rw [hbits, List.getElem?_append_right (by omega), hbits4, Nat.add_sub_cancel_left, hi]
  rw [hbits, List.mem_append] at hset
  rcases hside with hfirst | hrest
  · -- the digest alone is changed
    have hclear : ∀ b ∈ CRC32.bits (error.drop 4), b = false := by
      apply Crc.forall_false_of_getElem?
      intro i hi
      have hlt := hfirst _ (htail i hi)
      omega
    rw [(CRC32.corrupt_eq_iff hdrop).mpr hclear, ← hdigest]
    intro hsame
    rcases hset with hset | hset
    · cases (CRC32.corrupt_eq_iff htake).mp hsame true hset
    · cases hclear true hset
  · -- the digest is what it was
    have hclear : ∀ b ∈ CRC32.bits (error.take 4), b = false := by
      apply Crc.forall_false_of_getElem?
      intro i hi
      obtain ⟨hlt, -⟩ := List.getElem?_eq_some_iff.mp hi
      have hge := hrest i (hhead i hi)
      omega
    rw [(CRC32.corrupt_eq_iff htake).mpr hclear, hdigest]
    apply Ne.symm
    apply CRC32.digestOf_corrupt_ne hdrop
    have hset : true ∈ CRC32.bits (error.drop 4) := by
      rcases hset with hset | hset
      · cases hclear true hset
      · exact hset
    have hin : ∀ i : ℕ, (CRC32.bits (error.drop 4))[i]? = some true →
        start - 32 ≤ i ∧ i < start - 32 + 32 := by
      intro i hi
      have hi' := hwindow _ (htail i hi)
      omega
    exact Crc.feed_window_ne_zero (by decide) hset hin

/-- No burst passes `decode` unnoticed. -/
theorem decode_burst (data : Data) (tries : ℕ) (now : Int64) {frame error : Data}
    (hencode : encode data tries now = .ok frame) (hlength : error.length = frame.length)
    (hburst : Burst error) :
    ∃ h payload, decode (corrupt frame error) = .ok (h, payload) ∧ h.valid = false := by
  rw [encode_eq] at hencode
  obtain rfl := Except.ok.inj hencode
  generalize hdigest : CRC32.digestOf (body data (.ofNat tries) now) = digest
  generalize hbody : body data (.ofNat tries) now = content at hdigest hlength
  rw [hdigest, List.length_append] at hlength
  have hfour : digest.length = 4 := by rw [← hdigest, CRC32.length_digestOf]
  have hcontent : headerSize ≤ digest.length + content.length := by
    rw [← hbody, hfour]
    simp only [body, List.length_append, length_toBytes, headerSize]
    omega
  have hlong : headerSize ≤ (corrupt (digest ++ content) error).length := by
    rw [corrupt, List.length_zipWith, List.length_append, hlength]
    omega
  have hcut : corrupt (digest ++ content) error =
      corrupt digest (error.take 4) ++ corrupt content (error.drop 4) := by
    have htake : (error.take 4).length = digest.length := by
      rw [List.length_take]
      omega
    rw [← corrupt_append htake, List.take_append_drop]
  have hhead : (corrupt digest (error.take 4)).length = 4 := by
    rw [corrupt, List.length_zipWith, List.length_take]
    omega
  have hne := corrupt_digest_ne hdigest.symm hlength hburst
  have hdecode := decode_eq hlong
  rw [hcut, List.take_left' hhead, List.drop_left' hhead, if_neg hne, ← hcut] at hdecode
  exact ⟨_, _, hdecode, rfl⟩

theorem decode_burst_oneByte :
    ∃ frame error, encode [7] 3 5 = .ok frame ∧ error.length = frame.length ∧ Burst error ∧
      ∃ h payload, decode (corrupt frame error) = .ok (h, payload) ∧ h.valid = false := by
  let error : Data := List.replicate 16 0 ++ [0x90]
  have hburst : Burst error := by
    have hset : ∀ i : ℕ, (CRC32.bits error)[i]? = some true → 128 ≤ i ∧ i < 136 := by
      intro i hi
      obtain ⟨hlt, -⟩ := List.getElem?_eq_some_iff.mp hi
      have hlow : ∀ i < 136, (CRC32.bits error)[i]? = some true → 128 ≤ i := by decide +kernel
      exact ⟨hlow i hlt hi, hlt⟩
    refine ⟨by decide +kernel, ⟨128, fun i hi => ?_⟩, .inr fun i hi => ?_⟩
    · have hin := hset i hi
      omega
    · have hin := hset i hi
      omega
  exact ⟨_, error, encode_eq [7] 3 5, by decide, hburst,
    decode_burst [7] 3 5 (encode_eq [7] 3 5) (by decide) hburst⟩

end Channel

end Course.Rdt
