import Course.Rdt.Crc32

/-! The checksums of the RDT Lab against their standards, and an MD5 that is fed
piece by piece. -/

open Course.Lib MerkleDamgard

namespace Course.Rdt

/-- The bytes of a `string_view`. -/
def ofChars (data : List Int8) : Data := data.map Int8.toUInt8

/-- The characters that carry the bytes. -/
def chars (data : Data) : List Int8 := data.map UInt8.toInt8

@[simp] theorem ofChars_chars (data : Data) : ofChars (chars data) = data := by
  simp [ofChars, chars, Function.comp_def]

namespace CRC32

def computeString (c : CRC32) (data : List Int8) : CRC32 := c.compute (ofChars data)

/-- Bit by bit, the most significant first. -/
theorem compute_bitwise (c : CRC32) (data : Data) :
    (c.compute data).mCRC.toBitVec = Crc.feed poly 0xffffffff (bits data) ^^^ 0xffffffff ∧
      (c.computeString (chars data)).mCRC = (c.compute data).mCRC := by
  constructor
  · rw [compute, UInt32.toBitVec_xor, foldl_byteStep]
    rfl
  · rw [computeString, ofChars_chars]

end CRC32

namespace MD5

def computeString (md : MD5) (data : List Int8) : Except ChecksumError MD5 :=
  md.compute (ofChars data)

/-- The digest of the standard, by each of the overloads. -/
theorem compute_standard (md : MD5) (h : md.buffer.length = 64) (data : Data) :
    (md.compute data >>= digest) = .ok (md5 data) ∧
      (md.computeString (chars data) >>= digest) = .ok (md5 data) ∧
      (md.computeStream (ifstream data) >>= digest) = .ok (md5 data) := by
  obtain ⟨md', hcompute, hdigest⟩ := compute_digest h data
  obtain ⟨md'', hstream, hdigest'⟩ := computeStream_digest md h data
  refine ⟨?_, ?_, ?_⟩
  · rw [hcompute]
    exact hdigest
  · rw [computeString, ofChars_chars, hcompute]
    exact hdigest
  · rw [hstream]
    exact hdigest'

theorem compute_standard_abc :
    (new.compute [97, 98, 99] >>= digest) = .ok (md5 [97, 98, 99]) ∧
      (new.computeString (chars [97, 98, 99]) >>= digest) = .ok (md5 [97, 98, 99]) ∧
      (new.computeStream (ifstream [97, 98, 99]) >>= digest) = .ok (md5 [97, 98, 99]) :=
  compute_standard new rfl [97, 98, 99]

/-! ### Pieces -/

/-- The buffer after a piece has completed the block in it: the bytes copied to the front are
those of the piece's own length modulo 64, and the completed block is behind them. -/
def front (m piece : Data) : Data :=
  let block := residue 64 m ++ piece.take (64 - m.length % 64)
  let tail := piece.drop (piece.length - piece.length % 64)
  overwrite block 0 tail

/-- What the state stands for after a piece. -/
def retained (m piece : Data) : Data :=
  if m.length % 64 + piece.length < 64 then m ++ piece
  else blocks 64 (m ++ piece) ++ (front m piece).take ((m ++ piece).length % 64)

/-- The piece begins with a block, or does not reach the end of one, or the bytes at the front of
the buffer are those behind the last block. -/
def Fits (m piece : Data) : Prop :=
  64 ∣ m.length ∨ m.length % 64 + piece.length < 64 ∨
    (front m piece).take ((m ++ piece).length % 64) = residue 64 (m ++ piece)

/-- Each piece fits to what is before it. -/
def Fitting : Data → List Data → Prop
  | _, [] => True
  | m, piece :: pieces => Fits m piece ∧ Fitting (m ++ piece) pieces

variable {m piece : Data} {md : MD5}

theorem retained_of_lt (h : m.length % 64 + piece.length < 64) : retained m piece = m ++ piece :=
  if_pos h

/-- The piece begins with a block. -/
theorem retained_of_dvd (h : 64 ∣ m.length) : retained m piece = m ++ piece := by
  have hmod : m.length % 64 = 0 := Nat.mod_eq_zero_of_dvd h
  have hlength : (m ++ piece).length % 64 = piece.length % 64 := by
    rw [List.length_append]
    omega
  have htail : piece.drop (piece.length - piece.length % 64) = residue 64 piece := by
    rw [residue]
    congr 1
    omega
  unfold retained front
  split
  · rfl
  · simp only [htail, hlength]
    rw [take_overwrite (Nat.zero_le _) (by rw [length_residue, Nat.zero_add]), List.take_zero,
      List.nil_append, ← residue_append 64 h, blocks_append_residue]

theorem length_block (hpiece : 64 ≤ m.length % 64 + piece.length) :
    (residue 64 m ++ piece.take (64 - m.length % 64)).length = 64 := by
  have hmod := Nat.mod_lt m.length (show 64 > 0 by decide)
  rw [List.length_append, length_residue, List.length_take]
  omega

theorem length_front (hpiece : 64 ≤ m.length % 64 + piece.length) :
    (front m piece).length = 64 := by
  have hmod := Nat.mod_lt piece.length (show 64 > 0 by decide)
  have hblock := length_block hpiece
  unfold front
  rw [length_overwrite (by rw [hblock, List.length_drop]; omega), hblock]

theorem length_retained : (retained m piece).length = (m ++ piece).length := by
  unfold retained
  split
  · rfl
  next hcross =>
    have hmod := Nat.mod_lt (m ++ piece).length (show 64 > 0 by decide)
    rw [List.length_append, length_blocks, List.length_take, length_front (Nat.not_lt.mp hcross),
      Nat.min_eq_left hmod.le, Nat.div_add_mod']

/-- The piece completes the block in the buffer. -/
theorem Represents.update_crossing (h : md.Represents m) (hm : m.length % 64 ≠ 0)
    (hpiece : 64 ≤ m.length % 64 + piece.length) :
    ∃ md', md.update piece = .ok md' ∧ md'.Represents (retained m piece) := by
  let r := m.length % 64
  have hr : r < 64 := Nat.mod_lt _ (by decide)
  let block := residue 64 m ++ piece.take (64 - r)
  have hblock : block.length = 64 := length_block hpiece
  have hbuffer : overwrite md.buffer r (piece.take (64 - r)) = block := by
    rw [overwrite_end (by rw [List.length_take, h.buffer_length]; omega), h.buffered]
  have hchain : chain 64 Md5.compress Md5.initial (m ++ piece) = chain 64 Md5.compress
      (Md5.compress md.registers block) (piece.drop (64 - r)) := by
    rw [chain_append_residue 64 Md5.compress (by decide), ← h.registers,
      ← List.take_append_drop (64 - r) piece, ← List.append_assoc,
      chain_append 64 Md5.compress (by decide) (hblock.symm.dvd),
      chain_block 64 Md5.compress (by decide) hblock, List.take_append_drop]
  let rest := (front m piece).take ((m ++ piece).length % 64)
  have hlt : rest.length < 64 := by
    have hmod := Nat.mod_lt (m ++ piece).length (show 64 > 0 by decide)
    rw [List.length_take]
    omega
  have hretained : retained m piece = blocks 64 (m ++ piece) ++ rest := if_neg (by omega)
  unfold MD5.update
  simp only [h.valid, h.bufferSize, Bool.false_eq_true, if_false]
  rw [if_neg (by omega), if_pos hm]
  simp only
  rw [transformAll_eq (Nat.div_le_self _ _), hbuffer]
  refine ⟨_, rfl, ?_, ?_, ?_, ?_, ?_⟩
  · rw [hretained, chain_blocks_append 64 Md5.compress hlt, hchain, transform_registers,
      List.take_of_length_le hblock.le]
  · rw [length_retained, hretained, residue_blocks_append 64 hlt, transform_buffer]
    rfl
  · rw [transform_buffer]
    exact length_front hpiece
  · rw [length_retained, List.length_append, UInt64.ofNat_add, h.size]
  · rw [transform_valid]

theorem Represents.update_retained (h : md.Represents m) (piece : Data) :
    ∃ md', md.update piece = .ok md' ∧ md'.Represents (retained m piece) := by
  by_cases hm : m.length % 64 = 0
  · have hdvd : 64 ∣ m.length := Nat.dvd_of_mod_eq_zero hm
    rw [retained_of_dvd hdvd]
    exact h.update piece (.inl hdvd)
  · by_cases hshort : m.length % 64 + piece.length < 64
    · rw [retained_of_lt hshort]
      exact h.update piece (.inr hshort)
    · exact h.update_crossing hm (Nat.le_of_not_lt hshort)

/-- What all pieces together stand for. -/
def fed (pieces : List Data) : Data := pieces.foldl retained []

/-- `reset`, `update` on each piece, `finalize` and `digest`. -/
def digestPieces (md : MD5) (pieces : List Data) : Except ChecksumError Data := do
  let md ← pieces.foldlM update md.reset
  md.finalize.digest

theorem Represents.foldlM (h : md.Represents m) (pieces : List Data) :
    ∃ md', pieces.foldlM MD5.update md = .ok md' ∧ md'.Represents (pieces.foldl retained m) := by
  induction pieces generalizing md m with
  | nil => exact ⟨md, rfl, h⟩
  | cons piece pieces ih =>
    obtain ⟨md₁, hupdate, h₁⟩ := h.update_retained piece
    obtain ⟨md', hfold, h'⟩ := ih h₁
    refine ⟨md', ?_, h'⟩
    rw [List.foldlM_cons, hupdate]
    exact hfold

theorem digestPieces_eq (h : md.buffer.length = 64) (pieces : List Data) :
    md.digestPieces pieces = .ok (md5 (fed pieces)) := by
  obtain ⟨md', hfold, h'⟩ := (represents_reset h).foldlM pieces
  rw [digestPieces, hfold]
  exact h'.finalize

/-! ### Pieces that fit -/

theorem Fits.retained (h : Fits m piece) : retained m piece = m ++ piece := by
  rcases h with hbegin | hshort | hfront
  · exact retained_of_dvd hbegin
  · exact retained_of_lt hshort
  · unfold MD5.retained
    split
    · rfl
    · rw [hfront, blocks_append_residue]

theorem fits_of_retained (h : retained m piece = m ++ piece) : Fits m piece := by
  by_cases hshort : m.length % 64 + piece.length < 64
  · exact .inr (.inl hshort)
  · refine .inr (.inr (@List.append_cancel_left _ (blocks 64 (m ++ piece)) _ _ ?_))
    rw [blocks_append_residue]
    unfold retained at h
    rwa [if_neg hshort] at h

/-- The piece ends with a block. -/
theorem fits_of_dvd_append (h : 64 ∣ (m ++ piece).length) : Fits m piece := by
  have hmod : (m ++ piece).length % 64 = 0 := Nat.mod_eq_zero_of_dvd h
  refine .inr (.inr ?_)
  rw [hmod, List.take_zero]
  symm
  apply List.eq_nil_of_length_eq_zero
  rw [length_residue, hmod]

theorem prefix_retained : m <+: retained m piece := by
  unfold retained
  split
  · exact List.prefix_append m piece
  next hcross =>
    have hle : m.length ≤ (m ++ piece).length / 64 * 64 := by
      rw [List.length_append]
      omega
    rw [blocks, List.take_append, List.take_of_length_le hle, List.append_assoc]
    exact List.prefix_append m _

theorem prefix_foldl_retained {pieces : List Data} : m <+: pieces.foldl retained m := by
  induction pieces generalizing m with
  | nil => exact List.prefix_rfl
  | cons piece pieces ih => exact prefix_retained.trans ih

/-- Once other bytes are hashed than those of the whole, it stays so. -/
theorem foldl_retained_iff {pieces : List Data} :
    pieces.foldl retained m = m ++ pieces.flatten ↔ Fitting m pieces := by
  induction pieces generalizing m with
  | nil => simp [Fitting]
  | cons piece pieces ih =>
    rw [List.foldl_cons, List.flatten_cons, ← List.append_assoc, Fitting]
    constructor
    · intro heq
      have hprefix : retained m piece <+: m ++ piece ++ pieces.flatten :=
        heq ▸ prefix_foldl_retained
      have hretained : retained m piece = m ++ piece := by
        rw [List.prefix_iff_eq_take.mp hprefix, length_retained, List.take_left]
      rw [hretained] at heq
      exact ⟨fits_of_retained hretained, ih.mp heq⟩
    · rintro ⟨hpiece, hpieces⟩
      rw [hpiece.retained]
      exact ih.mpr hpieces

theorem fed_eq_flatten_iff {pieces : List Data} :
    fed pieces = pieces.flatten ↔ Fitting [] pieces :=
  foldl_retained_iff

/-- Pieces that fit have the digest of the whole. Where one does not, other bytes are hashed. -/
theorem digestPieces_of_fitting (md md' : MD5) (h : md.buffer.length = 64)
    (h' : md'.buffer.length = 64) (pieces : List Data) :
    (Fitting [] pieces → md.digestPieces pieces = (md'.compute pieces.flatten >>= digest)) ∧
      (¬Fitting [] pieces → fed pieces ≠ pieces.flatten ∧
        md.digestPieces pieces = .ok (md5 (fed pieces))) := by
  obtain ⟨md₁, hcompute, hdigest⟩ := compute_digest h' pieces.flatten
  have hwhole : (md'.compute pieces.flatten >>= digest) = .ok (md5 pieces.flatten) := by
    rw [hcompute]
    exact hdigest
  refine ⟨fun hfit => ?_, fun hnot => ⟨fun heq => hnot (fed_eq_flatten_iff.mp heq), ?_⟩⟩
  · rw [digestPieces_eq h, hwhole, fed_eq_flatten_iff.mpr hfit]
  · exact digestPieces_eq h pieces

/-- The second piece ends with a block, and the last one is longer than one. -/
theorem digestPieces_of_fitting_blocks :
    new.digestPieces [[97, 98], List.replicate 62 0, [], List.replicate 65 1] =
      (new.compute ([97, 98] ++ (List.replicate 62 0 ++ List.replicate 65 1)) >>= digest) := by
  refine (digestPieces_of_fitting new new rfl rfl
    [[97, 98], List.replicate 62 0, [], List.replicate 65 1]).1 ⟨?_, ?_, ?_, ?_, trivial⟩
  · exact .inl (by decide)
  · exact fits_of_dvd_append (by decide)
  · exact .inl (by decide)
  · exact .inl (by decide)

/-- A byte and then 64 more: the last of them is not copied. -/
theorem not_digestPieces_oneBlock :
    ¬∀ (md md' : MD5) (pieces : List Data), md.buffer.length = 64 → md'.buffer.length = 64 →
      md.digestPieces pieces = (md'.compute pieces.flatten >>= digest) := by
  intro h
  obtain ⟨md', hcompute, hdigest⟩ := @compute_digest new rfl [[1], List.replicate 64 0].flatten
  have heq := h new new [[1], List.replicate 64 0] rfl rfl
  rw [digestPieces_eq rfl, hcompute] at heq
  have hsame := heq.trans hdigest
  rw [Except.ok.injEq] at hsame
  exact absurd hsame (by decide +kernel)

end MD5

end Course.Rdt
