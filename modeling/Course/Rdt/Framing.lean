import Course.Rdt.Channel
import Course.Rdt.Crc32

/-! The frames of the RDT Lab channel on the wire: a checksum, the try count, the
time of departure and the message. -/

open Course.Lib LittleEndian

namespace Course.Rdt

namespace CRC32

/-- The value of the checksum, as its bytes are laid out in a digest. -/
def value (data : Data) : UInt32 := data.foldl byteStep 0xffffffff ^^^ 0xffffffff

def digestOf (data : Data) : Data :=
  [(value data >>> 24).toUInt8, (value data >>> 16).toUInt8, (value data >>> 8).toUInt8,
    (value data).toUInt8]

theorem digest_compute (c : CRC32) (data : Data) : (c.compute data).digest = .ok (digestOf data) := rfl

@[simp] theorem length_digestOf (data : Data) : (digestOf data).length = 4 := rfl

end CRC32

namespace Channel

structure Header where
  valid : Bool
  checksum : UInt32
  tries : UInt32
  timestamp : Int64
  deriving DecidableEq

/-- Bytes written over those at `offset`. -/
def write (data : Data) (offset : ℕ) (value : Data) : Data :=
  data.take offset ++ value ++ data.drop (offset + value.length)

def read (data : Data) (offset width : ℕ) : ℕ := ofBytes ((data.drop offset).take width)

def headerSize : ℕ := 4 + 4 + 8

/-- `now` is the time since the epoch in milliseconds. -/
def encode (data : Data) (tries : ℕ) (now : Int64) : Except ChecksumError Data := do
  let header := List.replicate headerSize 0
  let header := write header 4 (toBytes 4 (UInt32.ofNat tries).toNat)
  let header := write header 8 (toBytes 8 now.toUInt64.toNat)
  let header := header ++ data
  let digest ← (CRC32.new.compute (header.drop 4)).digest
  return write header 0 (toBytes 4 (ofBytes digest))

/-- The header, and the data as it leaves it. -/
def decode (data : Data) : Except ChecksumError (Header × Data) :=
  if data.length < headerSize then .ok (⟨false, 0, 0, 0⟩, data)
  else do
    let checksum := UInt32.ofNat (read data 0 4)
    let tries := UInt32.ofNat (read data 4 4)
    let timestamp := (UInt64.ofNat (read data 8 8)).toInt64
    let digest ← (CRC32.new.compute (data.drop 4)).digest
    if checksum ≠ .ofNat (ofBytes digest) then return (⟨false, 0, 0, 0⟩, data)
    return (⟨true, checksum, tries, timestamp⟩, data.drop headerSize)

/-- The part of a frame that its checksum covers. -/
def body (data : Data) (tries : UInt32) (timestamp : Int64) : Data :=
  toBytes 4 tries.toNat ++ toBytes 8 timestamp.toUInt64.toNat ++ data

theorem write_append {a b c value : Data} (h : value.length = b.length) :
    write (a ++ b ++ c) a.length value = a ++ value ++ c := by
  have htake : (a ++ b ++ c).take a.length = a := by rw [List.append_assoc, List.take_left]
  have hdrop : (a ++ b ++ c).drop (a.length + b.length) = c := by
    rw [← List.length_append, List.drop_left]
  rw [write, h, htake, hdrop]

theorem encode_eq (data : Data) (tries : ℕ) (now : Int64) :
    encode data tries now =
      .ok (CRC32.digestOf (body data (.ofNat tries) now) ++ body data (.ofNat tries) now) := by
  let zeros (n : ℕ) : Data := List.replicate n 0
  have htries : write (List.replicate headerSize 0) 4 (toBytes 4 (UInt32.ofNat tries).toNat) =
      zeros 4 ++ toBytes 4 (UInt32.ofNat tries).toNat ++ zeros 8 :=
    write_append (a := zeros 4) (b := zeros 4) (c := zeros 8) (length_toBytes ..)
  have hnow : write (zeros 4 ++ toBytes 4 (UInt32.ofNat tries).toNat ++ zeros 8) 8
      (toBytes 8 now.toUInt64.toNat) =
      zeros 4 ++ toBytes 4 (UInt32.ofNat tries).toNat ++ toBytes 8 now.toUInt64.toNat := by
    have hwrite := write_append (a := zeros 4 ++ toBytes 4 (UInt32.ofNat tries).toNat)
      (b := zeros 8) (c := []) (length_toBytes 8 now.toUInt64.toNat)
    rwa [List.append_nil, List.append_nil] at hwrite
  have hbody : zeros 4 ++ toBytes 4 (UInt32.ofNat tries).toNat ++
      toBytes 8 now.toUInt64.toNat ++ data = zeros 4 ++ body data (.ofNat tries) now := by
    simp only [body, List.append_assoc]
  have hdigest : toBytes 4 (ofBytes (CRC32.digestOf (body data (.ofNat tries) now))) =
      CRC32.digestOf (body data (.ofNat tries) now) := toBytes_ofBytes (CRC32.digestOf _)
  have hwhole := write_append (a := []) (b := zeros 4) (c := body data (.ofNat tries) now)
    (CRC32.length_digestOf (body data (.ofNat tries) now))
  simp only [encode, htries, hnow, hbody]
  rw [show (zeros 4 ++ body data (.ofNat tries) now).drop 4 = body data (.ofNat tries) now from
    rfl, CRC32.digest_compute]
  change Except.ok (write _ 0 (toBytes 4 _)) = _
  rw [hdigest]
  exact congrArg Except.ok hwhole

theorem ofBytes_lt_of_length {bytes : Data} {n : ℕ} (h : bytes.length = n) :
    ofBytes bytes < 256 ^ n := h ▸ ofBytes_lt bytes

/-- What `decode` makes of a frame that is long enough, by its digest. -/
theorem decode_eq {d : Data} (h : headerSize ≤ d.length) :
    decode d =
      .ok (if d.take 4 = CRC32.digestOf (d.drop 4) then
          (⟨true, .ofNat (read d 0 4), .ofNat (read d 4 4), (UInt64.ofNat (read d 8 8)).toInt64⟩,
            d.drop headerSize)
        else (⟨false, 0, 0, 0⟩, d)) := by
  have hlength : (d.take 4).length = 4 := by
    rw [List.length_take]
    unfold headerSize at h
    omega
  have hsame : UInt32.ofNat (read d 0 4) = .ofNat (ofBytes (CRC32.digestOf (d.drop 4))) ↔
      d.take 4 = CRC32.digestOf (d.drop 4) := by
    constructor
    · intro hofNat
      have hread : read d 0 4 < 2 ^ 32 := ofBytes_lt_of_length hlength
      have hdigest : ofBytes (CRC32.digestOf (d.drop 4)) < 2 ^ 32 :=
        ofBytes_lt_of_length (CRC32.length_digestOf _)
      have hnat := congrArg UInt32.toNat hofNat
      rw [UInt32.toNat_ofNat', UInt32.toNat_ofNat', Nat.mod_eq_of_lt hread,
        Nat.mod_eq_of_lt hdigest] at hnat
      rw [← toBytes_ofBytes (d.take 4), ← toBytes_ofBytes (CRC32.digestOf (d.drop 4)), hlength,
        CRC32.length_digestOf]
      exact congrArg (toBytes 4) hnat
    · intro htake
      exact congrArg (fun bytes => UInt32.ofNat (ofBytes bytes)) htake
  rw [decode, if_neg (by omega), CRC32.digest_compute]
  change (if UInt32.ofNat (read d 0 4) ≠ _ then _ else _) = _
  by_cases hvalid : d.take 4 = CRC32.digestOf (d.drop 4)
  · rw [if_pos hvalid, if_neg (not_not.mpr (hsame.mpr hvalid))]
    rfl
  · rw [if_neg hvalid, if_pos fun h => hvalid (hsame.mp h)]
    rfl

/-- A frame as it is rebuilt from what `decode` returned. -/
def rebuild (h : Header) (payload : Data) : Data :=
  toBytes 4 h.checksum.toNat ++ toBytes 4 h.tries.toNat ++ toBytes 8 h.timestamp.toUInt64.toNat ++
    payload

/-- The fields of a frame are its bytes. -/
theorem rebuild_read {d : Data} (h : headerSize ≤ d.length) (valid : Bool) :
    rebuild ⟨valid, .ofNat (read d 0 4), .ofNat (read d 4 4),
      (UInt64.ofNat (read d 8 8)).toInt64⟩ (d.drop headerSize) = d := by
  have hfield : ∀ offset width, offset + width ≤ headerSize →
      ((d.drop offset).take width).length = width := by
    intro offset width hle
    rw [List.length_take, List.length_drop]
    omega
  have h4 : ∀ offset, offset + 4 ≤ headerSize →
      toBytes 4 (UInt32.ofNat (read d offset 4)).toNat = (d.drop offset).take 4 := by
    intro offset hle
    have hlt : read d offset 4 < 2 ^ 32 := ofBytes_lt_of_length (hfield offset 4 hle)
    rw [UInt32.toNat_ofNat', Nat.mod_eq_of_lt hlt]
    have hbytes := toBytes_ofBytes ((d.drop offset).take 4)
    rwa [hfield offset 4 hle] at hbytes
  have h8 : toBytes 8 (UInt64.ofNat (read d 8 8)).toInt64.toUInt64.toNat = (d.drop 8).take 8 := by
    have hlt : read d 8 8 < 2 ^ 64 := ofBytes_lt_of_length (hfield 8 8 (by decide))
    rw [UInt64.toUInt64_toInt64, UInt64.toNat_ofNat', Nat.mod_eq_of_lt hlt]
    have hbytes := toBytes_ofBytes ((d.drop 8).take 8)
    rwa [hfield 8 8 (by decide)] at hbytes
  have hcut : ∀ offset width, (d.drop offset).take width ++ d.drop (offset + width) =
      d.drop offset := by
    intro offset width
    rw [← List.drop_drop, List.take_append_drop]
  simp only [rebuild, h4 0 (by decide), h4 4 (by decide), h8, List.append_assoc]
  exact (congrArg (_ ++ ·) ((congrArg (_ ++ ·) (hcut 8 8)).trans (hcut 4 4))).trans (hcut 0 4)

/-- Encoding the fields that were read gives the body back, under its own digest. -/
theorem encode_rebuild {d : Data} (h : headerSize ≤ d.length) :
    encode (d.drop headerSize) (UInt32.ofNat (read d 4 4)).toNat
      (UInt64.ofNat (read d 8 8)).toInt64 = .ok (CRC32.digestOf (d.drop 4) ++ d.drop 4) := by
  have hbody : body (d.drop headerSize) (.ofNat (read d 4 4))
      (UInt64.ofNat (read d 8 8)).toInt64 = d.drop 4 := by
    have hframe := congrArg (List.drop 4) (rebuild_read h true)
    simpa only [rebuild, List.append_assoc, body, List.drop_left' (length_toBytes 4 _)]
      using hframe
  rw [encode_eq, UInt32.ofNat_toNat, hbody]

theorem read_append {a b c : Data} {offset width : ℕ} (ha : a.length = offset)
    (hb : b.length = width) : read (a ++ b ++ c) offset width = ofBytes b := by
  rw [read, ← ha, ← hb, List.append_assoc, List.drop_left, List.take_left]

/-- The fields of an encoded frame. -/
theorem decode_encoded (data : Data) (tries : UInt32) (now : Int64) :
    ∃ checksum, decode (CRC32.digestOf (body data tries now) ++ body data tries now) =
      .ok (⟨true, checksum, tries, now⟩, data) := by
  generalize hdigest : CRC32.digestOf (body data tries now) = digest
  have hlength : digest.length = 4 := by rw [← hdigest, CRC32.length_digestOf]
  have htries : UInt32.ofNat (read (digest ++ body data tries now) 4 4) = tries := by
    have hread := read_append (c := toBytes 8 now.toUInt64.toNat ++ data) hlength
      (length_toBytes 4 tries.toNat)
    have hlt : tries.toNat < 256 ^ 4 := tries.toNat_lt
    rw [body, List.append_assoc (toBytes 4 _), ← List.append_assoc digest, hread, ofBytes_toBytes,
      Nat.mod_eq_of_lt hlt, UInt32.ofNat_toNat]
  have hnow : (UInt64.ofNat (read (digest ++ body data tries now) 8 8)).toInt64 = now := by
    have hfields : (digest ++ toBytes 4 tries.toNat).length = 8 := by
      rw [List.length_append, hlength, length_toBytes]
    have hread := read_append (c := data) hfields (length_toBytes 8 now.toUInt64.toNat)
    have hlt : now.toUInt64.toNat < 256 ^ 8 := now.toUInt64.toNat_lt
    rw [body, ← List.append_assoc, ← List.append_assoc, hread, ofBytes_toBytes,
      Nat.mod_eq_of_lt hlt, UInt64.ofNat_toNat, Int64.toInt64_toUInt64]
  have hdrop : (digest ++ body data tries now).drop headerSize = data := by
    have hheader : (digest ++ (toBytes 4 tries.toNat ++ toBytes 8 now.toUInt64.toNat)).length =
        headerSize := by
      simp [hlength, headerSize]
    rw [body, ← List.append_assoc, ← hheader, List.drop_left]
  have hlong : headerSize ≤ (digest ++ body data tries now).length := by
    simp only [body, List.length_append, hlength, length_toBytes, headerSize]
    omega
  have htake : (digest ++ body data tries now).take 4 = digest := by
    rw [← hlength, List.take_left]
  have hbody : (digest ++ body data tries now).drop 4 = body data tries now := by
    rw [← hlength, List.drop_left]
  rw [decode_eq hlong, htake, hbody, hdigest, if_pos rfl, htries, hnow, hdrop]
  exact ⟨_, rfl⟩

/-- A frame is decoded to what was encoded; what is accepted is what is long
enough and carries the digest of its body, and it is the frame of the fields and
the payload that were read from it. -/
theorem framing :
    (∀ (data : Data) (tries : ℕ) (now : Int64), ∃ frame h, encode data tries now = .ok frame ∧
      decode frame = .ok (h, data) ∧ h.valid = true ∧ h.tries.toNat = tries % 2 ^ 32 ∧
      h.timestamp = now) ∧
    ∀ d : Data, ∃ h payload, decode d = .ok (h, payload) ∧
      (h.valid = true ↔ 16 ≤ d.length ∧ (CRC32.new.compute (d.drop 4)).digest = .ok (d.take 4)) ∧
      (h.valid = true → rebuild h payload = d ∧
        encode payload h.tries.toNat h.timestamp = .ok d) := by
  refine ⟨fun data tries now => ?_, fun d => ?_⟩
  · obtain ⟨checksum, hdecode⟩ := decode_encoded data (.ofNat tries) now
    exact ⟨_, _, encode_eq data tries now, hdecode, rfl, UInt32.toNat_ofNat', rfl⟩
  · rw [CRC32.digest_compute]
    rcases Nat.lt_or_ge d.length headerSize with hshort | hlong
    · have hshort' : ¬16 ≤ d.length := Nat.not_le.mpr hshort
      refine ⟨⟨false, 0, 0, 0⟩, d, by rw [decode, if_pos hshort], ?_, fun h => by cases h⟩
      simp [hshort']
    · by_cases hvalid : d.take 4 = CRC32.digestOf (d.drop 4)
      · have hframe := rebuild_read hlong true
        refine ⟨_, _, (decode_eq hlong).trans (by rw [if_pos hvalid]), ?_, fun _ => ⟨hframe, ?_⟩⟩
        · simp [← hvalid, show 16 ≤ d.length from hlong]
        · exact (encode_rebuild hlong).trans (congrArg _ (by rw [← hvalid, List.take_append_drop]))
      · refine ⟨_, _, (decode_eq hlong).trans (by rw [if_neg hvalid]), ?_, fun h => by cases h⟩
        simp [eq_comm, hvalid]

end Channel

end Course.Rdt
