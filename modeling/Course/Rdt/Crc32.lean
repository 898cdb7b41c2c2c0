import Course.Lib.Crc
import Course.Rdt.Checksum

/-! The RDT Lab CRC32, which takes a byte at a time from a table. -/

open Course.Lib

namespace Course.Rdt

structure CRC32 where
  mCRC : UInt32
  mValid : Bool

namespace CRC32

def table : Array UInt32 :=
  #[
    0x00000000, 0x04c11db7, 0x09823b6e, 0x0d4326d9, 0x130476dc, 0x17c56b6b, 0x1a864db2, 0x1e475005,
    0x2608edb8, 0x22c9f00f, 0x2f8ad6d6, 0x2b4bcb61, 0x350c9b64, 0x31cd86d3, 0x3c8ea00a, 0x384fbdbd,
    0x4c11db70, 0x48d0c6c7, 0x4593e01e, 0x4152fda9, 0x5f15adac, 0x5bd4b01b, 0x569796c2, 0x52568b75,
    0x6a1936c8, 0x6ed82b7f, 0x639b0da6, 0x675a1011, 0x791d4014, 0x7ddc5da3, 0x709f7b7a, 0x745e66cd,
    0x9823b6e0, 0x9ce2ab57, 0x91a18d8e, 0x95609039, 0x8b27c03c, 0x8fe6dd8b, 0x82a5fb52, 0x8664e6e5,
    0xbe2b5b58, 0xbaea46ef, 0xb7a96036, 0xb3687d81, 0xad2f2d84, 0xa9ee3033, 0xa4ad16ea, 0xa06c0b5d,
    0xd4326d90, 0xd0f37027, 0xddb056fe, 0xd9714b49, 0xc7361b4c, 0xc3f706fb, 0xceb42022, 0xca753d95,
    0xf23a8028, 0xf6fb9d9f, 0xfbb8bb46, 0xff79a6f1, 0xe13ef6f4, 0xe5ffeb43, 0xe8bccd9a, 0xec7dd02d,
    0x34867077, 0x30476dc0, 0x3d044b19, 0x39c556ae, 0x278206ab, 0x23431b1c, 0x2e003dc5, 0x2ac12072,
    0x128e9dcf, 0x164f8078, 0x1b0ca6a1, 0x1fcdbb16, 0x018aeb13, 0x054bf6a4, 0x0808d07d, 0x0cc9cdca,
    0x7897ab07, 0x7c56b6b0, 0x71159069, 0x75d48dde, 0x6b93dddb, 0x6f52c06c, 0x6211e6b5, 0x66d0fb02,
    0x5e9f46bf, 0x5a5e5b08, 0x571d7dd1, 0x53dc6066, 0x4d9b3063, 0x495a2dd4, 0x44190b0d, 0x40d816ba,
    0xaca5c697, 0xa864db20, 0xa527fdf9, 0xa1e6e04e, 0xbfa1b04b, 0xbb60adfc, 0xb6238b25, 0xb2e29692,
    0x8aad2b2f, 0x8e6c3698, 0x832f1041, 0x87ee0df6, 0x99a95df3, 0x9d684044, 0x902b669d, 0x94ea7b2a,
    0xe0b41de7, 0xe4750050, 0xe9362689, 0xedf73b3e, 0xf3b06b3b, 0xf771768c, 0xfa325055, 0xfef34de2,
    0xc6bcf05f, 0xc27dede8, 0xcf3ecb31, 0xcbffd686, 0xd5b88683, 0xd1799b34, 0xdc3abded, 0xd8fba05a,
    0x690ce0ee, 0x6dcdfd59, 0x608edb80, 0x644fc637, 0x7a089632, 0x7ec98b85, 0x738aad5c, 0x774bb0eb,
    0x4f040d56, 0x4bc510e1, 0x46863638, 0x42472b8f, 0x5c007b8a, 0x58c1663d, 0x558240e4, 0x51435d53,
    0x251d3b9e, 0x21dc2629, 0x2c9f00f0, 0x285e1d47, 0x36194d42, 0x32d850f5, 0x3f9b762c, 0x3b5a6b9b,
    0x0315d626, 0x07d4cb91, 0x0a97ed48, 0x0e56f0ff, 0x1011a0fa, 0x14d0bd4d, 0x19939b94, 0x1d528623,
    0xf12f560e, 0xf5ee4bb9, 0xf8ad6d60, 0xfc6c70d7, 0xe22b20d2, 0xe6ea3d65, 0xeba91bbc, 0xef68060b,
    0xd727bbb6, 0xd3e6a601, 0xdea580d8, 0xda649d6f, 0xc423cd6a, 0xc0e2d0dd, 0xcda1f604, 0xc960ebb3,
    0xbd3e8d7e, 0xb9ff90c9, 0xb4bcb610, 0xb07daba7, 0xae3afba2, 0xaafbe615, 0xa7b8c0cc, 0xa379dd7b,
    0x9b3660c6, 0x9ff77d71, 0x92b45ba8, 0x9675461f, 0x8832161a, 0x8cf30bad, 0x81b02d74, 0x857130c3,
    0x5d8a9099, 0x594b8d2e, 0x5408abf7, 0x50c9b640, 0x4e8ee645, 0x4a4ffbf2, 0x470cdd2b, 0x43cdc09c,
    0x7b827d21, 0x7f436096, 0x7200464f, 0x76c15bf8, 0x68860bfd, 0x6c47164a, 0x61043093, 0x65c52d24,
    0x119b4be9, 0x155a565e, 0x18197087, 0x1cd86d30, 0x029f3d35, 0x065e2082, 0x0b1d065b, 0x0fdc1bec,
    0x3793a651, 0x3352bbe6, 0x3e119d3f, 0x3ad08088, 0x2497d08d, 0x2056cd3a, 0x2d15ebe3, 0x29d4f654,
    0xc5a92679, 0xc1683bce, 0xcc2b1d17, 0xc8ea00a0, 0xd6ad50a5, 0xd26c4d12, 0xdf2f6bcb, 0xdbee767c,
    0xe3a1cbc1, 0xe760d676, 0xea23f0af, 0xeee2ed18, 0xf0a5bd1d, 0xf464a0aa, 0xf9278673, 0xfde69bc4,
    0x89b8fd09, 0x8d79e0be, 0x803ac667, 0x84fbdbd0, 0x9abc8bd5, 0x9e7d9662, 0x933eb0bb, 0x97ffad0c,
    0xafb010b1, 0xab710d06, 0xa6322bdf, 0xa2f33668, 0xbcb4666d, 0xb8757bda, 0xb5365d03, 0xb1f740b4
  ]

def new : CRC32 := ⟨0, false⟩

def byteStep (mCRC : UInt32) (b : UInt8) : UInt32 :=
  (mCRC <<< 8) ^^^ table.getD ((mCRC >>> 24) ^^^ b.toUInt32).toNat 0

def compute (_ : CRC32) (data : Data) : CRC32 :=
  ⟨data.foldl byteStep 0xffffffff ^^^ 0xffffffff, true⟩

def digest (c : CRC32) : Except ChecksumError Data :=
  if c.mValid then
    .ok [(c.mCRC >>> 24).toUInt8, (c.mCRC >>> 16).toUInt8, (c.mCRC >>> 8).toUInt8, c.mCRC.toUInt8]
  else .error ⟨"CRC32: cannot get digest of uninitialized checksum"⟩

/-! ### The table is eight turns of the register -/

/-- The generator polynomial. -/
def poly : BitVec 32 := 0x04c11db7

/-- The bits of a byte, most significant first. -/
def byteBits (b : UInt8) : List Bool := (List.range 8).map b.toBitVec.getMsbD

def bits (data : Data) : List Bool := data.flatMap byteBits

@[simp] theorem length_byteBits (b : UInt8) : (byteBits b).length = 8 := rfl

theorem bits_cons (b : UInt8) (data : Data) : bits (b :: data) = byteBits b ++ bits data :=
  List.flatMap_cons

theorem length_bits (data : Data) : (bits data).length = 8 * data.length := by
  induction data with
  | nil => rfl
  | cons b data ih =>
    rw [bits_cons, List.length_append, length_byteBits, List.length_cons, ih]
    omega

/-- A byte at the top of the register. -/
def atTop (b : BitVec 8) : BitVec 32 := b.setWidth 32 <<< 24

theorem table_eq : ∀ b : BitVec 8, (table.getD b.toNat 0).toBitVec =
    Crc.feed poly (atTop b) (List.replicate 8 false) := by
  decide +kernel

/-- Feeding a byte is feeding as many zeros with the byte at the top. -/
theorem feed_byteBits : ∀ b : BitVec 8, Crc.feed poly 0 (byteBits ⟨b⟩) =
    Crc.feed poly (atTop b) (List.replicate 8 false) := by
  decide +kernel

theorem atTop_xor (b b' : BitVec 8) : atTop (b ^^^ b') = atTop b ^^^ atTop b' := by
  rw [atTop, BitVec.setWidth_xor, BitVec.shiftLeft_xor_distrib]
  rfl

/-- The register as its top byte and the rest. -/
theorem eq_atTop_xor (c : BitVec 32) : c = atTop (c.extractLsb' 24 8) ^^^ (c <<< 8) >>> 8 := by
  apply BitVec.eq_of_getLsbD_eq
  intro i hi
  simp only [atTop, BitVec.getLsbD_xor, BitVec.getLsbD_shiftLeft, BitVec.getLsbD_setWidth,
    BitVec.getLsbD_extractLsb', BitVec.getLsbD_ushiftRight]
  rcases Nat.lt_or_ge i 24 with hlow | hhigh
  · simp [hlow, hi, show 8 + i < 32 by omega, show 8 + i - 8 = i by omega]
  · simp [show ¬i < 24 by omega, show ¬8 + i < 32 by omega, show i - 24 < 8 by omega,
      show 24 + (i - 24) = i by omega, hi, show i - 24 < 32 by omega]

/-- Eight turns shift the rest and replace the top byte by its word. -/
theorem feed_zeros (c : BitVec 32) : Crc.feed poly c (List.replicate 8 false) =
    (c <<< 8) ^^^ Crc.feed poly (atTop (c.extractLsb' 24 8)) (List.replicate 8 false) := by
  have hrest : Crc.feed poly ((c <<< 8) >>> 8) (List.replicate 8 false) = c <<< 8 := by
    rw [Crc.feed_zeros_of_low]
    · apply BitVec.eq_of_getLsbD_eq
      intro i hi
      simp only [BitVec.getLsbD_shiftLeft, BitVec.getLsbD_ushiftRight]
      rcases Nat.lt_or_ge i 8 with hlow | hhigh
      · simp [hlow]
      · simp [hi, show ¬i < 8 by omega, show 8 + (i - 8) = i by omega]
    · intro i hi
      rw [BitVec.getMsbD_eq_getLsbD, BitVec.getLsbD_ushiftRight, BitVec.getLsbD_shiftLeft]
      simp [show ¬8 + (31 - i) < 32 by omega]
  calc Crc.feed poly c (List.replicate 8 false)
    _ = Crc.feed poly (atTop (c.extractLsb' 24 8) ^^^ (c <<< 8) >>> 8) (List.replicate 8 false) := by
      rw [← eq_atTop_xor]
    _ = Crc.feed poly (atTop (c.extractLsb' 24 8)) (List.replicate 8 false) ^^^ c <<< 8 := by
      rw [Crc.feed_zeros_xor, hrest]
    _ = _ := BitVec.xor_comm ..

/-- The index into the table. -/
theorem toNat_index (c : UInt32) (b : UInt8) : ((c >>> 24) ^^^ b.toUInt32).toNat =
    (c.toBitVec.extractLsb' 24 8 ^^^ b.toBitVec).toNat := by
  have hc := c.toNat_lt
  rw [UInt32.toNat_xor, BitVec.toNat_xor, BitVec.extractLsb'_toNat, UInt32.toNat_shiftRight,
    UInt8.toNat_toUInt32, UInt8.toNat_toBitVec, UInt32.toNat_toBitVec]
  congr 1
  change c.toNat >>> 24 = c.toNat >>> 24 % 2 ^ 8
  rw [Nat.shiftRight_eq_div_pow]
  omega

/-- A step of the loop feeds one byte. -/
theorem byteStep_eq (c : UInt32) (b : UInt8) :
    (byteStep c b).toBitVec = Crc.feed poly c.toBitVec (byteBits b) := by
  rw [Crc.feed_eq_zeros_xor, length_byteBits, feed_zeros, feed_byteBits b.toBitVec,
    BitVec.xor_assoc, ← Crc.feed_zeros_xor, ← atTop_xor, ← table_eq, ← toNat_index]
  rfl

/-- The loop feeds the bits of all bytes. -/
theorem foldl_byteStep (data : Data) (c : UInt32) :
    (data.foldl byteStep c).toBitVec = Crc.feed poly c.toBitVec (bits data) := by
  induction data generalizing c with
  | nil => rfl
  | cons b data ih => rw [List.foldl_cons, ih, byteStep_eq, bits_cons, Crc.feed_append]

end CRC32

end Course.Rdt
