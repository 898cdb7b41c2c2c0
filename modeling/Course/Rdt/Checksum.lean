import Course.Lib.Md5
import Course.Rdt.Protocol

/-! The incremental MD5 of the RDT Lab, and that it computes the standard's
digest of what it was fed. -/

open Course.Lib

namespace Course.Rdt

structure ChecksumError where
  message : String
  deriving DecidableEq

/-- A file opened for reading. -/
structure Ifstream where
  content : Data
  position : ℕ
  eof : Bool
  deriving DecidableEq

def ifstream (content : Data) : Ifstream := ⟨content, 0, false⟩

/-- The bytes that were there; a short read also ends the stream. -/
def Ifstream.read (file : Ifstream) (n : ℕ) : Data × Ifstream :=
  if file.eof then ([], file)
  else
    let data := (file.content.drop file.position).take n
    (data, { file with position := file.position + data.length, eof := decide (data.length < n) })

/-- `registers` holds `mA` to `mD`. -/
structure MD5 where
  registers : Md5.State
  buffer : Data
  size : UInt64
  valid : Bool
  deriving DecidableEq

namespace MD5

def F (x y z : UInt32) : UInt32 := z ^^^ (x &&& (y ^^^ z))

def G (x y z : UInt32) : UInt32 := y ^^^ (z &&& (x ^^^ y))

def H (x y z : UInt32) : UInt32 := x ^^^ y ^^^ z

def I (x y z : UInt32) : UInt32 := y ^^^ (x ||| ~~~z)

def step (f : UInt32 → UInt32 → UInt32 → UInt32) (a b c d x k s : UInt32) : UInt32 :=
  let a := a + (f b c d + x + k)
  let a := a <<< s ||| a >>> (32 - s)
  a + b

/-- The calls of `step` in order: function, word, constant, rotation.  The
first register argument runs through `a`, `d`, `c`, `b` again and again. -/
def steps : List ((UInt32 → UInt32 → UInt32 → UInt32) × ℕ × UInt32 × UInt32) :=
  [(F, 0, 0xd76aa478, 7), (F, 1, 0xe8c7b756, 12), (F, 2, 0x242070db, 17), (F, 3, 0xc1bdceee, 22),
    (F, 4, 0xf57c0faf, 7), (F, 5, 0x4787c62a, 12), (F, 6, 0xa8304613, 17), (F, 7, 0xfd469501, 22),
    (F, 8, 0x698098d8, 7), (F, 9, 0x8b44f7af, 12), (F, 10, 0xffff5bb1, 17), (F, 11, 0x895cd7be, 22),
    (F, 12, 0x6b901122, 7), (F, 13, 0xfd987193, 12), (F, 14, 0xa679438e, 17),
    (F, 15, 0x49b40821, 22),
    (G, 1, 0xf61e2562, 5), (G, 6, 0xc040b340, 9), (G, 11, 0x265e5a51, 14), (G, 0, 0xe9b6c7aa, 20),
    (G, 5, 0xd62f105d, 5), (G, 10, 0x02441453, 9), (G, 15, 0xd8a1e681, 14), (G, 4, 0xe7d3fbc8, 20),
    (G, 9, 0x21e1cde6, 5), (G, 14, 0xc33707d6, 9), (G, 3, 0xf4d50d87, 14), (G, 8, 0x455a14ed, 20),
    (G, 13, 0xa9e3e905, 5), (G, 2, 0xfcefa3f8, 9), (G, 7, 0x676f02d9, 14), (G, 12, 0x8d2a4c8a, 20),
    (H, 5, 0xfffa3942, 4), (H, 8, 0x8771f681, 11), (H, 11, 0x6d9d6122, 16), (H, 14, 0xfde5380c, 23),
    (H, 1, 0xa4beea44, 4), (H, 4, 0x4bdecfa9, 11), (H, 7, 0xf6bb4b60, 16), (H, 10, 0xbebfbc70, 23),
    (H, 13, 0x289b7ec6, 4), (H, 0, 0xeaa127fa, 11), (H, 3, 0xd4ef3085, 16), (H, 6, 0x04881d05, 23),
    (H, 9, 0xd9d4d039, 4), (H, 12, 0xe6db99e5, 11), (H, 15, 0x1fa27cf8, 16), (H, 2, 0xc4ac5665, 23),
    (I, 0, 0xf4292244, 6), (I, 7, 0x432aff97, 10), (I, 14, 0xab9423a7, 15), (I, 5, 0xfc93a039, 21),
    (I, 12, 0x655b59c3, 6), (I, 3, 0x8f0ccc92, 10), (I, 10, 0xffeff47d, 15), (I, 1, 0x85845dd1, 21),
    (I, 8, 0x6fa87e4f, 6), (I, 15, 0xfe2ce6e0, 10), (I, 6, 0xa3014314, 15), (I, 13, 0x4e0811a1, 21),
    (I, 4, 0xf7537e82, 6), (I, 11, 0xbd3af235, 10), (I, 2, 0x2ad7d2bb, 15), (I, 9, 0xeb86d391, 21)]

/-- The local registers after the calls of `step`; the host reads a word with
its low byte first. -/
def runSteps (t : Md5.State) (data : Data) : Md5.State :=
  steps.foldl (fun t (f, i, k, s) =>
    ⟨t.d, step f t.a t.b t.c t.d (Md5.word data i) k s, t.b, t.c⟩) t

def addRegisters (s t : Md5.State) : Md5.State := ⟨s.a + t.a, s.b + t.b, s.c + t.c, s.d + t.d⟩

def transform (md : MD5) (data : Data) : MD5 :=
  { md with registers := addRegisters md.registers (runSteps md.registers data) }

/-- `copy` and `fill_n` into the buffer. -/
def overwrite (buffer : Data) (offset : ℕ) (data : Data) : Data :=
  buffer.take offset ++ data ++ buffer.drop (offset + data.length)

/-- `while (distance(iter, end) >= 64)`, with the turns it may take. -/
def transformAll : ℕ → MD5 → Data → MD5
  | 0, md, _ => md
  | n + 1, md, iter =>
    if 64 ≤ iter.length then transformAll n (md.transform iter) (iter.drop 64) else md

def update (md : MD5) (data : Data) : Except ChecksumError MD5 :=
  if md.valid then .error ⟨"MD5: cannot update finalized checksum"⟩
  else
    let bufferSize := md.size.toNat % 64
    let size := md.size + .ofNat data.length
    if bufferSize + data.length < 64 then
      .ok { md with buffer := overwrite md.buffer bufferSize data, size }
    else
      let (md, iter) :=
        if bufferSize ≠ 0 then
          let buffer := overwrite md.buffer bufferSize (data.take (64 - bufferSize))
          ({ md with buffer }.transform buffer, data.drop (64 - bufferSize))
        else (md, data)
      let md := transformAll iter.length md iter
      -- the tail of `data`, whatever the buffer held before
      let tail := data.drop (data.length - data.length % 64)
      .ok { md with buffer := overwrite md.buffer 0 tail, size }

/-- `finalize` up to the zeros before the length: what it leaves in the buffer
and how far it got there. -/
def mark (md : MD5) : MD5 × ℕ :=
  let bufferSize := md.size.toNat % 64
  let buffer := overwrite md.buffer bufferSize [0x80]
  let bufferSize := bufferSize + 1
  if bufferSize > 56 then
    let buffer := overwrite buffer bufferSize (List.replicate (64 - bufferSize) 0)
    ({ md with buffer }.transform buffer, 0)
  else ({ md with buffer }, bufferSize)

def finalize (md : MD5) : MD5 :=
  let (md, bufferSize) := md.mark
  let buffer := overwrite md.buffer bufferSize (List.replicate (56 - bufferSize) 0)
  let length := (List.range 8).map fun i => (md.size <<< 3 >>> .ofNat (i * 8)).toUInt8
  let buffer := overwrite buffer 56 length
  { { md with buffer }.transform buffer with valid := true }

def reset (md : MD5) : MD5 :=
  { md with
    registers := ⟨0x67452301, 0xefcdab89, 0x98badcfe, 0x10325476⟩, size := 0, valid := false }

/-- The constructor; nothing reads the buffer before it is written. -/
def new : MD5 := reset ⟨Md5.initial, List.replicate 64 0, 0, false⟩

def compute (md : MD5) (data : Data) : Except ChecksumError MD5 := do
  let md ← md.reset.update data
  return md.finalize

/-- `while (file.good())`, with the turns it may take. -/
def updateAll : ℕ → MD5 → Ifstream → Except ChecksumError MD5
  | 0, md, _ => .ok md
  | n + 1, md, file =>
    if file.eof then .ok md
    else do
      let (buffer, file) := file.read 64
      updateAll n (← md.update buffer) file

def computeStream (md : MD5) (file : Ifstream) : Except ChecksumError MD5 := do
  let md ← updateAll (file.content.length + 1) md.reset file
  return md.finalize

def digest (md : MD5) : Except ChecksumError Data :=
  if md.valid then
    .ok ([md.registers.a, md.registers.b, md.registers.c, md.registers.d].flatMap fun r =>
      (List.range 4).map fun j => (r >>> .ofNat (j * 8)).toUInt8)
  else .error ⟨"MD5: cannot get digest of non-finalized checksum"⟩

/-! ### Block transform -/

theorem F_eq : F = Md5.F := by
  funext x y z
  apply UInt32.toBitVec_inj.mp
  apply BitVec.eq_of_getLsbD_eq
  intro i hi
  simp only [F, Md5.F, UInt32.toBitVec_xor, UInt32.toBitVec_and, UInt32.toBitVec_or,
    UInt32.toBitVec_not, BitVec.getLsbD_xor, BitVec.getLsbD_and, BitVec.getLsbD_or,
    BitVec.getLsbD_not, hi]
  cases x.toBitVec.getLsbD i <;> cases z.toBitVec.getLsbD i <;> simp

theorem G_eq : G = Md5.G := by
  funext x y z
  apply UInt32.toBitVec_inj.mp
  apply BitVec.eq_of_getLsbD_eq
  intro i hi
  simp only [G, Md5.G, UInt32.toBitVec_xor, UInt32.toBitVec_and, UInt32.toBitVec_or,
    UInt32.toBitVec_not, BitVec.getLsbD_xor, BitVec.getLsbD_and, BitVec.getLsbD_or,
    BitVec.getLsbD_not, hi]
  cases z.toBitVec.getLsbD i <;> cases y.toBitVec.getLsbD i <;> simp

/-- The 64 calls are the 64 operations of the standard. -/
theorem steps_eq :
    steps = (List.range 64).map fun i =>
      (Md5.auxiliary i, Md5.wordIndex i, Md5.sineTable.getD i 0, Md5.rotation i) := by
  simp only [steps, F_eq, G_eq]
  rfl

theorem word_take {i : ℕ} (h : i < 16) (data : Data) :
    Md5.word (data.take 64) i = Md5.word data i := by
  have htake : ((data.take 64).drop (4 * i)).take 4 = (data.drop (4 * i)).take 4 := by
    rw [List.drop_take, List.take_take, Nat.min_eq_left (by omega)]
  rw [Md5.word, htake, Md5.word]

theorem wordIndex_lt (i : ℕ) : Md5.wordIndex i < 16 := by
  unfold Md5.wordIndex
  split
  · assumption
  · split
    · exact Nat.mod_lt _ (by decide)
    · split <;> exact Nat.mod_lt _ (by decide)

theorem operation_eq (data : Data) (t : Md5.State) (i : ℕ) :
    Md5.operation (data.take 64) t i =
      ⟨t.d, step (Md5.auxiliary i) t.a t.b t.c t.d (Md5.word data (Md5.wordIndex i))
        (Md5.sineTable.getD i 0) (Md5.rotation i), t.b, t.c⟩ := by
  simp only [Md5.operation, step, Md5.rotateLeft, word_take (wordIndex_lt i)]
  congr 1
  rw [UInt32.add_comm, UInt32.add_assoc t.a, UInt32.add_assoc t.a]

theorem runSteps_eq (t : Md5.State) (data : Data) :
    runSteps t data = (List.range 64).foldl (Md5.operation (data.take 64)) t := by
  rw [runSteps, steps_eq, List.foldl_map]
  congr 1
  funext t i
  exact (operation_eq data t i).symm

attribute [irreducible] runSteps

theorem transform_registers (md : MD5) (data : Data) :
    (md.transform data).registers = Md5.compress md.registers (data.take 64) := by
  simp only [transform, runSteps_eq, Md5.compress, addRegisters]

@[simp] theorem transform_buffer (md : MD5) (data : Data) :
    (md.transform data).buffer = md.buffer := by
  rw [transform]

@[simp] theorem transform_size (md : MD5) (data : Data) :
    (md.transform data).size = md.size := by
  rw [transform]

@[simp] theorem transform_valid (md : MD5) (data : Data) :
    (md.transform data).valid = md.valid := by
  rw [transform]

attribute [irreducible] transform

/-- The loop changes the registers only, and compresses every complete block. -/
theorem transformAll_eq {n : ℕ} {data : Data} (h : data.length / 64 ≤ n) (md : MD5) :
    transformAll n md data =
      { md with registers := MerkleDamgard.chain 64 Md5.compress md.registers data } := by
  induction n generalizing md data with
  | zero => simp [transformAll, MerkleDamgard.chain, Nat.le_zero.mp h]
  | succ n ih =>
    rw [transformAll]
    split
    next hlen =>
      have hdiv : (data.drop 64).length / 64 = data.length / 64 - 1 := by
        rw [List.length_drop]
        omega
      have hsucc : data.length / 64 = (data.drop 64).length / 64 + 1 := by
        rw [hdiv]
        omega
      rw [ih (by omega), transform_registers, MerkleDamgard.chain, MerkleDamgard.chain, hsucc,
        MerkleDamgard.absorb]
      simp only [transform_buffer, transform_size, transform_valid]
    next hlen =>
      have hdiv : data.length / 64 = 0 := by omega
      simp [MerkleDamgard.chain, hdiv]

/-! ### What the state stands for -/

/-- Everything fed so far is compressed or waits in the buffer. -/
structure Represents (md : MD5) (m : Data) : Prop where
  registers : md.registers = MerkleDamgard.chain 64 Md5.compress Md5.initial m
  buffered : md.buffer.take (m.length % 64) = MerkleDamgard.residue 64 m
  buffer_length : md.buffer.length = 64
  size : md.size = .ofNat m.length
  valid : md.valid = false

theorem Represents.bufferSize {md : MD5} {m : Data} (h : md.Represents m) :
    md.size.toNat % 64 = m.length % 64 := by
  rw [h.size, UInt64.toNat_ofNat', Nat.mod_mod_of_dvd _ (by decide)]

theorem length_overwrite {buffer data : Data} {offset : ℕ}
    (h : offset + data.length ≤ buffer.length) :
    (overwrite buffer offset data).length = buffer.length := by
  simp only [overwrite, List.length_append, List.length_take, List.length_drop]
  omega

theorem take_overwrite {buffer data : Data} {offset n : ℕ} (h : offset ≤ buffer.length)
    (hn : offset + data.length = n) :
    (overwrite buffer offset data).take n = buffer.take offset ++ data := by
  have hlen : (buffer.take offset ++ data).length = n := by
    rw [List.length_append, List.length_take, Nat.min_eq_left h, hn]
  rw [overwrite, ← hlen, List.take_left]

theorem represents_reset {md : MD5} (h : md.buffer.length = 64) : md.reset.Represents [] where
  registers := rfl
  buffered := rfl
  buffer_length := h
  size := rfl
  valid := rfl

theorem represents_new : new.Represents [] := represents_reset (by decide)

/-- On a block boundary, and below the end of a block, `update` appends. -/
theorem Represents.update {md : MD5} {m : Data} (h : md.Represents m) (data : Data)
    (hd : 64 ∣ m.length ∨ m.length % 64 + data.length < 64) :
    ∃ md', md.update data = .ok md' ∧ md'.Represents (m ++ data) := by
  have hsize : md.size + .ofNat data.length = .ofNat (m ++ data).length := by
    rw [h.size, List.length_append, UInt64.ofNat_add]
  have hmod := Nat.mod_lt m.length (show 64 > 0 by decide)
  unfold MD5.update
  simp only [h.valid, h.bufferSize, hsize, Bool.false_eq_true, if_false]
  by_cases hshort : m.length % 64 + data.length < 64
  · rw [if_pos hshort]
    have hlen : (m ++ data).length % 64 = m.length % 64 + data.length := by
      rw [List.length_append]
      omega
    refine ⟨_, rfl, ?_, ?_, ?_, rfl, rfl⟩
    · rw [MerkleDamgard.chain_append_short 64 Md5.compress hshort, ← h.registers]
    · rw [hlen, take_overwrite (by rw [h.buffer_length]; omega) rfl, h.buffered,
        MerkleDamgard.residue_append_short 64 hshort]
    · rw [length_overwrite (by rw [h.buffer_length]; omega), h.buffer_length]
  · have hdvd : 64 ∣ m.length := hd.resolve_right hshort
    have hzero : m.length % 64 = 0 := Nat.mod_eq_zero_of_dvd hdvd
    rw [if_neg hshort]
    simp only [hzero, ne_eq, not_true_eq_false, if_false]
    rw [transformAll_eq (Nat.div_le_self _ _)]
    have htail : data.drop (data.length - data.length % 64) = MerkleDamgard.residue 64 data := by
      rw [MerkleDamgard.residue]
      congr 1
      omega
    have hres := MerkleDamgard.length_residue 64 data
    have hlen : (m ++ data).length % 64 = data.length % 64 := by
      rw [List.length_append]
      omega
    have hlt := Nat.mod_lt data.length (show 64 > 0 by decide)
    rw [htail]
    refine ⟨_, rfl, ?_, ?_, ?_, rfl, h.valid⟩
    · rw [MerkleDamgard.chain_append 64 Md5.compress (by decide) hdvd, ← h.registers]
    · rw [hlen, take_overwrite (Nat.zero_le _) (by rw [hres, Nat.zero_add]), List.take_zero,
        List.nil_append, MerkleDamgard.residue_append 64 hdvd]
    · rw [length_overwrite (by rw [hres, h.buffer_length]; omega), h.buffer_length]

/-! ### Finalization -/

theorem overwrite_end {buffer data : Data} {offset : ℕ}
    (h : offset + data.length = buffer.length) :
    overwrite buffer offset data = buffer.take offset ++ data := by
  rw [overwrite, List.drop_eq_nil_of_le h.ge, List.append_nil]

theorem shiftRight_toUInt8 (w : UInt64) {i : ℕ} (h : i < 8) :
    (w >>> .ofNat (i * 8)).toUInt8 = .ofNat (w.toNat / 256 ^ i) := by
  apply UInt8.toNat_inj.mp
  have hshift : (UInt64.ofNat (i * 8)).toNat % 64 = i * 8 := by
    rw [UInt64.toNat_ofNat', Nat.mod_mod_of_dvd _ (by decide)]
    omega
  rw [UInt64.toNat_toUInt8, UInt64.toNat_shiftRight, hshift, Nat.shiftRight_eq_div_pow,
    UInt8.toNat_ofNat', Nat.mul_comm, Nat.pow_mul]

/-- The bytes of the length. -/
theorem lengthBytes_eq (n : ℕ) :
    ((List.range 8).map fun i => (UInt64.ofNat n <<< 3 >>> .ofNat (i * 8)).toUInt8) =
      LittleEndian.toBytes 8 (8 * n) := by
  have hshift : (UInt64.ofNat n <<< 3).toNat = 8 * n % 256 ^ 8 := by
    rw [UInt64.toNat_shiftLeft, UInt64.toNat_ofNat', Nat.shiftLeft_eq]
    change n % 2 ^ 64 * 2 ^ 3 % 2 ^ 64 = 8 * n % 256 ^ 8
    omega
  rw [← LittleEndian.toBytes_mod, ← hshift, LittleEndian.toBytes_eq_map]
  apply List.map_congr_left
  intro i hi
  exact shiftRight_toUInt8 _ (List.mem_range.mp hi)

theorem digestBytes_eq (r : UInt32) :
    ((List.range 4).map fun j => (r >>> .ofNat (j * 8)).toUInt8) =
      LittleEndian.toBytes 4 r.toNat := by
  rw [LittleEndian.toBytes_eq_map]
  apply List.map_congr_left
  intro i hi
  have hi := List.mem_range.mp hi
  apply UInt8.toNat_inj.mp
  have hshift : (UInt32.ofNat (i * 8)).toNat % 32 = i * 8 := by
    rw [UInt32.toNat_ofNat', Nat.mod_mod_of_dvd _ (by decide)]
    omega
  rw [UInt32.toNat_toUInt8, UInt32.toNat_shiftRight, hshift, Nat.shiftRight_eq_div_pow,
    UInt8.toNat_ofNat', Nat.mul_comm, Nat.pow_mul]

/-- The mark and, where it leaves no room for the length, one block of zeros. -/
theorem Represents.mark {md : MD5} {m : Data} (h : md.Represents m) :
    ∃ md' k, md.mark = (md', k) ∧ k ≤ 56 ∧ md'.buffer.length = 64 ∧ md'.size = md.size ∧
      ∀ t : Data, MerkleDamgard.chain 64 Md5.compress md'.registers
          (md'.buffer.take k ++ List.replicate (56 - k) 0 ++ t) =
        MerkleDamgard.chain 64 Md5.compress md.registers
          (MerkleDamgard.residue 64 m ++ 0x80 ::
            List.replicate ((119 - m.length % 64) % 64) 0 ++ t) := by
  have hr := Nat.mod_lt m.length (show 64 > 0 by decide)
  have hmark : (overwrite md.buffer (m.length % 64) [0x80]).take (m.length % 64 + 1) =
      MerkleDamgard.residue 64 m ++ [0x80] := by
    rw [take_overwrite (by rw [h.buffer_length]; omega) (by rfl), h.buffered]
  have hmarked : (overwrite md.buffer (m.length % 64) [0x80]).length = 64 := by
    rw [length_overwrite (by rw [h.buffer_length, List.length_singleton]; omega), h.buffer_length]
  unfold MD5.mark
  rw [h.bufferSize]
  by_cases hlong : m.length % 64 + 1 > 56
  · have hblock : overwrite (overwrite md.buffer (m.length % 64) [0x80]) (m.length % 64 + 1)
        (List.replicate (64 - (m.length % 64 + 1)) 0) =
        MerkleDamgard.residue 64 m ++ 0x80 :: List.replicate (63 - m.length % 64) 0 := by
      rw [overwrite_end (by rw [List.length_replicate, hmarked]; omega), hmark,
        List.append_assoc, List.singleton_append, Nat.sub_add_eq, Nat.sub_right_comm]
    have hlen : (MerkleDamgard.residue 64 m ++
        0x80 :: List.replicate (63 - m.length % 64) 0).length = 64 := by
      rw [List.length_append, MerkleDamgard.length_residue, List.length_cons, List.length_replicate]
      omega
    refine ⟨_, _, if_pos hlong, Nat.zero_le _, ?_, by rw [transform_size], fun t => ?_⟩
    · rw [transform_buffer, hblock, hlen]
    · have hzeros : (119 - m.length % 64) % 64 = 63 - m.length % 64 + 56 := by omega
      rw [transform_registers, hblock, hzeros, ← List.replicate_append_replicate,
        List.take_of_length_le hlen.le, ← MerkleDamgard.chain_block 64 Md5.compress (by decide) hlen,
        ← MerkleDamgard.chain_append 64 Md5.compress (by decide) (by rw [hlen])]
      simp
  · refine ⟨_, _, if_neg hlong, by omega, hmarked, rfl, fun t => ?_⟩
    have hzeros : (119 - m.length % 64) % 64 = 56 - (m.length % 64 + 1) := by omega
    rw [hmark, hzeros]
    simp

/-- The mark, the zeros and the length are the padding of the standard. -/
theorem Represents.finalize_registers {md : MD5} {m : Data} (h : md.Represents m) :
    md.finalize.registers =
      MerkleDamgard.chain 64 Md5.compress Md5.initial (m ++ Md5.padding m.length) := by
  obtain ⟨md', k, hmark, hk, hlen, hsize, hchain⟩ := h.mark
  have hlength : (LittleEndian.toBytes 8 (8 * m.length)).length = 8 :=
    LittleEndian.length_toBytes _ _
  have hzeros : (overwrite md'.buffer k (List.replicate (56 - k) 0)).length = 64 := by
    rw [length_overwrite (by rw [List.length_replicate, hlen]; omega), hlen]
  have hbuffer : overwrite (overwrite md'.buffer k (List.replicate (56 - k) 0)) 56
      (LittleEndian.toBytes 8 (8 * m.length)) =
      md'.buffer.take k ++ List.replicate (56 - k) 0 ++
        LittleEndian.toBytes 8 (8 * m.length) := by
    rw [overwrite_end (by rw [hzeros, hlength]),
      take_overwrite (by omega) (by rw [List.length_replicate]; omega)]
  have hblock : (md'.buffer.take k ++ List.replicate (56 - k) 0 ++
      LittleEndian.toBytes 8 (8 * m.length)).length = 64 := by
    rw [List.length_append, List.length_append, List.length_take, List.length_replicate, hlength]
    omega
  rw [MerkleDamgard.chain_append_residue 64 Md5.compress (by decide), ← h.registers, Md5.padding,
    ← List.append_assoc, ← hchain, MD5.finalize, hmark]
  simp only [hsize, h.size, lengthBytes_eq, transform_registers]
  rw [hbuffer, List.take_of_length_le hblock.le,
    MerkleDamgard.chain_block 64 Md5.compress (by decide) hblock]

theorem Represents.finalize_buffer {md : MD5} {m : Data} (h : md.Represents m) :
    md.finalize.buffer.length = 64 := by
  obtain ⟨md', k, hmark, hk, hlen, -, -⟩ := h.mark
  have hzeros : (overwrite md'.buffer k (List.replicate (56 - k) 0)).length = 64 := by
    rw [length_overwrite (by rw [List.length_replicate, hlen]; omega), hlen]
  simp only [MD5.finalize, hmark, transform_buffer]
  rw [length_overwrite (by rw [List.length_map, List.length_range, hzeros]), hzeros]

theorem digest_of_valid {md : MD5} (h : md.valid = true) :
    md.digest = .ok (Md5.digest md.registers) := by
  simp only [digest, h, if_true, Md5.digest, digestBytes_eq]

theorem finalize_valid (md : MD5) : md.finalize.valid = true := rfl

/-- Finalizing what stands for `m` gives the standard's digest of `m`. -/
theorem Represents.finalize {md : MD5} {m : Data} (h : md.Represents m) :
    md.finalize.digest = .ok (md5 m) := by
  rw [digest_of_valid (finalize_valid md), h.finalize_registers, md5]

theorem compute_digest {md : MD5} (h : md.buffer.length = 64) (data : Data) :
    ∃ md', md.compute data = .ok md' ∧ md'.digest = .ok (md5 data) := by
  obtain ⟨md', hupdate, hrep⟩ := (represents_reset h).update data
    (.inl (Nat.dvd_zero _))
  exact ⟨_, by rw [compute, hupdate]; rfl, hrep.finalize⟩

theorem updateAll_eof (n : ℕ) (md : MD5) {file : Ifstream} (h : file.eof = true) :
    updateAll n md file = .ok md := by
  cases n <;> simp [updateAll, h]

/-- The loop reads block by block up to the short read that ends the file. -/
theorem Represents.updateAll {md : MD5} {c : Data} {n j : ℕ} (hn : c.length < 64 * (j + n))
    (hj : 64 * j ≤ c.length) (h : md.Represents (c.take (64 * j))) :
    ∃ md', updateAll n md ⟨c, 64 * j, false⟩ = .ok md' ∧ md'.Represents c := by
  induction n generalizing md j with
  | zero => omega
  | succ n ih =>
    have hlen : (c.take (64 * j)).length = 64 * j := by
      rw [List.length_take, Nat.min_eq_left hj]
    obtain ⟨md', hupdate, hrep⟩ := h.update ((c.drop (64 * j)).take 64)
      (.inl (by rw [hlen]; exact Nat.dvd_mul_right 64 j))
    rw [← List.take_add] at hrep
    simp only [MD5.updateAll, Bool.false_eq_true, if_false, Ifstream.read, bind, Except.bind,
      hupdate]
    have hread : ((c.drop (64 * j)).take 64).length = min 64 (c.length - 64 * j) := by
      rw [List.length_take, List.length_drop]
    by_cases hfull : 64 * j + 64 ≤ c.length
    · have hpos : ((c.drop (64 * j)).take 64).length = 64 := by omega
      rw [hpos]
      exact ih (j := j + 1) (by omega) hfull hrep
    · rw [List.take_of_length_le (by omega)] at hrep
      refine ⟨md', updateAll_eof n md' ?_, hrep⟩
      simp only [decide_eq_true_eq]
      omega

theorem computeStream_digest (md : MD5) (h : md.buffer.length = 64) (content : Data) :
    ∃ md', md.computeStream (ifstream content) = .ok md' ∧ md'.digest = .ok (md5 content) := by
  obtain ⟨md', hupdate, hrep⟩ := (represents_reset h).updateAll (c := content) (j := 0)
    (n := content.length + 1) (by omega) (Nat.zero_le _)
  refine ⟨md'.finalize, ?_, hrep.finalize⟩
  rw [computeStream]
  change (do return (← MD5.updateAll (content.length + 1) md.reset ⟨content, 0, false⟩).finalize) = _
  rw [hupdate]
  rfl

-- comparing two states must not run the rounds
attribute [irreducible] update finalize digest

end MD5

end Course.Rdt
