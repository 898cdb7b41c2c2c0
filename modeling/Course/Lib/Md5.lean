import Course.Lib.LittleEndian
import Course.Lib.MerkleDamgard

/-! The MD5 message digest of RFC 1321: padding, one operation for each of the
64 table entries, and a digest in little-endian order. -/

namespace Course.Lib.Md5

/-- The chaining registers. -/
structure State where
  a : UInt32
  b : UInt32
  c : UInt32
  d : UInt32
  deriving DecidableEq

def initial : State := ⟨0x67452301, 0xefcdab89, 0x98badcfe, 0x10325476⟩

/-- The integer parts of `2 ^ 32 * |sin (i + 1)|`. -/
def sineTable : List UInt32 :=
  [0xd76aa478, 0xe8c7b756, 0x242070db, 0xc1bdceee, 0xf57c0faf, 0x4787c62a, 0xa8304613, 0xfd469501,
    0x698098d8, 0x8b44f7af, 0xffff5bb1, 0x895cd7be, 0x6b901122, 0xfd987193, 0xa679438e, 0x49b40821,
    0xf61e2562, 0xc040b340, 0x265e5a51, 0xe9b6c7aa, 0xd62f105d, 0x02441453, 0xd8a1e681, 0xe7d3fbc8,
    0x21e1cde6, 0xc33707d6, 0xf4d50d87, 0x455a14ed, 0xa9e3e905, 0xfcefa3f8, 0x676f02d9, 0x8d2a4c8a,
    0xfffa3942, 0x8771f681, 0x6d9d6122, 0xfde5380c, 0xa4beea44, 0x4bdecfa9, 0xf6bb4b60, 0xbebfbc70,
    0x289b7ec6, 0xeaa127fa, 0xd4ef3085, 0x04881d05, 0xd9d4d039, 0xe6db99e5, 0x1fa27cf8, 0xc4ac5665,
    0xf4292244, 0x432aff97, 0xab9423a7, 0xfc93a039, 0x655b59c3, 0x8f0ccc92, 0xffeff47d, 0x85845dd1,
    0x6fa87e4f, 0xfe2ce6e0, 0xa3014314, 0x4e0811a1, 0xf7537e82, 0xbd3af235, 0x2ad7d2bb, 0xeb86d391]

def F (x y z : UInt32) : UInt32 := x &&& y ||| ~~~x &&& z

def G (x y z : UInt32) : UInt32 := x &&& z ||| y &&& ~~~z

def H (x y z : UInt32) : UInt32 := x ^^^ y ^^^ z

def I (x y z : UInt32) : UInt32 := y ^^^ (x ||| ~~~z)

/-- The function of operation `i`. -/
def auxiliary (i : ℕ) : UInt32 → UInt32 → UInt32 → UInt32 :=
  if i < 16 then F else if i < 32 then G else if i < 48 then H else I

/-- The word of the block that operation `i` reads. -/
def wordIndex (i : ℕ) : ℕ :=
  if i < 16 then i
  else if i < 32 then (5 * i + 1) % 16
  else if i < 48 then (3 * i + 5) % 16
  else 7 * i % 16

/-- The rotation amounts of the four rounds. -/
def shiftTable : List (List UInt32) :=
  [[7, 12, 17, 22], [5, 9, 14, 20], [4, 11, 16, 23], [6, 10, 15, 21]]

def rotation (i : ℕ) : UInt32 := (shiftTable.getD (i / 16) []).getD (i % 4) 0

def rotateLeft (x s : UInt32) : UInt32 := x <<< s ||| x >>> (32 - s)

/-- Words are read with their least significant byte first. -/
def word (block : List UInt8) (i : ℕ) : UInt32 :=
  .ofNat (LittleEndian.ofBytes ((block.drop (4 * i)).take 4))

/-- One operation, after which the registers change places. -/
def operation (block : List UInt8) (s : State) (i : ℕ) : State where
  a := s.d
  b := s.b + rotateLeft
    (s.a + auxiliary i s.b s.c s.d + word block (wordIndex i) + sineTable.getD i 0) (rotation i)
  c := s.b
  d := s.c

def compress (s : State) (block : List UInt8) : State :=
  let t := (List.range 64).foldl (operation block) s
  ⟨s.a + t.a, s.b + t.b, s.c + t.c, s.d + t.d⟩

/-- A one bit, the fewest zeros that leave eight bytes of a block, and the
length in bits modulo `2 ^ 64`. -/
def padding (length : ℕ) : List UInt8 :=
  0x80 :: List.replicate ((119 - length % 64) % 64) 0 ++ LittleEndian.toBytes 8 (8 * length)

def digest (s : State) : List UInt8 :=
  [s.a, s.b, s.c, s.d].flatMap fun r => LittleEndian.toBytes 4 r.toNat

end Md5

open Md5 in
def md5 (message : List UInt8) : List UInt8 :=
  digest (MerkleDamgard.chain 64 compress initial (message ++ padding message.length))

/-- "abc", from the test suite of the standard. -/
example : md5 [0x61, 0x62, 0x63] =
    [0x90, 0x01, 0x50, 0x98, 0x3c, 0xd2, 0x4f, 0xb0, 0xd6, 0x96, 0x3f, 0x7d, 0x28, 0xe1, 0x7f,
      0x72] := by
  decide +kernel

end Course.Lib
