import Course.Gemm.StreamReaderCore
import Course.Lib.LittleEndian
import Course.Lib.Machine

/-! `Aligner` clock cycle by clock cycle: the kept bytes of the words that go in come out in
words that are full, but for the last one of a packet. -/

open Course.Lib

namespace Course.Gemm

structure Aligner where
  data : ℕ
  keep : ℕ
  last : Bool
  nbytes : ℕ

def priorityEncoder (keep : ℕ) : ℕ := ((List.range 8).find? keep.testBit).getD 7

/-- `FillInterleaved(8, keep)` -/
def fillInterleaved (keep : ℕ) : ℕ :=
  (List.range 8).foldr (fun i mask => if keep.testBit i then 255 <<< (8 * i) ||| mask else mask) 0

/-- `PopCount` of a number with the width of `full_keep`. -/
def popCount (keep : ℕ) : ℕ := ((List.range 23).filter keep.testBit).length

namespace Aligner

def reset : Aligner := ⟨0, 0, false, 0⟩

variable (a : Aligner) (f : StreamChannel)

def fullKeep : ℕ := ((f.keep.toNat >>> priorityEncoder f.keep.toNat) <<< a.nbytes) ||| a.keep

def fullData : ℕ :=
  (((f.data.toNat &&& fillInterleaved f.keep.toNat) >>> (8 * priorityEncoder f.keep.toNat)) <<<
    (8 * a.nbytes)) ||| (a.data &&& fillInterleaved a.keep)

def fullNbytes : ℕ := popCount (a.fullKeep f)

def fwdLast : Bool := f.last && decide (a.fullKeep f >>> 8 = 0)

variable (input : Option StreamChannel) (outReady : Bool)

/-- `io.out.valid` -/
def outValid : Bool :=
  a.last && decide (0 < a.nbytes) ||
    input.any fun f => a.fwdLast f || decide (8 ≤ a.fullNbytes f)

/-- `io.out.bits`, for what comes in. -/
def outBits : StreamChannel :=
  match a.last, input with
  | false, some f => ⟨.ofNat 64 (a.fullData f), .ofNat 8 (a.fullKeep f), a.fwdLast f⟩
  | _, _ => ⟨.ofNat 64 a.data, .ofNat 8 a.keep, a.last⟩

/-- `io.in.ready`, for what comes in. -/
def inReady : Bool := decide (a.fullNbytes f < 8) || outReady && !a.last

/-- The word that goes in. -/
def inFire : Option StreamChannel := input.filter fun f => a.inReady f outReady

/-- The word that goes out. -/
def outFire : Option StreamChannel :=
  if a.outValid input && outReady then some (a.outBits input) else none

def cycle : Aligner :=
  match a.inFire input outReady, a.outFire input outReady with
  | some f, some _ => {
      data := a.fullData f >>> 64 % 2 ^ 64
      keep := a.fullKeep f >>> 8 % 2 ^ 8
      last := f.last && !a.fwdLast f
      nbytes := if a.fwdLast f then 0 else (a.fullNbytes f + 16 - 8) % 16 }
  | some f, none => {
      data := a.fullData f % 2 ^ 64
      keep := a.fullKeep f % 2 ^ 8
      last := f.last
      nbytes := a.fullNbytes f % 16 }
  | none, some _ => ⟨0, 0, false, 0⟩
  | none, none => a

end Aligner

/-! ### Runs of kept bytes -/

/-- `len` bytes from the `off`-th one. -/
def keepRun (off len : ℕ) : ℕ := (2 ^ len - 1) <<< off

theorem priorityEncoder_keepRun : ∀ off < 8, ∀ len < 9, 0 < len → off + len ≤ 8 →
    priorityEncoder (keepRun off len) = off := by
  decide +kernel

theorem fillInterleaved_keepRun : ∀ off < 9, ∀ len < 9, off + len ≤ 8 →
    fillInterleaved (keepRun off len) = (2 ^ (8 * len) - 1) <<< (8 * off) := by
  decide +kernel

theorem popCount_keepRun : ∀ off < 9, ∀ len < 9, off + len ≤ 8 →
    popCount (keepRun off len) = len := by
  decide +kernel

theorem popCount_keepRun_zero : ∀ n < 17, popCount (keepRun 0 n) = n := by
  decide +kernel

theorem keepRun_zero_iff : ∀ n < 17, keepRun 0 n >>> 8 = 0 ↔ n ≤ 8 := by
  decide +kernel

theorem keepRun_append : ∀ n < 9, ∀ off < 8, ∀ len < 9,
    ((keepRun off len >>> off) <<< n) ||| keepRun 0 n = keepRun 0 (n + len) := by
  decide +kernel

theorem keepRun_split : ∀ n < 17, keepRun 0 n % 2 ^ 8 = keepRun 0 (min n 8) ∧
    keepRun 0 n >>> 8 = keepRun 0 (n - 8) := by
  decide +kernel

/-- The bytes and, behind those of a last word, the end of the packet. -/
def symbols (bytes : List UInt8) (last : Bool) : List (Option UInt8) :=
  bytes.map some ++ if last then [none] else []

namespace StreamChannel

/-- The bytes that are kept, from the first one on. -/
def bytes (f : StreamChannel) : List UInt8 :=
  LittleEndian.toBytes (popCount f.keep.toNat)
    (f.data.toNat / 256 ^ priorityEncoder f.keep.toNat)

def symbols (f : StreamChannel) : List (Option UInt8) := Gemm.symbols f.bytes f.last

/-- `len` bytes from the `off`-th one are kept. -/
structure Keeps (f : StreamChannel) (off len : ℕ) : Prop where
  pos : 0 < len
  le : off + len ≤ 8
  keep : f.keep.toNat = keepRun off len

/-- A word as it comes out: full, or the last one of its packet. -/
def Packed (f : StreamChannel) : Prop := ∃ len, f.Keeps 0 len ∧ (len = 8 ∨ f.last = true)

variable {f : StreamChannel} {off len : ℕ}

theorem Keeps.bytes_eq (h : f.Keeps off len) :
    f.bytes = LittleEndian.toBytes len (f.data.toNat / 256 ^ off) := by
  have hpos := h.pos
  have hle := h.le
  rw [bytes, h.keep, priorityEncoder_keepRun off (by omega) len (by omega) hpos hle,
    popCount_keepRun off (by omega) len (by omega) hle]

/-- A word of the low bytes of a number. -/
theorem keeps_ofNat (hpos : 0 < len) {keep : ℕ} (hkeep : keep % 2 ^ 8 = keepRun 0 (min len 8))
    (v : ℕ) (last : Bool) :
    Keeps ⟨.ofNat 64 v, .ofNat 8 keep, last⟩ 0 (min len 8) ∧
      bytes ⟨.ofNat 64 v, .ofNat 8 keep, last⟩ = LittleEndian.toBytes (min len 8) v := by
  have hkeeps : Keeps ⟨.ofNat 64 v, .ofNat 8 keep, last⟩ 0 (min len 8) :=
    ⟨by omega, by omega, hkeep⟩
  refine ⟨hkeeps, ?_⟩
  rw [hkeeps.bytes_eq, Nat.pow_zero, Nat.div_one, BitVec.toNat_ofNat,
    show 2 ^ 64 = 256 ^ 8 by decide]
  exact LittleEndian.toBytes_mod_of_le (by omega) v

end StreamChannel

namespace Aligner

/-- The bytes that wait in the register. -/
def held (a : Aligner) : List UInt8 := LittleEndian.toBytes a.nbytes a.data

def symbols (a : Aligner) : List (Option UInt8) := Gemm.symbols a.held a.last

/-- The register is no full word, unless it is the last one of a packet. -/
structure Inv (a : Aligner) : Prop where
  nbytes_le : a.nbytes ≤ 8
  keep : a.keep = keepRun 0 a.nbytes
  last : a.last = true → 0 < a.nbytes
  more : a.last = false → a.nbytes < 8

variable {a : Aligner} {f : StreamChannel} {off len : ℕ}

theorem Inv.fullKeep (h : a.Inv) (hf : f.Keeps off len) :
    a.fullKeep f = keepRun 0 (a.nbytes + len) := by
  have hn := h.nbytes_le
  have hle := hf.le
  rw [Aligner.fullKeep, hf.keep, h.keep,
    priorityEncoder_keepRun off (by have := hf.pos; omega) len (by omega) hf.pos hle,
    keepRun_append a.nbytes (by omega) off (by have := hf.pos; omega) len (by omega)]

theorem Inv.fullNbytes (h : a.Inv) (hf : f.Keeps off len) : a.fullNbytes f = a.nbytes + len := by
  have hn := h.nbytes_le
  have hle := hf.le
  rw [Aligner.fullNbytes, h.fullKeep hf, popCount_keepRun_zero _ (by omega)]

theorem Inv.fwdLast (h : a.Inv) (hf : f.Keeps off len) :
    a.fwdLast f = (f.last && decide (a.nbytes + len ≤ 8)) := by
  have hn := h.nbytes_le
  have hle := hf.le
  rw [Aligner.fwdLast, h.fullKeep hf, decide_eq_decide.mpr (keepRun_zero_iff _ (by omega))]

theorem Inv.toBytes_fullData (h : a.Inv) (hf : f.Keeps off len) :
    LittleEndian.toBytes (a.nbytes + len) (a.fullData f) = a.held ++ f.bytes := by
  have hn := h.nbytes_le
  have hle := hf.le
  have hpos := hf.pos
  rw [Aligner.fullData, hf.keep, h.keep, hf.bytes_eq,
    priorityEncoder_keepRun off (by omega) len (by omega) hpos hle,
    fillInterleaved_keepRun off (by omega) len (by omega) hle,
    fillInterleaved_keepRun 0 (by omega) a.nbytes (by omega) (by omega)]
  rw [Nat.shiftRight_and_distrib, Nat.shiftLeft_shiftRight, Nat.mul_zero, Nat.shiftLeft_zero,
    Nat.and_two_pow_sub_one_eq_mod, Nat.and_two_pow_sub_one_eq_mod,
    ← Nat.shiftLeft_add_eq_or_of_lt (Nat.mod_lt _ (Nat.two_pow_pos _)), Nat.shiftLeft_eq,
    Nat.shiftRight_eq_div_pow, Nat.pow_mul, Nat.pow_mul, Nat.pow_mul]
  have hlt : a.data % 256 ^ a.nbytes < 256 ^ a.nbytes := Nat.mod_lt _ (Nat.pow_pos (by decide))
  calc
    LittleEndian.toBytes (a.nbytes + len)
        (f.data.toNat / 256 ^ off % 256 ^ len * 256 ^ a.nbytes + a.data % 256 ^ a.nbytes)
      = LittleEndian.toBytes a.nbytes (a.data % 256 ^ a.nbytes) ++
          LittleEndian.toBytes len (f.data.toNat / 256 ^ off % 256 ^ len) :=
        LittleEndian.toBytes_append hlt _ _
    _ = a.held ++ LittleEndian.toBytes len (f.data.toNat / 256 ^ off) := by
        rw [LittleEndian.toBytes_mod, LittleEndian.toBytes_mod, held]

variable {input : Option StreamChannel} {outReady : Bool}

/-- What a cycle does to the symbols: those that go in follow those held, and those that go out
are taken from the front. -/
structure Moves (a a' : Aligner) (taken given : Option StreamChannel) : Prop where
  inv : a'.Inv
  symbols : a.symbols ++ taken.elim [] (·.symbols) = given.elim [] (·.symbols) ++ a'.symbols
  packed : ∀ f, given = some f → f.Packed

theorem symbols_append (xs ys : List UInt8) (last : Bool) :
    Gemm.symbols (xs ++ ys) last = Gemm.symbols xs false ++ Gemm.symbols ys last := by
  simp [Gemm.symbols]

/-- A word that does not fill the register joins what is held. -/
theorem Inv.take (h : a.Inv) (hf : f.Keeps off len) (hlast : a.last = false)
    (hle : a.nbytes + len ≤ 8) (hmore : f.last = false → a.nbytes + len < 8) :
    Moves a ⟨a.fullData f % 2 ^ 64, a.fullKeep f % 2 ^ 8, f.last, a.fullNbytes f % 16⟩ (some f)
      none := by
  have hpos := hf.pos
  have hn : a.fullNbytes f % 16 = a.nbytes + len := by
    rw [h.fullNbytes hf, Nat.mod_eq_of_lt (by omega)]
  refine ⟨⟨?_, ?_, fun _ => ?_, fun hfalse => ?_⟩, ?_, by simp⟩
  · rw [hn]
    exact hle
  · rw [hn, h.fullKeep hf, (keepRun_split _ (by omega)).1, Nat.min_eq_left hle]
  · change 0 < a.fullNbytes f % 16
    omega
  · rw [hn]
    exact hmore hfalse
  · have hheld : LittleEndian.toBytes (a.nbytes + len) (a.fullData f % 2 ^ 64) =
        a.held ++ f.bytes := by
      rw [show 2 ^ 64 = 256 ^ 8 by decide, LittleEndian.toBytes_mod_of_le hle,
        h.toBytes_fullData hf]
    simp only [Aligner.symbols, held, Option.elim_some, Option.elim_none, List.nil_append, hn,
      StreamChannel.symbols] at hheld ⊢
    rw [hheld, hlast, symbols_append]

/-- A word that completes the packet goes out with what is held. -/
theorem Inv.finish (h : a.Inv) (hf : f.Keeps off len) (hlast : a.last = false)
    (hle : a.nbytes + len ≤ 8) (hflast : f.last = true) {a' : Aligner} (hkeep : a'.keep = 0)
    (hnbytes : a'.nbytes = 0) (hlast' : a'.last = false) :
    Moves a a' (some f) (some ⟨.ofNat 64 (a.fullData f), .ofNat 8 (a.fullKeep f), true⟩) := by
  have hpos := hf.pos
  have hkeep' : a.fullKeep f % 2 ^ 8 = keepRun 0 (min (a.nbytes + len) 8) := by
    rw [h.fullKeep hf]
    exact (keepRun_split _ (by omega)).1
  have hword := StreamChannel.keeps_ofNat (Nat.add_pos_right a.nbytes hpos) hkeep' (a.fullData f)
    true
  rw [Nat.min_eq_left hle] at hword
  obtain ⟨hkeeps, hbytes⟩ := hword
  refine ⟨⟨by omega, by rw [hkeep, hnbytes]; rfl, by simp [hlast'], by omega⟩, ?_, ?_⟩
  · have hempty : a'.symbols = [] := by
      simp [Aligner.symbols, held, hnbytes, hlast', LittleEndian.toBytes, Gemm.symbols]
    rw [hempty, List.append_nil, Option.elim_some, Option.elim_some, StreamChannel.symbols,
      StreamChannel.symbols, hbytes, h.toBytes_fullData hf, symbols_append, hflast,
      Aligner.symbols, hlast]
  · rintro o ho
    obtain rfl := Option.some.inj ho
    exact ⟨_, hkeeps, .inr rfl⟩

/-- A word that fills the register goes out, and the rest is held. -/
theorem Inv.spill (h : a.Inv) (hf : f.Keeps off len) (hlast : a.last = false)
    (hge : 8 ≤ a.nbytes + len) (hmore : f.last = true → 8 < a.nbytes + len) :
    Moves a ⟨a.fullData f >>> 64 % 2 ^ 64, a.fullKeep f >>> 8 % 2 ^ 8, f.last,
        (a.fullNbytes f + 16 - 8) % 16⟩ (some f)
      (some ⟨.ofNat 64 (a.fullData f), .ofNat 8 (a.fullKeep f), false⟩) := by
  have hlt := h.more hlast
  have hle := hf.le
  have hn : (a.fullNbytes f + 16 - 8) % 16 = a.nbytes + len - 8 := by
    rw [h.fullNbytes hf]
    omega
  have hkeep : a.fullKeep f % 2 ^ 8 = keepRun 0 (min (a.nbytes + len) 8) := by
    rw [h.fullKeep hf]
    exact (keepRun_split _ (by omega)).1
  have hword := StreamChannel.keeps_ofNat (by omega) hkeep (a.fullData f) false
  rw [Nat.min_eq_right hge] at hword
  obtain ⟨hkeeps, hbytes⟩ := hword
  have hsplit : LittleEndian.toBytes 8 (a.fullData f) ++
      LittleEndian.toBytes (a.nbytes + len - 8) (a.fullData f >>> 64 % 2 ^ 64) =
        a.held ++ f.bytes := by
    have hadd := LittleEndian.toBytes_add 8 (a.nbytes + len - 8) (a.fullData f)
    rw [Nat.add_sub_cancel' hge, h.toBytes_fullData hf] at hadd
    rw [hadd, Nat.shiftRight_eq_div_pow, show 2 ^ 64 = 256 ^ 8 by decide,
      LittleEndian.toBytes_mod_of_le (by omega)]
  refine ⟨⟨?_, ?_, fun hfalse => ?_, fun _ => ?_⟩, ?_, ?_⟩
  · change (a.fullNbytes f + 16 - 8) % 16 ≤ 8
    omega
  · rw [hn, h.fullKeep hf, (keepRun_split _ (by omega)).2, (keepRun_split _ (by omega)).1,
      Nat.min_eq_left (by omega)]
  · change 0 < (a.fullNbytes f + 16 - 8) % 16
    have := hmore hfalse
    omega
  · change (a.fullNbytes f + 16 - 8) % 16 < 8
    omega
  · rw [Option.elim_some, Option.elim_some, StreamChannel.symbols, StreamChannel.symbols, hbytes,
      Aligner.symbols, Aligner.symbols, held, held, hn, hlast, ← symbols_append, ← symbols_append,
      hsplit, held]
  · rintro o ho
    obtain rfl := Option.some.inj ho
    exact ⟨8, hkeeps, .inl rfl⟩

/-- What is left of a packet goes out alone. -/
theorem Inv.flush (h : a.Inv) (hlast : a.last = true) :
    Moves a ⟨0, 0, false, 0⟩ none (some ⟨.ofNat 64 a.data, .ofNat 8 a.keep, true⟩) := by
  have hle := h.nbytes_le
  have hkeep : a.keep % 2 ^ 8 = keepRun 0 (min a.nbytes 8) := by
    rw [h.keep]
    exact (keepRun_split _ (by omega)).1
  have hword := StreamChannel.keeps_ofNat (h.last hlast) hkeep a.data true
  rw [Nat.min_eq_left hle] at hword
  obtain ⟨hkeeps, hbytes⟩ := hword
  refine ⟨⟨Nat.zero_le _, rfl, by simp, by simp⟩, ?_, ?_⟩
  · rw [Option.elim_none, Option.elim_some, StreamChannel.symbols, hbytes, Aligner.symbols, hlast]
    rfl
  · rintro o ho
    obtain rfl := Option.some.inj ho
    exact ⟨_, hkeeps, .inr rfl⟩

theorem Inv.stay (h : a.Inv) : Moves a a none none :=
  ⟨h, List.append_nil _, by simp⟩

/-- A word is offered with its bytes in a row, and not while the rest of a packet waits in a
register that has room for the word. -/
def Offers (a : Aligner) (input : Option StreamChannel) : Prop :=
  ∀ f, input = some f →
    ∃ off len, f.Keeps off len ∧ (a.last = true → 8 ≤ a.nbytes + len)

theorem Inv.cycle (h : a.Inv) (hoffers : a.Offers input) (outReady : Bool) :
    Moves a (a.cycle input outReady) (a.inFire input outReady) (a.outFire input outReady) := by
  cases hlast : a.last with
  | true =>
    have hin : a.inFire input outReady = none := by
      cases input with
      | none => rfl
      | some f =>
        obtain ⟨off, len, hf, hge⟩ := hoffers f rfl
        have hfull := h.fullNbytes hf
        have := hge hlast
        simp only [inFire, inReady, hlast, hfull, Option.filter_some]
        simp
        omega
    have hbits : a.outBits input = ⟨.ofNat 64 a.data, .ofNat 8 a.keep, true⟩ := by
      simp [outBits, hlast]
    have hvalid : a.outValid input = true := by
      simp [outValid, hlast, h.last hlast]
    cases outReady with
    | true => simpa [Aligner.cycle, outFire, hin, hvalid, hbits] using h.flush hlast
    | false => simpa [Aligner.cycle, outFire, hin] using h.stay
  | false =>
    cases input with
    | none => simpa [Aligner.cycle, outFire, inFire, outValid, hlast] using h.stay
    | some f =>
      obtain ⟨off, len, hf, -⟩ := hoffers f rfl
      have hfull := h.fullNbytes hf
      have hfwd := h.fwdLast hf
      have hbits : a.outBits (some f) =
          ⟨.ofNat 64 (a.fullData f), .ofNat 8 (a.fullKeep f), a.fwdLast f⟩ := by
        simp [outBits, hlast]
      have hvalid : a.outValid (some f) =
          (a.fwdLast f || decide (8 ≤ a.nbytes + len)) := by
        simp [outValid, hlast, hfull]
      have hin : a.inFire (some f) outReady =
          if a.nbytes + len < 8 ∨ outReady = true then some f else none := by
        simp [inFire, inReady, hlast, hfull, Option.filter]
      cases outReady with
      | false =>
        have hout : a.outFire (some f) false = none := by simp [outFire]
        rcases Nat.lt_or_ge (a.nbytes + len) 8 with hlt | hge
        · rw [if_pos (.inl hlt)] at hin
          simpa [Aligner.cycle, hout, hin] using h.take hf hlast hlt.le fun _ => hlt
        · rw [if_neg (by simp; omega)] at hin
          simpa [Aligner.cycle, hout, hin] using h.stay
      | true =>
        rw [if_pos (.inr rfl)] at hin
        have hout : a.outFire (some f) true =
            if a.fwdLast f ∨ 8 ≤ a.nbytes + len then some (a.outBits (some f)) else none := by
          simp [outFire, hvalid]
        by_cases hfin : f.last = true ∧ a.nbytes + len ≤ 8
        · have htrue : a.fwdLast f = true := by simp [hfwd, hfin]
          have hzero : a.fullKeep f >>> 8 = 0 := by
            rw [h.fullKeep hf]
            exact (keepRun_zero_iff _ (by omega)).mpr hfin.2
          rw [if_pos (.inl htrue), hbits, htrue] at hout
          rw [hin, hout]
          refine h.finish hf hlast hfin.2 hfin.1 ?_ ?_ ?_ <;>
            simp [Aligner.cycle, hin, hout, htrue, hzero]
        · have hfalse : a.fwdLast f = false := by
            rw [hfwd, Bool.and_eq_false_iff, decide_eq_false_iff_not]
            rw [not_and_or, Bool.not_eq_true] at hfin
            exact hfin
          rcases Nat.lt_or_ge (a.nbytes + len) 8 with hlt | hge
          · have hmore : f.last = false := by
              by_contra htrue
              exact hfin ⟨Bool.eq_true_of_not_eq_false htrue, hlt.le⟩
            rw [if_neg (by simp [hfalse]; omega)] at hout
            simpa [Aligner.cycle, hout, hin] using h.take hf hlast hlt.le fun _ => hlt
          · rw [if_pos (.inr hge), hbits, hfalse] at hout
            have hspill := h.spill hf hlast hge fun htrue => by
              by_contra hle
              exact hfin ⟨htrue, by omega⟩
            simpa [Aligner.cycle, hout, hin, hfalse] using hspill

/-- With nothing held, a full word goes through as it is. -/
theorem Inv.pass (h : a.Inv) (hn : a.nbytes = 0) (hf : f.Keeps 0 8) (outReady : Bool) :
    a.inFire (some f) outReady = a.outFire (some f) outReady ∧
      (a.cycle (some f) outReady).nbytes = 0 := by
  have hlast : a.last = false := by
    by_contra hlast
    have := h.last (Bool.eq_true_of_not_eq_false hlast)
    omega
  have hfull : a.fullNbytes f = 8 := by rw [h.fullNbytes hf, hn]
  have hfwd : a.fwdLast f = f.last := by simp [h.fwdLast hf, hn]
  have hkeep : BitVec.ofNat 8 (a.fullKeep f) = f.keep := by
    apply BitVec.eq_of_toNat_eq
    rw [h.fullKeep hf, hn, hf.keep]
    rfl
  have hdata : BitVec.ofNat 64 (a.fullData f) = f.data := by
    have hheld : a.held = [] := by
      rw [held, hn]
      rfl
    have hbytes := h.toBytes_fullData hf
    rw [hheld, hn, List.nil_append, hf.bytes_eq, Nat.zero_add, Nat.pow_zero, Nat.div_one] at hbytes
    have hvalue := congrArg LittleEndian.ofBytes hbytes
    rw [LittleEndian.ofBytes_toBytes, LittleEndian.ofBytes_toBytes,
      show 256 ^ 8 = 2 ^ 64 by decide, Nat.mod_eq_of_lt f.data.isLt] at hvalue
    apply BitVec.eq_of_toNat_eq
    rw [BitVec.toNat_ofNat, hvalue]
  have hbits : a.outBits (some f) = f := by
    simp [outBits, hlast, hdata, hkeep, hfwd]
  have hin : a.inFire (some f) outReady = if outReady then some f else none := by
    cases outReady <;> simp [inFire, inReady, hlast, hfull, Option.filter]
  have hout : a.outFire (some f) outReady = if outReady then some f else none := by
    cases outReady <;> simp [outFire, outValid, hlast, hfull, hbits]
  refine ⟨hin.trans hout.symm, ?_⟩
  rw [Aligner.cycle, hin, hout]
  cases outReady with
  | false => exact hn
  | true =>
    change (if a.fwdLast f then 0 else (a.fullNbytes f + 16 - 8) % 16) = 0
    rw [hfull]
    split <;> rfl

end Aligner

end Course.Gemm
