import Mathlib.Algebra.Order.Ring.Nat
import Mathlib.Data.Nat.ModEq
import Mathlib.Tactic.Ring

/-! Fixed-width little-endian byte strings of natural numbers. -/

namespace Course.Lib.LittleEndian

/-- The `k` low bytes of `v`, least significant first. -/
def toBytes : ℕ → ℕ → List UInt8
  | 0, _ => []
  | k + 1, v => UInt8.ofNat v :: toBytes k (v / 256)

def ofBytes : List UInt8 → ℕ
  | [] => 0
  | b :: bs => b.toNat + 256 * ofBytes bs

@[simp] theorem length_toBytes (k v : ℕ) : (toBytes k v).length = k := by
  induction k generalizing v with
  | zero => rfl
  | succ k ih => simp [toBytes, ih]

theorem ofBytes_toBytes (k v : ℕ) : ofBytes (toBytes k v) = v % 256 ^ k := by
  induction k generalizing v with
  | zero => simp [toBytes, ofBytes, Nat.mod_one]
  | succ k ih =>
    have hsplit : v % 256 ^ (k + 1) = v % 256 + 256 * (v / 256 % 256 ^ k) := by
      rw [Nat.pow_succ', Nat.mod_mul]
    simp only [toBytes, ofBytes, ih, UInt8.toNat_ofNat', hsplit, Nat.reducePow]

theorem toBytes_ofBytes (bs : List UInt8) : toBytes bs.length (ofBytes bs) = bs := by
  induction bs with
  | nil => rfl
  | cons b bs ih =>
    have hb := b.toNat_lt
    have hdiv : (b.toNat + 256 * ofBytes bs) / 256 = ofBytes bs := by omega
    have hmod : UInt8.ofNat (b.toNat + 256 * ofBytes bs) = b := by
      apply UInt8.toNat_inj.mp
      rw [UInt8.toNat_ofNat']
      omega
    simp only [ofBytes, List.length_cons, toBytes, hdiv, hmod, ih]

theorem ofBytes_lt (bs : List UInt8) : ofBytes bs < 256 ^ bs.length := by
  induction bs with
  | nil => simp [ofBytes]
  | cons b bs ih =>
    have hb := b.toNat_lt
    rw [List.length_cons, Nat.pow_succ', ofBytes]
    omega

theorem toBytes_eq_map (k v : ℕ) :
    toBytes k v = (List.range k).map fun i => UInt8.ofNat (v / 256 ^ i) := by
  induction k generalizing v with
  | zero => rfl
  | succ k ih =>
    rw [toBytes, ih, List.range_succ_eq_map, List.map_cons, List.map_map, Nat.pow_zero, Nat.div_one]
    congr 2
    funext i
    rw [Function.comp, Nat.pow_succ', Nat.div_div_eq_div_mul]

theorem toBytes_mod (k v : ℕ) : toBytes k (v % 256 ^ k) = toBytes k v := by
  have h := toBytes_ofBytes (toBytes k v)
  rwa [length_toBytes, ofBytes_toBytes] at h

theorem toBytes_add (n m v : ℕ) :
    toBytes (n + m) v = toBytes n v ++ toBytes m (v / 256 ^ n) := by
  induction n generalizing v with
  | zero => simp [toBytes]
  | succ n ih =>
    rw [Nat.add_right_comm, toBytes, toBytes, ih, Nat.div_div_eq_div_mul, ← Nat.pow_succ',
      List.cons_append]

theorem toBytes_append {n y : ℕ} (hy : y < 256 ^ n) (m x : ℕ) :
    toBytes (n + m) (x * 256 ^ n + y) = toBytes n y ++ toBytes m x := by
  rw [toBytes_add, ← toBytes_mod n (x * 256 ^ n + y), Nat.mul_add_mod_of_lt hy,
    Nat.mul_comm, Nat.mul_add_div (Nat.zero_lt_of_lt hy), Nat.div_eq_of_lt hy, Nat.add_zero]

/-- Only the low bytes count. -/
theorem toBytes_mod_of_le {n k : ℕ} (h : k ≤ n) (v : ℕ) :
    toBytes k (v % 256 ^ n) = toBytes k v := by
  rw [← toBytes_mod k (v % 256 ^ n), Nat.mod_mod_of_dvd _ (Nat.pow_dvd_pow 256 h), toBytes_mod]

end Course.Lib.LittleEndian
