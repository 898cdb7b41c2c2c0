import Mathlib.Data.Nat.Notation
import Mathlib.Tactic.Ring

/-! Iterated compression of a message by blocks of a fixed length, and the
state a streaming implementation of it has to hold between two calls. -/

namespace Course.Lib.MerkleDamgard

universe u v

variable {σ : Type u} {α : Type v} (n : ℕ) (compress : σ → List α → σ)

/-- Compress the first `k` blocks. -/
def absorb : ℕ → σ → List α → σ
  | 0, s, _ => s
  | k + 1, s, m => absorb k (compress s (m.take n)) (m.drop n)

/-- Compress every complete block. -/
def chain (s : σ) (m : List α) : σ := absorb n compress (m.length / n) s m

/-- What the complete blocks leave over. -/
def residue (m : List α) : List α := m.drop (m.length / n * n)

theorem length_residue (m : List α) : (residue n m).length = m.length % n := by
  have h := Nat.div_add_mod' m.length n
  rw [residue, List.length_drop]
  omega

theorem residue_eq_self {m : List α} (h : m.length < n) : residue n m = m := by
  rw [residue, Nat.div_eq_of_lt h, Nat.zero_mul, List.drop_zero]

theorem residue_append {a b : List α} (h : n ∣ a.length) :
    residue n (a ++ b) = residue n b := by
  obtain ⟨k, hk⟩ := h
  rcases Nat.eq_zero_or_pos n with rfl | hn
  · obtain rfl : a = [] := List.eq_nil_of_length_eq_zero (by omega)
    rfl
  have hdiv : (a ++ b).length / n * n = a.length + b.length / n * n := by
    rw [List.length_append, hk, Nat.mul_add_div hn]
    ring
  rw [residue, hdiv, List.drop_append, List.drop_eq_nil_of_le (by omega), residue]
  simp

@[simp] theorem absorb_zero (s : σ) (m : List α) : absorb n compress 0 s m = s := rfl

theorem absorb_add (j k : ℕ) (s : σ) (m : List α) :
    absorb n compress (j + k) s m =
      absorb n compress k (absorb n compress j s m) (m.drop (j * n)) := by
  induction j generalizing s m with
  | zero => simp
  | succ j ih =>
    have hlen : (j + 1) * n = n + j * n := by ring
    rw [Nat.succ_add, absorb, absorb, ih, List.drop_drop, hlen]

/-- Blocks inside a prefix do not see what follows it. -/
theorem absorb_append {k : ℕ} {a : List α} (h : k * n ≤ a.length) (s : σ) (b : List α) :
    absorb n compress k s (a ++ b) = absorb n compress k s a := by
  induction k generalizing s a with
  | zero => rfl
  | succ k ih =>
    have hlen : (k + 1) * n = n + k * n := by ring
    rw [hlen] at h
    have hn : n ≤ a.length := by omega
    rw [absorb, absorb, List.take_append_of_le_length hn, List.drop_append_of_le_length hn,
      ih (by rw [List.length_drop]; omega)]

theorem chain_block {m : List α} (hn : 0 < n) (h : m.length = n) (s : σ) :
    chain n compress s m = compress s m := by
  rw [chain, h, Nat.div_self hn, absorb, absorb, List.take_of_length_le h.le]

theorem chain_append {a b : List α} (hn : 0 < n) (h : n ∣ a.length) (s : σ) :
    chain n compress s (a ++ b) = chain n compress (chain n compress s a) b := by
  obtain ⟨k, hk⟩ := h
  have hdiv : a.length / n = k := by rw [hk, Nat.mul_div_cancel_left k hn]
  have hlen : (a ++ b).length / n = k + b.length / n := by
    rw [List.length_append, hk, Nat.mul_add_div hn]
  have hk' : k * n = a.length := by rw [hk, Nat.mul_comm]
  rw [chain, hlen, absorb_add, absorb_append n compress hk'.le, hk', List.drop_left, chain, chain,
    hdiv]

/-- Elements that do not complete a block. -/
theorem div_append_short {a b : List α} (h : a.length % n + b.length < n) :
    (a ++ b).length / n = a.length / n := by
  rw [List.length_append]
  apply Nat.div_eq_of_lt_le
  · exact (Nat.div_mul_le_self _ _).trans (Nat.le_add_right _ _)
  · rw [Nat.add_one_mul]
    have hdm := Nat.div_add_mod' a.length n
    omega

theorem chain_append_short {a b : List α} (h : a.length % n + b.length < n) (s : σ) :
    chain n compress s (a ++ b) = chain n compress s a := by
  rw [chain, div_append_short n h, absorb_append n compress (Nat.div_mul_le_self _ _), chain]

theorem residue_append_short {a b : List α} (h : a.length % n + b.length < n) :
    residue n (a ++ b) = residue n a ++ b := by
  rw [residue, div_append_short n h, List.drop_append_of_le_length (Nat.div_mul_le_self _ _),
    residue]

/-- A message is its complete blocks and its residue. -/
theorem chain_append_residue {a b : List α} (hn : 0 < n) (s : σ) :
    chain n compress s (a ++ b) =
      chain n compress (chain n compress s a) (residue n a ++ b) := by
  let blocks := a.take (a.length / n * n)
  have hsplit : a = blocks ++ residue n a := (List.take_append_drop _ a).symm
  have hlen : blocks.length = a.length / n * n := by
    rw [List.length_take, Nat.min_eq_left (Nat.div_mul_le_self _ _)]
  have hdvd : n ∣ blocks.length := by rw [hlen]; exact Nat.dvd_mul_left n _
  have hshort : blocks.length % n + (residue n a).length < n := by
    rw [Nat.mod_eq_zero_of_dvd hdvd, length_residue, Nat.zero_add]
    exact Nat.mod_lt _ hn
  have hchain : chain n compress s a = chain n compress s blocks := by
    conv_lhs => rw [hsplit]
    exact chain_append_short n compress hshort s
  conv_lhs => rw [hsplit, List.append_assoc]
  rw [chain_append n compress hn hdvd, hchain]

/-! ### Another end of a message -/

/-- The complete blocks. -/
def blocks (m : List α) : List α := m.take (m.length / n * n)

theorem blocks_append_residue (m : List α) : blocks n m ++ residue n m = m :=
  List.take_append_drop ..

theorem length_blocks (m : List α) : (blocks n m).length = m.length / n * n := by
  rw [blocks, List.length_take, Nat.min_eq_left (Nat.div_mul_le_self _ _)]

theorem dvd_length_blocks (m : List α) : n ∣ (blocks n m).length := by
  rw [length_blocks]
  exact Nat.dvd_mul_left n _

theorem residue_blocks_append {m x : List α} (hx : x.length < n) :
    residue n (blocks n m ++ x) = x := by
  rw [residue_append n (dvd_length_blocks n m), residue_eq_self n hx]

theorem chain_blocks_append {m x : List α} (hx : x.length < n) (s : σ) :
    chain n compress s (blocks n m ++ x) = chain n compress s m := by
  have hmod : (blocks n m).length % n = 0 := Nat.mod_eq_zero_of_dvd (dvd_length_blocks n m)
  have hn : 0 < n := Nat.zero_lt_of_lt hx
  have hshort : ∀ x : List α, x.length < n →
      chain n compress s (blocks n m ++ x) = chain n compress s (blocks n m) := by
    intro x hx
    apply chain_append_short
    rwa [hmod, Nat.zero_add]
  rw [hshort x hx, ← hshort (residue n m), blocks_append_residue]
  rw [length_residue]
  exact Nat.mod_lt _ hn

end Course.Lib.MerkleDamgard
