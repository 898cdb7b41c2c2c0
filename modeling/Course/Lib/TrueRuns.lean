import Mathlib.Data.List.Range
import Course.Lib.Stretch

/-! Runs of `true` in a list: at its two ends, the longest one, and the first one that is long
enough, and what the two halves of a list say about them. -/

namespace Course.Lib

/-- How often a list begins with `true`. -/
def lead : List Bool → ℕ
  | [] => 0
  | false :: _ => 0
  | true :: xs => lead xs + 1

/-- How often it ends with `true`. -/
def trail (xs : List Bool) : ℕ := lead xs.reverse

def longest : List Bool → ℕ
  | [] => 0
  | x :: xs => max (lead (x :: xs)) (longest xs)

/-- Where the first run of `len` begins. -/
def firstFit (len : ℕ) : List Bool → Option ℕ
  | [] => none
  | x :: xs => if len ≤ lead (x :: xs) then some 0 else (firstFit len xs).map (· + 1)

variable {xs ys : List Bool} {len : ℕ}

theorem lead_le (xs : List Bool) : lead xs ≤ xs.length := by
  induction xs with
  | nil => exact le_rfl
  | cons x xs ih =>
    cases x with
    | false => exact Nat.zero_le _
    | true => exact Nat.succ_le_succ ih

theorem trail_le (xs : List Bool) : trail xs ≤ xs.length := by
  rw [← List.length_reverse]
  exact lead_le _

theorem lead_eq_length : lead xs = xs.length ↔ ∀ x ∈ xs, x = true := by
  induction xs with
  | nil => simp [lead]
  | cons x xs ih =>
    cases x with
    | false => simp [lead]
    | true => simp [lead, ih]

theorem trail_eq_length : trail xs = xs.length ↔ ∀ x ∈ xs, x = true := by
  rw [trail, ← List.length_reverse, lead_eq_length]
  simp

theorem lead_append (xs ys : List Bool) :
    lead (xs ++ ys) = if lead xs = xs.length then lead xs + lead ys else lead xs := by
  induction xs with
  | nil => simp [lead]
  | cons x xs ih =>
    cases x with
    | false => simp [lead]
    | true =>
      simp only [List.cons_append, lead, ih, List.length_cons, Nat.add_right_cancel_iff]
      split <;> omega

theorem trail_append (xs ys : List Bool) :
    trail (xs ++ ys) = if trail ys = ys.length then trail ys + trail xs else trail ys := by
  rw [trail, List.reverse_append, lead_append, List.length_reverse]
  rfl

theorem trail_cons_false (xs : List Bool) : trail (false :: xs) = trail xs := by
  have happend := trail_append [false] xs
  rw [List.singleton_append, show trail [false] = 0 from rfl, Nat.add_zero, ite_self] at happend
  exact happend

theorem trail_cons_true (xs : List Bool) :
    trail (true :: xs) = if lead xs = xs.length then trail xs + 1 else trail xs := by
  have happend := trail_append [true] xs
  rw [List.singleton_append, show trail [true] = 1 from rfl] at happend
  rw [happend]
  simp only [trail_eq_length, lead_eq_length]

theorem trail_eq_of_lead (h : lead xs = xs.length) : trail xs = xs.length :=
  trail_eq_length.mpr (lead_eq_length.mp h)

theorem longest_le (xs : List Bool) : longest xs ≤ xs.length := by
  induction xs with
  | nil => exact le_rfl
  | cons x xs ih => exact Nat.max_le.mpr ⟨lead_le _, ih.trans (Nat.le_succ _)⟩

theorem lead_le_longest (xs : List Bool) : lead xs ≤ longest xs := by
  cases xs with
  | nil => exact le_rfl
  | cons x xs => exact Nat.le_max_left _ _

/-- The longest run of two halves is in one of them or goes over the middle. -/
theorem longest_append (xs ys : List Bool) :
    longest (xs ++ ys) = max (max (longest xs) (longest ys)) (lead ys + trail xs) := by
  induction xs with
  | nil =>
    have := lead_le_longest ys
    simp [longest, trail, lead, this]
  | cons x xs ih =>
    rw [List.cons_append, longest, longest, ih]
    cases x with
    | false =>
      rw [trail_cons_false, lead, lead]
      omega
    | true =>
      have hlead := lead_le_longest xs
      rw [trail_cons_true, lead, lead, lead_append]
      split
      next hall =>
        have htrail := trail_eq_of_lead hall
        omega
      next => omega

theorem longest_of_forall {b : Bool} (h : ∀ x ∈ xs, x = b) :
    longest xs = if b then xs.length else 0 := by
  induction xs with
  | nil => cases b <;> rfl
  | cons x xs ih =>
    obtain ⟨rfl, hxs⟩ := List.forall_mem_cons.mp h
    rw [longest, ih hxs]
    cases x with
    | false => rfl
    | true =>
      rw [lead, lead_eq_length.mpr hxs]
      exact Nat.max_eq_left (Nat.le_succ _)

theorem lead_of_forall {b : Bool} (h : ∀ x ∈ xs, x = b) :
    lead xs = if b then xs.length else 0 := by
  cases b with
  | true => exact lead_eq_length.mpr h
  | false =>
    have hle := lead_le_longest xs
    rw [longest_of_forall h] at hle
    exact Nat.le_zero.mp hle

theorem trail_of_forall {b : Bool} (h : ∀ x ∈ xs, x = b) :
    trail xs = if b then xs.length else 0 := by
  rw [trail, lead_of_forall fun x hx => h x (List.mem_reverse.mp hx), List.length_reverse]

theorem firstFit_eq_none (hlen : 0 < len) : firstFit len xs = none ↔ longest xs < len := by
  induction xs with
  | nil => simp [firstFit, longest, hlen]
  | cons x xs ih =>
    rw [firstFit, longest]
    split
    next hle => exact ⟨fun h => absurd h (Option.some_ne_none _), fun h => by omega⟩
    next hlt =>
      rw [Option.map_eq_none_iff, ih]
      omega

theorem firstFit_of_le_lead (h : len ≤ lead xs) (hxs : xs ≠ []) : firstFit len xs = some 0 := by
  cases xs with
  | nil => exact absurd rfl hxs
  | cons x xs => exact if_pos h

/-- The first fit in two halves: in the first one, over the middle, or in the second one. -/
theorem firstFit_append (hlen : 0 < len) (xs ys : List Bool) :
    firstFit len (xs ++ ys) = (firstFit len xs).or
      (if len ≤ trail xs + lead ys then some (xs.length - trail xs)
      else (firstFit len ys).map (· + xs.length)) := by
  induction xs with
  | nil =>
    cases ys with
    | nil =>
      have hne := hlen.ne'
      simp [firstFit, trail, lead, hne]
    | cons y ys => simp [firstFit, trail, lead]
  | cons x xs ih =>
    have htrail := trail_le xs
    -- one step on, where the halves are as the induction has them
    have next : ∀ t, t ≤ xs.length →
        ((firstFit len xs).or (if len ≤ t + lead ys then some (xs.length - t)
          else (firstFit len ys).map (· + xs.length))).map (· + 1) =
        ((firstFit len xs).map (· + 1)).or (if len ≤ t + lead ys then
          some ((x :: xs).length - t) else (firstFit len ys).map (· + (x :: xs).length)) := by
      intro t ht
      rw [Option.map_or, apply_ite (Option.map (· + 1)), Option.map_some, Option.map_map,
        List.length_cons, show xs.length - t + 1 = xs.length + 1 - t by omega]
      rfl
    rw [List.cons_append, firstFit, firstFit, ih]
    cases x with
    | false =>
      have hpos : ¬len ≤ 0 := by omega
      rw [lead, lead, if_neg hpos, if_neg hpos, trail_cons_false]
      exact next _ htrail
    | true =>
      rw [lead, lead, lead_append, trail_cons_true]
      by_cases hfit : len ≤ lead xs + 1
      · rw [if_pos hfit, if_pos (by split <;> omega)]
        rfl
      · rw [if_neg hfit]
        by_cases hall : lead xs = xs.length
        · rw [if_pos hall, if_pos hall]
          have hnone : firstFit len xs = none := by
            rw [firstFit_eq_none hlen]
            have := longest_le xs
            omega
          have hfull := trail_eq_of_lead hall
          rw [hnone]
          by_cases hover : len ≤ lead xs + lead ys + 1
          · rw [if_pos hover, if_pos (by omega), hfull, List.length_cons, Nat.sub_self]
            rfl
          · rw [if_neg hover, if_neg (by omega), if_neg (by omega)]
            simp [Function.comp_def, Nat.add_assoc]
        · rw [if_neg hall, if_neg hall, if_neg hfit]
          exact next _ htrail

/-! ### In a stretch of a sequence -/

variable {g : ℕ → Bool} {left right : ℕ}

theorem le_lead_stretch : len ≤ lead (stretch g left right) ↔
    len = 0 ∨ left + len ≤ right ∧ ∀ j < len, g (left + j) = true := by
  induction len generalizing left with
  | zero => simp
  | succ len ih =>
    rcases Nat.lt_or_ge left right with hlt | hge
    · rw [stretch_cons hlt]
      cases hg : g left with
      | false =>
        refine ⟨fun h => absurd h (by simp [lead]), fun h => ?_⟩
        rcases h with h | ⟨-, h⟩
        · omega
        · exact absurd (h 0 (Nat.succ_pos _)) (by simp [hg])
      | true =>
        rw [lead, Nat.succ_le_succ_iff, ih]
        constructor
        · intro h
          refine .inr ⟨by omega, fun j hj => ?_⟩
          cases j with
          | zero => exact hg
          | succ j =>
            rw [← Nat.add_assoc, Nat.add_right_comm]
            exact (h.resolve_left (by omega)).2 j (by omega)
        · intro h
          obtain ⟨hle, hj⟩ := h.resolve_left (by omega)
          refine .inr ⟨by omega, fun j hlt => ?_⟩
          rw [Nat.add_right_comm]
          exact hj (j + 1) (by omega)
    · have hempty : stretch g left right = [] := by
        rw [← List.length_eq_zero_iff, length_stretch]
        omega
      rw [hempty]
      refine ⟨fun h => absurd h (by simp [lead]), fun h => ?_⟩
      omega

/-- There are `len` places from `i` on, all of them before `right`. -/
def fitsAt (g : ℕ → Bool) (right len i : ℕ) : Bool :=
  decide (i + len ≤ right ∧ ∀ j < len, g (i + j) = true)

theorem fitsAt_iff (h : left ≤ right) :
    fitsAt g right len left = true ↔ len ≤ lead (stretch g left right) := by
  rw [le_lead_stretch, fitsAt, decide_eq_true_iff]
  constructor
  · exact Or.inr
  · rintro (rfl | hfit)
    · exact ⟨h, fun j hj => absurd hj (Nat.not_lt_zero j)⟩
    · exact hfit

/-- The first fit is found by looking at every place. -/
theorem firstFit_stretch (h : left ≤ right) : (firstFit len (stretch g left right)).map (· + left) =
    (List.range' left (right - left)).find? (fitsAt g right len) := by
  induction hsize : right - left generalizing left with
  | zero =>
    obtain rfl : left = right := by omega
    rw [stretch_self]
    rfl
  | succ d ih =>
    have hlt : left < right := by omega
    have hfits : fitsAt g right len left = true ↔ _ := fitsAt_iff h
    rw [List.range'_succ, stretch_cons hlt, firstFit, ← stretch_cons hlt]
    by_cases hfit : len ≤ lead (stretch g left right)
    · rw [if_pos hfit, List.find?_cons_of_pos (hfits.mpr hfit), Option.map_some, Nat.zero_add]
    · rw [if_neg hfit, List.find?_cons_of_neg (hfits.not.mpr hfit), ← ih (by omega) (by omega),
        Option.map_map]
      refine congrArg (fun f => Option.map f _) ?_
      funext k
      exact (Nat.add_right_comm k 1 left).trans (Nat.add_assoc k left 1)

end Course.Lib
