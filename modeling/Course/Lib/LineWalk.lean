import Mathlib.Data.Nat.Find
import Mathlib.Order.Interval.Set.UnorderedInterval
import Mathlib.Order.Lattice

/-! A walk in the plane seen from one line: which of its vertices are on the line, where its
edges cross it, and that a walk that runs along the line twice cannot avoid what it crosses. -/

universe u

namespace Course.Lib

/-- Edge `n` of the walk leads from vertex `n` to vertex `n + 1`. -/
structure LineWalk (K : Type u) [LinearOrder K] where
  on : ℕ → Prop
  pos : ℕ → K
  crosses : ℕ → Prop
  place : ℕ → K
  leave : ∀ n, on n → ¬on (n + 1) → crosses n ∧ place n = pos n
  enter : ∀ n, ¬on n → on (n + 1) → crosses n ∧ place n = pos (n + 1)
  off : ∀ n, crosses n → on n → ¬on (n + 1)

/-- Somewhere between two numbers a property is lost. -/
theorem exists_switch {P : ℕ → Prop} {a b : ℕ} (hab : a ≤ b) (ha : P a) (hb : ¬P b) :
    ∃ j, a ≤ j ∧ j < b ∧ P j ∧ ¬P (j + 1) := by
  induction b, hab using Nat.le_induction with
  | base => exact absurd ha hb
  | succ b hab ih =>
    by_cases h : P b
    · exact ⟨b, hab, Nat.lt_succ_self b, h, hb⟩
    · obtain ⟨j, hj, hlt, hstep⟩ := ih h
      exact ⟨j, hj, Nat.lt_succ_of_lt hlt, hstep⟩

/-- The last number before which a property fails. -/
theorem exists_last_not {P : ℕ → Prop} {a b : ℕ} (h : ∃ n, a ≤ n ∧ n ≤ b ∧ ¬P n) (hb : P b) :
    ∃ e, a ≤ e ∧ e < b ∧ ¬P e ∧ ∀ n, e < n → n ≤ b → P n := by
  obtain ⟨n, han, hnb, hn⟩ := h
  induction hd : b - n using Nat.strong_induction_on generalizing n with
  | _ d ih =>
    subst hd
    by_cases hrest : ∀ n', n < n' → n' ≤ b → P n'
    · exact ⟨n, han, lt_of_le_of_ne hnb fun heq => hn (heq ▸ hb), hn, hrest⟩
    · push Not at hrest
      obtain ⟨n', hlt, hle, hn'⟩ := hrest
      exact ih (b - n') (by omega) n' (by omega) hle hn' rfl

namespace LineWalk

variable {K : Type u} [LinearOrder K] (w : LineWalk K) {a b i j n : ℕ} {ξ : K}

/-- Edge `j` runs along the line, over the place `ξ`. -/
structure Covers (j : ℕ) (ξ : K) : Prop where
  left : w.on j
  right : w.on (j + 1)
  ne : w.pos j ≠ w.pos (j + 1)
  mem : ξ ∈ Set.uIcc (w.pos j) (w.pos (j + 1))

/-- Edge `i` crosses the line where edge `j` runs along it. -/
def Hits (i j : ℕ) : Prop := w.crosses i ∧ w.Covers j (w.place i)

variable {w}

/-- A stretch on the line covers every place between its ends. -/
theorem exists_covers (hab : a ≤ b) (hon : ∀ n, a ≤ n → n ≤ b → w.on n)
    (hne : w.pos a ≠ w.pos b) (hξ : ξ ∈ Set.uIcc (w.pos a) (w.pos b)) :
    ∃ j, a ≤ j ∧ j < b ∧ w.Covers j ξ := by
  have hcovers : ∀ {j}, a ≤ j → j < b → w.pos j ≤ ξ ∧ ξ < w.pos (j + 1) ∨
      w.pos j < ξ ∧ ξ ≤ w.pos (j + 1) ∨ ξ ≤ w.pos j ∧ w.pos (j + 1) < ξ ∨
      ξ < w.pos j ∧ w.pos (j + 1) ≤ ξ → w.Covers j ξ := by
    intro j haj hjb hcases
    refine ⟨hon j haj hjb.le, hon (j + 1) (by omega) hjb, ?_, ?_⟩
    · rcases hcases with h | h | h | h
      · exact (h.1.trans_lt h.2).ne
      · exact (h.1.trans_le h.2).ne
      · exact (h.2.trans_le h.1).ne'
      · exact (h.2.trans_lt h.1).ne'
    · rw [Set.mem_uIcc]
      rcases hcases with h | h | h | h
      · exact .inl ⟨h.1, h.2.le⟩
      · exact .inl ⟨h.1.le, h.2⟩
      · exact .inr ⟨h.2.le, h.1⟩
      · exact .inr ⟨h.2, h.1.le⟩
  rcases Set.mem_uIcc.mp hξ with ⟨ha, hb⟩ | ⟨hb, ha⟩
  · rcases hb.lt_or_eq with hb | rfl
    · obtain ⟨j, haj, hjb, h, h'⟩ :=
        exists_switch (P := fun n => w.pos n ≤ ξ) hab ha (not_le.mpr hb)
      exact ⟨j, haj, hjb, hcovers haj hjb (.inl ⟨h, not_le.mp h'⟩)⟩
    · obtain ⟨j, haj, hjb, h, h'⟩ := exists_switch (P := fun n => w.pos n < w.pos b) hab
        (lt_of_le_of_ne ha hne) (lt_irrefl _)
      exact ⟨j, haj, hjb, hcovers haj hjb (.inr (.inl ⟨h, not_lt.mp h'⟩))⟩
  · rcases hb.lt_or_eq with hb | rfl
    · obtain ⟨j, haj, hjb, h, h'⟩ :=
        exists_switch (P := fun n => ξ ≤ w.pos n) hab ha (not_le.mpr hb)
      exact ⟨j, haj, hjb, hcovers haj hjb (.inr (.inr (.inl ⟨h, not_le.mp h'⟩)))⟩
    · obtain ⟨j, haj, hjb, h, h'⟩ := exists_switch (P := fun n => w.pos b < w.pos n) hab
        (lt_of_le_of_ne ha hne.symm) (lt_irrefl _)
      exact ⟨j, haj, hjb, hcovers haj hjb (.inr (.inr (.inr ⟨h, not_lt.mp h'⟩)))⟩

/-- A walk from its start `o` that runs along the line from `b` back to `o` on edge `k`, comes to
`b` once more at vertex `m` and ends at vertex `last`.  Behind edge `k` no edge hits one before it,
and what is hit earlier only by edges that end at the start. -/
structure Returns (w : LineWalk K) (k m last : ℕ) : Prop where
  start : w.on 0
  home : w.on (k + 1) ∧ w.pos (k + 1) = w.pos 0
  away : w.on k
  lt : w.pos 0 < w.pos k
  again : w.on m ∧ w.pos m = w.pos k
  first : k + 1 < m
  bound : m ≤ last
  late : ∀ i j, k < j → j < last → i + 2 ≤ j → ¬w.Hits i j ∧ ¬w.Hits j i
  early : ∀ j, 2 ≤ j → j < k → w.Hits 0 j → w.pos (j + 1) = w.pos 0

/-- The way back to `b`: behind its last vertex off the line, vertex `e`, the walk enters the line
beyond `b`. -/
structure Detour (w : LineWalk K) (k m e : ℕ) : Prop where
  after : k + 1 < e
  before : e + 1 < m
  crosses : w.crosses e ∧ w.place e = w.pos (e + 1)
  stretch : ∀ n, e < n → n ≤ m → w.on n
  beyond : w.pos k < w.pos (e + 1)

namespace Returns

variable {k m last e : ℕ}

theorem covers_edge (h : w.Returns k m last) (ho : w.pos 0 ≤ ξ) (hb : ξ ≤ w.pos k) :
    w.Covers k ξ where
  left := h.away
  right := h.home.1
  ne := h.home.2.symm ▸ h.lt.ne'
  mem := Set.mem_uIcc.mpr (.inr ⟨h.home.2.symm ▸ ho, hb⟩)

theorem exists_detour (h : w.Returns k m last) (hi : i + 2 ≤ k) (hcross : w.crosses i)
    (ho : w.pos 0 ≤ w.place i) (hb : w.place i ≤ w.pos k) : ∃ e, w.Detour k m e := by
  have hfirst := h.first
  have hbound := h.bound
  -- on the line all the way it would run over the place that edge `i` crosses
  have hleaves : ∃ n, k + 1 ≤ n ∧ n ≤ m ∧ ¬w.on n := by
    by_contra hall
    push Not at hall
    obtain ⟨j, hj, hjm, hcovers⟩ := exists_covers (by omega) hall
      (by rw [h.home.2, h.again.2]; exact h.lt.ne)
      (by rw [h.home.2, h.again.2]; exact Set.mem_uIcc.mpr (.inl ⟨ho, hb⟩))
    exact (h.late i j (by omega) (by omega) (by omega)).1 ⟨hcross, hcovers⟩
  obtain ⟨e, hke, hem, hoff, hstretch⟩ := exists_last_not hleaves h.again.1
  have hafter : k + 1 < e := lt_of_le_of_ne hke fun heq => hoff (heq ▸ h.home.1)
  obtain ⟨hcrosse, hplace⟩ := w.enter e hoff (hstretch (e + 1) (by omega) (by omega))
  have hout : ∀ {ξ}, w.place e = ξ → w.pos 0 ≤ ξ → ¬ξ ≤ w.pos k := by
    rintro ξ rfl ho hb
    exact (h.late k e (by omega) (by omega) (by omega)).2 ⟨hcrosse, h.covers_edge ho hb⟩
  have hbefore : e + 1 < m := by
    refine lt_of_le_of_ne hem fun heq => hout hplace ?_ ?_
    · rw [heq, h.again.2]
      exact h.lt.le
    · rw [heq, h.again.2]
  refine ⟨e, hafter, hbefore, ⟨hcrosse, hplace⟩, hstretch, ?_⟩
  by_contra hle
  have hlow : w.pos (e + 1) < w.pos 0 := not_le.mp fun ho => hout hplace ho (not_lt.mp hle)
  obtain ⟨j, hj, hjm, hcovers⟩ := exists_covers (w := w) hem
    (fun n hn => hstretch n (by omega)) (ξ := w.place i)
    (by rw [h.again.2]; exact (hlow.trans h.lt).ne)
    (by rw [h.again.2]; exact Set.mem_uIcc.mpr (.inl ⟨hlow.le.trans ho, hb⟩))
  exact (h.late i j (by omega) (by omega) (by omega)).1 ⟨hcross, hcovers⟩

theorem detour_covers (h : w.Returns k m last) (d : w.Detour k m e) (hb : w.pos k ≤ ξ)
    (he : ξ ≤ w.pos (e + 1)) : ∃ j, e < j ∧ j < m ∧ w.Covers j ξ := by
  obtain ⟨j, hj, hjm, hcovers⟩ := LineWalk.exists_covers (w := w) (ξ := ξ) d.before.le
    (fun n hn => d.stretch n (by omega)) (by rw [h.again.2]; exact d.beyond.ne')
    (by rw [h.again.2]; exact Set.mem_uIcc.mpr (.inr ⟨hb, he⟩))
  exact ⟨j, by omega, hjm, hcovers⟩

/-- What the way back runs over no earlier edge crosses. -/
theorem not_crosses (h : w.Returns k m last) (d : w.Detour k m e) (hi : i + 1 ≤ k)
    (hcross : w.crosses i) (hb : w.pos k ≤ w.place i) : ¬w.place i ≤ w.pos (e + 1) := by
  intro he
  have hafter := d.after
  have hbound := h.bound
  obtain ⟨j, hj, hjm, hcovers⟩ := h.detour_covers d hb he
  exact (h.late i j (by omega) (by omega) (by omega)).1 ⟨hcross, hcovers⟩

/-- If an edge crosses edge `k`, then one that does not begin at the start does. -/
theorem exists_crosses (h : w.Returns k m last) (d : w.Detour k m e) (hi : i + 2 ≤ k)
    (hcross : w.crosses i) (ho : w.pos 0 ≤ w.place i) (hb : w.place i ≤ w.pos k) :
    ∃ i, 1 ≤ i ∧ i + 2 ≤ k ∧ w.crosses i ∧ w.pos 0 ≤ w.place i ∧ w.place i < w.pos k := by
  have hafter := d.after
  have hbefore := d.before
  have hbound := h.bound
  rcases Nat.eq_zero_or_pos i with rfl | hpos
  · -- the walk leaves the line at its start and has to come back to it before `b`
    have hoff := w.off 0 hcross h.start
    have hplace := (w.leave 0 h.start hoff).2
    obtain ⟨f, hf, hfk, hoff, hstretch⟩ :=
      exists_last_not (P := w.on) ⟨1, le_rfl, by omega, hoff⟩ h.away
    obtain ⟨hcrossf, hplacef⟩ := w.enter f hoff (hstretch (f + 1) (by omega) (by omega))
    by_cases hfar : w.pos k ≤ w.place f
    · exfalso
      have hlt := not_le.mp (h.not_crosses d (by omega) hcrossf hfar)
      rw [hplacef] at hlt
      obtain ⟨j, hj, hjk, hcovers⟩ := exists_covers (w := w) (ξ := w.pos (e + 1)) hfk
        (fun n hn => hstretch n (by omega)) (d.beyond.trans hlt).ne'
        (Set.mem_uIcc.mpr (.inr ⟨d.beyond.le, hlt.le⟩))
      rw [← d.crosses.2] at hcovers
      exact (h.late j e (by omega) (by omega) (by omega)).2 ⟨d.crosses.1, hcovers⟩
    · have hnear := not_le.mp hfar
      have hne : f + 1 ≠ k := by
        rintro heq
        rw [hplacef, heq] at hnear
        exact lt_irrefl _ hnear
      by_cases hof : w.pos 0 ≤ w.place f
      · exact ⟨f, hf, by omega, hcrossf, hof, hnear⟩
      · -- on its way to `b` it would run over the start and go on
        exfalso
        rw [hplacef, not_le] at hof
        obtain ⟨j, hj, hjk, hle, hlt⟩ := exists_switch (P := fun n => w.pos n ≤ w.pos 0) hfk
          hof.le (not_le.mpr h.lt)
        rw [not_le] at hlt
        have hcovers : w.Covers j (w.place 0) :=
          ⟨hstretch j (by omega) (by omega), hstretch (j + 1) (by omega) (by omega),
            (hle.trans_lt hlt).ne, Set.mem_uIcc.mpr (.inl ⟨hplace ▸ hle, hplace ▸ hlt.le⟩)⟩
        exact hlt.ne' (h.early j (by omega) hjk ⟨hcross, hcovers⟩)
  · refine ⟨i, hpos, hi, hcross, ho, lt_of_le_of_ne hb fun heq => ?_⟩
    exact h.not_crosses d (by omega) hcross heq.ge (heq.trans_le d.beyond.le)

/-- Between what crosses edge `k` and the end of the detour the walk cannot leave the line. -/
theorem trapped (h : w.Returns k m last) (d : w.Detour k m e) (hi : i + 2 ≤ k)
    (hcross : w.crosses i) (ho : w.pos 0 ≤ w.place i) (hb : w.place i < w.pos k) :
    ∀ n, m ≤ n → n ≤ last → w.on n ∧ w.place i < w.pos n ∧ w.pos n < w.pos (e + 1) := by
  have hafter := d.after
  have hbefore := d.before
  intro n hmn
  induction n, hmn using Nat.le_induction with
  | base =>
    intro _
    rw [h.again.2]
    exact ⟨h.again.1, hb, d.beyond⟩
  | succ n hmn ih =>
    intro hlast
    obtain ⟨hon, hlow, hhigh⟩ := ih (by omega)
    have hon' : w.on (n + 1) := by
      by_contra hoff
      obtain ⟨hcrossn, hplace⟩ := w.leave n hon hoff
      by_cases hle : w.pos n ≤ w.pos k
      · have hcovers := h.covers_edge (ho.trans hlow.le) hle
        rw [← hplace] at hcovers
        exact (h.late k n (by omega) (by omega) (by omega)).2 ⟨hcrossn, hcovers⟩
      · obtain ⟨j, hj, hjm, hcovers⟩ := h.detour_covers d (not_le.mp hle).le hhigh.le
        have hne : m ≠ n := by
          rintro rfl
          exact hle h.again.2.le
        rw [← hplace] at hcovers
        exact (h.late j n (by omega) (by omega) (by omega)).2 ⟨hcrossn, hcovers⟩
    refine ⟨hon', not_le.mp fun hle => ?_, not_le.mp fun hle => ?_⟩
    · have hcovers : w.Covers n (w.place i) :=
        ⟨hon, hon', (hle.trans_lt hlow).ne', Set.mem_uIcc.mpr (.inr ⟨hle, hlow.le⟩)⟩
      exact (h.late i n (by omega) (by omega) (by omega)).1 ⟨hcross, hcovers⟩
    · have hcovers : w.Covers n (w.place e) := by
        rw [d.crosses.2]
        exact ⟨hon, hon', (hhigh.trans_le hle).ne, Set.mem_uIcc.mpr (.inl ⟨hhigh.le, hle⟩)⟩
      exact (h.late e n (by omega) (by omega) (by omega)).1 ⟨d.crosses.1, hcovers⟩

/-- What edge `k` runs over, the edge that closes the walk runs over as well. -/
theorem exists_closing (h : w.Returns k m last) (hi : i + 2 ≤ k) (hit : w.Hits i k) :
    ∃ i, 1 ≤ i ∧ i + 2 ≤ k ∧ w.crosses i ∧ w.on last ∧ w.pos 0 ≤ w.place i ∧
      w.place i < w.pos last := by
  obtain ⟨hcross, hcovers⟩ := hit
  have hmem := hcovers.mem
  rw [h.home.2, Set.uIcc_of_ge h.lt.le] at hmem
  obtain ⟨e, d⟩ := h.exists_detour hi hcross hmem.1 hmem.2
  obtain ⟨i, hpos, hi, hcross, ho, hb⟩ := h.exists_crosses d hi hcross hmem.1 hmem.2
  obtain ⟨hon, hlow, -⟩ := h.trapped d hi hcross ho hb last h.bound le_rfl
  exact ⟨i, hpos, hi, hcross, hon, ho, hlow⟩

end Returns

end LineWalk

end Course.Lib
