import Mathlib.Data.Set.BooleanAlgebra
import Mathlib.Data.Set.Disjoint
import Mathlib.Order.Bounds.Basic
import Mathlib.Order.CompletePartialOrder

/-! Slabs that are laid one after the other on a ground, and the heights that
they reach. -/

namespace Course.Lib

/-- A slab covers places of the ground between two heights. -/
structure Slab (ι β : Type) where
  base : Set ι
  bottom : β
  top : β

variable {ι β : Type} [LinearOrder β]

namespace Slab

/-- The points that a slab takes. -/
def points (s : Slab ι β) : Set (ι × β) := {p | p.1 ∈ s.base ∧ s.bottom ≤ p.2 ∧ p.2 < s.top}

/-- A slab lies on the greatest of the heights under it. -/
def LiesOn (s : Slab ι β) (h : ι → β) : Prop := IsGreatest (h '' s.base) s.bottom

/-- The heights once a slab is laid. -/
def Raises (s : Slab ι β) (h h' : ι → β) : Prop :=
  (∀ c ∈ s.base, h' c = s.top) ∧ ∀ c ∉ s.base, h' c = h c

end Slab

/-- Slabs that were laid one after the other, with the heights and the greatest
height that they reach. -/
inductive Pile (ground : β) : List (Slab ι β) → (ι → β) → β → Prop
  | nil : Pile ground [] (fun _ => ground) ground
  | lay : Pile ground slabs h height → s.LiesOn h → s.bottom < s.top → s.Raises h h' →
    Pile ground (slabs ++ [s]) h' (max height s.top)

variable {ground height : β} {slabs : List (Slab ι β)} {s s' : Slab ι β} {h h' : ι → β}

/-- The tops of the slabs over a set of places, and the ground. -/
def tops (ground : β) (slabs : List (Slab ι β)) (base : Set ι) : Set β :=
  insert ground {t | ∃ s ∈ slabs, (s.base ∩ base).Nonempty ∧ s.top = t}

omit [LinearOrder β] in
theorem mem_tops_concat {base : Set ι} {t : β} :
    t ∈ tops ground (slabs ++ [s]) base ↔
      t ∈ tops ground slabs base ∨ (s.base ∩ base).Nonempty ∧ s.top = t := by
  simp only [tops, Set.mem_insert_iff, Set.mem_ofPred_eq, List.mem_append, List.mem_singleton]
  grind

/-- Every height is the greatest top over its place. -/
def Skyline (ground : β) (slabs : List (Slab ι β)) (h : ι → β) : Prop :=
  ∀ c, IsGreatest (tops ground slabs {c}) (h c)

namespace Skyline

theorem nil : Skyline ground ([] : List (Slab ι β)) fun _ => ground := by
  intro c
  simp [tops, isGreatest_singleton]

theorem top_le (hsky : Skyline ground slabs h) (hs : s ∈ slabs) {c : ι} (hc : c ∈ s.base) :
    s.top ≤ h c :=
  (hsky c).2 (.inr ⟨s, hs, ⟨c, hc, rfl⟩, rfl⟩)

theorem ground_le (hsky : Skyline ground slabs h) (c : ι) : ground ≤ h c :=
  (hsky c).2 (.inl rfl)

/-- A slab that is laid on the heights hides what was under it. -/
theorem concat (hsky : Skyline ground slabs h) (hlies : s.LiesOn h) (hthick : s.bottom < s.top)
    (hraises : s.Raises h h') : Skyline ground (slabs ++ [s]) h' := by
  intro c
  by_cases hc : c ∈ s.base
  · rw [hraises.1 c hc]
    have hbelow : h c < s.top := (hlies.2 ⟨c, hc, rfl⟩).trans_lt hthick
    refine ⟨mem_tops_concat.mpr (.inr ⟨⟨c, hc, rfl⟩, rfl⟩), fun t ht => ?_⟩
    rcases mem_tops_concat.mp ht with hold | ⟨-, rfl⟩
    · exact ((hsky c).2 hold).trans hbelow.le
    · exact le_rfl
  · rw [hraises.2 c hc]
    refine ⟨mem_tops_concat.mpr (.inl (hsky c).1), fun t ht => ?_⟩
    rcases mem_tops_concat.mp ht with hold | ⟨⟨c', hc', hcc'⟩, -⟩
    · exact (hsky c).2 hold
    · exact absurd (Set.mem_singleton_iff.mp hcc' ▸ hc') hc

/-- It takes no point that a slab before it takes. -/
theorem disjoint (hsky : Skyline ground slabs h) (hs : s ∈ slabs) (hlies : s'.LiesOn h) :
    Disjoint s.points s'.points := by
  rw [Set.disjoint_left]
  rintro ⟨c, t⟩ ⟨hc, -, htop⟩ ⟨hc', hbottom, -⟩
  have hover := hsky.top_le hs hc
  have hunder := hlies.2 ⟨c, hc', rfl⟩
  exact absurd (hover.trans (hunder.trans hbottom)) (not_le.mpr htop)

/-- The height it lies on is a top, or the ground. -/
theorem liesOn (hsky : Skyline ground slabs h) (hlies : s.LiesOn h) :
    IsGreatest (tops ground slabs s.base) s.bottom := by
  obtain ⟨⟨c, hc, hbottom⟩, hgreatest⟩ := hlies
  constructor
  · rcases (hsky c).1 with hground | ⟨s', hs', ⟨c', hc', hcc'⟩, htop⟩
    · exact .inl (hbottom.symm.trans hground)
    · exact .inr ⟨s', hs', ⟨c', hc', Set.mem_singleton_iff.mp hcc' ▸ hc⟩, htop.trans hbottom⟩
  · rintro t (rfl | ⟨s', hs', ⟨c', hc', hc''⟩, rfl⟩)
    · exact (hsky.ground_le c).trans (hgreatest ⟨c, hc, rfl⟩)
    · exact (hsky.top_le hs' hc').trans (hgreatest ⟨c', hc'', rfl⟩)

end Skyline

/-- The greatest of all heights. -/
def Peak (ground : β) (h : ι → β) (height : β) : Prop :=
  IsGreatest (insert ground (Set.range h)) height

theorem Peak.nil : Peak ground (fun _ : ι => ground) ground :=
  ⟨.inl rfl, by rintro t (rfl | ⟨c, rfl⟩) <;> exact le_rfl⟩

theorem Peak.raise (hpeak : Peak ground h height) (hlies : s.LiesOn h) (hthick : s.bottom < s.top)
    (hraises : s.Raises h h') : Peak ground h' (max height s.top) := by
  obtain ⟨c₀, hc₀, -⟩ := hlies.1
  constructor
  · rcases le_total height s.top with hle | hle
    · rw [max_eq_right hle]
      exact .inr ⟨c₀, hraises.1 c₀ hc₀⟩
    · rw [max_eq_left hle]
      rcases hpeak.1 with hground | ⟨c, hc⟩
      · exact .inl hground
      · refine .inr ⟨c, ?_⟩
        by_cases hbase : c ∈ s.base
        · have hbelow : h c < s.top := (hlies.2 ⟨c, hbase, rfl⟩).trans_lt hthick
          exact absurd (hle.trans_eq hc.symm) (not_le.mpr hbelow)
        · rw [hraises.2 c hbase, hc]
  · rintro t (rfl | ⟨c, rfl⟩)
    · exact (hpeak.2 (.inl rfl)).trans (le_max_left _ _)
    · by_cases hbase : c ∈ s.base
      · rw [hraises.1 c hbase]
        exact le_max_right _ _
      · rw [hraises.2 c hbase]
        exact (hpeak.2 (.inr ⟨c, rfl⟩)).trans (le_max_left _ _)

namespace Pile

theorem skyline (hp : Pile ground slabs h height) : Skyline ground slabs h := by
  induction hp with
  | nil => exact .nil
  | lay _ hlies hthick hraises ih => exact ih.concat hlies hthick hraises

theorem peak (hp : Pile ground slabs h height) : Peak ground h height := by
  induction hp with
  | nil => exact .nil
  | lay _ hlies hthick hraises ih => exact ih.raise hlies hthick hraises

theorem disjoint (hp : Pile ground slabs h height) :
    slabs.Pairwise fun s s' => Disjoint s.points s'.points := by
  induction hp with
  | nil => exact .nil
  | lay hp hlies _ _ ih =>
    refine List.pairwise_append.mpr ⟨ih, List.pairwise_singleton .., fun s hs s' hs' => ?_⟩
    obtain rfl := List.mem_singleton.mp hs'
    exact hp.skyline.disjoint hs hlies

/-- Every slab lies on what was laid before it. -/
theorem rests (hp : Pile ground slabs h height) {front back : List (Slab ι β)}
    (heq : slabs = front ++ s :: back) : IsGreatest (tops ground front s.base) s.bottom := by
  induction hp generalizing back with
  | nil => simp at heq
  | lay hp hlies _ _ ih =>
    rcases List.eq_nil_or_concat back with rfl | ⟨back, last, rfl⟩
    · obtain ⟨rfl, hlast⟩ := List.append_inj' heq rfl
      obtain rfl := List.singleton_inj.mp hlast
      exact hp.skyline.liesOn hlies
    · rw [List.concat_eq_append, ← List.cons_append, ← List.append_assoc] at heq
      exact ih (List.append_inj' heq rfl).1

theorem ground_le (hp : Pile ground slabs h height) (hs : s ∈ slabs) : ground ≤ s.bottom := by
  obtain ⟨front, back, heq⟩ := List.append_of_mem hs
  exact (hp.rests heq).2 (.inl rfl)

end Pile

end Course.Lib
