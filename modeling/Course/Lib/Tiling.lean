import Mathlib.Data.Int.ConditionallyCompleteOrder
import Mathlib.Data.List.Perm.Basic
import Mathlib.Order.CompletePartialOrder
import Mathlib.Order.ConditionallyCompleteLattice.Basic
import Mathlib.Order.Interval.Set.Disjoint

/-! Blocks of consecutive addresses that tile a set of addresses. -/

namespace Course.Lib

structure Block where
  start : ℤ
  length : ℕ
  deriving DecidableEq

namespace Block

def stop (b : Block) : ℤ := b.start + b.length

def points (b : Block) : Set ℤ := Set.Ico b.start b.stop

theorem mem_points {b : Block} {a : ℤ} : a ∈ b.points ↔ b.start ≤ a ∧ a < b.stop := Iff.rfl

theorem start_le_stop (b : Block) : b.start ≤ b.stop := by
  rw [stop]
  omega

theorem start_mem {b : Block} (h : 0 < b.length) : b.start ∈ b.points := by
  simp only [mem_points, stop]
  omega

theorem start_ne {b c : Block} (h : Disjoint b.points c.points) (hb : 0 < b.length)
    (hc : 0 < c.length) : b.start ≠ c.start := fun e =>
  Set.disjoint_left.mp h (start_mem hb) (e ▸ start_mem hc)

theorem stop_le_start {b c : Block} (h : Disjoint b.points c.points) (hc : 0 < c.length)
    (hlt : b.start < c.start) : b.stop ≤ c.start := by
  by_contra hstop
  refine Set.disjoint_left.mp h ?_ (start_mem hc)
  rw [mem_points]
  omega

end Block

/-- Every address of `r` is in exactly one of the blocks. -/
structure Tiles (r : Set ℤ) (bs : List Block) : Prop where
  disjoint : bs.Pairwise fun b c => Disjoint b.points c.points
  cover : ∀ a, a ∈ r ↔ ∃ b ∈ bs, a ∈ b.points

namespace Tiles

variable {r : Set ℤ} {b c d : Block} {bs cs : List Block}

theorem singleton (b : Block) : Tiles b.points [b] := ⟨by simp, by simp⟩

theorem perm (h : Tiles r bs) (hp : bs.Perm cs) : Tiles r cs where
  disjoint := hp.pairwise h.disjoint fun hbc => hbc.symm
  cover := fun a => (h.cover a).trans (by simp [hp.mem_iff])

theorem disjoint_of_mem (h : Tiles r (b :: bs)) (hc : c ∈ bs) : Disjoint b.points c.points :=
  List.rel_of_pairwise_cons h.disjoint hc

/-- Cutting a block in two, and joining two blocks that touch. -/
theorem split_iff (bs : List Block) (hstart : c.start = b.start) (hcut : c.stop = d.start)
    (hstop : d.stop = b.stop) :
    Tiles r (b :: bs) ↔ Tiles r (c :: d :: bs) := by
  have hlc := c.start_le_stop
  have hld := d.start_le_stop
  have hpoints : ∀ a, a ∈ b.points ↔ a ∈ c.points ∨ a ∈ d.points := fun a => by
    simp only [Block.mem_points]
    omega
  have hcd : Disjoint c.points d.points := Set.disjoint_left.mpr fun a hac had => by
    simp only [Block.mem_points] at hac had
    omega
  have hunion : b.points = c.points ∪ d.points := Set.ext hpoints
  constructor
  · intro h
    obtain ⟨hb, hbs⟩ := List.pairwise_cons.mp h.disjoint
    refine ⟨?_, fun a => ?_⟩
    · rw [List.pairwise_cons, List.pairwise_cons]
      refine ⟨fun e he => ?_, fun e he => ?_, hbs⟩
      · obtain rfl | he := List.mem_cons.mp he
        · exact hcd
        · exact (Set.disjoint_union_left.mp (hunion ▸ hb e he)).1
      · exact (Set.disjoint_union_left.mp (hunion ▸ hb e he)).2
    · rw [h.cover]
      simp [hpoints, or_assoc]
  · intro h
    obtain ⟨hc, hd⟩ := List.pairwise_cons.mp h.disjoint
    obtain ⟨hd, hbs⟩ := List.pairwise_cons.mp hd
    refine ⟨List.pairwise_cons.mpr ⟨fun e he => ?_, hbs⟩, fun a => ?_⟩
    · rw [hunion]
      exact Set.disjoint_union_left.mpr ⟨hc e (by simp [he]), hd e he⟩
    · rw [h.cover]
      simp [hpoints, or_assoc]

end Tiles

/-- Blocks in the order of their addresses with space between any two. -/
def Gaps (bs : List Block) : Prop := bs.Pairwise fun b c => b.stop < c.start

theorem Gaps.sorted (h : Gaps bs) : bs.Pairwise fun b c => b.start < c.start :=
  h.imp fun {b _} hbc => b.start_le_stop.trans_lt hbc

/-- What is left of a block once its first `n` addresses are taken. -/
def Block.rest (b : Block) (n : ℕ) : List Block :=
  if n < b.length then [⟨b.start + n, b.length - n⟩] else []

theorem Block.mem_rest {b c : Block} (h : c ∈ b.rest n) :
    b.start ≤ c.start ∧ c.stop = b.stop ∧ 0 < c.length := by
  rw [rest] at h
  split at h
  · obtain rfl := List.mem_singleton.mp h
    simp only [stop]
    omega
  · cases h

theorem Tiles.takeFront {r : Set ℤ} {b : Block} (h : Tiles r (left ++ b :: right))
    (hn : n ≤ b.length) : Tiles r (⟨b.start, n⟩ :: (left ++ b.rest n ++ right)) := by
  have hb : Tiles r (b :: (left ++ right)) := h.perm List.perm_middle
  rw [Block.rest]
  split
  · have hstop : (⟨b.start + n, b.length - n⟩ : Block).stop = b.stop := by
      simp only [Block.stop]
      omega
    have hsplit := Tiles.split_iff (r := r) (b := b) (c := ⟨b.start, n⟩)
      (d := ⟨b.start + n, b.length - n⟩) (left ++ right) rfl rfl hstop
    have hmiddle : (left ++ ⟨b.start + n, b.length - n⟩ :: right).Perm _ := List.perm_middle
    refine (hsplit.mp hb).perm (List.Perm.cons _ ?_)
    simpa using hmiddle.symm
  · have hlength : b.length = n := by omega
    obtain ⟨start, length⟩ := b
    obtain rfl : length = n := hlength
    simpa using hb

theorem Gaps.takeFront (h : Gaps (left ++ b :: right)) (n : ℕ) :
    Gaps (left ++ b.rest n ++ right) := by
  obtain ⟨hleft, hcons, hlr⟩ := List.pairwise_append.mp h
  obtain ⟨hb, hright⟩ := List.pairwise_cons.mp hcons
  have hrest : Gaps (b.rest n) := by
    rw [Block.rest]
    split
    · exact List.pairwise_singleton _ _
    · exact List.Pairwise.nil
  refine List.pairwise_append.mpr ⟨List.pairwise_append.mpr ⟨hleft, hrest, fun c hc d hd => ?_⟩,
    hright, fun c hc d hd => ?_⟩
  · exact (hlr c hc b (by simp)).trans_le (Block.mem_rest hd).1
  · obtain hc | hc := List.mem_append.mp hc
    · exact hlr c hc d (by simp [hd])
    · exact (Block.mem_rest hc).2.1 ▸ hb d hd

/-- A block between two lists of blocks with gaps, which it may still touch. -/
structure Hole (r : Set ℤ) (used left : List Block) (b : Block) (right : List Block) : Prop where
  tiles : Tiles r (b :: (left ++ right ++ used))
  gapsLeft : Gaps left
  gapsRight : Gaps right
  before : ∀ c ∈ left, c.stop ≤ b.start
  after : ∀ c ∈ right, b.stop ≤ c.start
  positive : ∀ c ∈ b :: (left ++ right), 0 < c.length

namespace Hole

variable {r : Set ℤ} {used left right : List Block} {b c : Block}

/-- The place of a block among the others, found by the addresses alone. -/
theorem of_sorted (ht : Tiles r (b :: (left ++ right ++ used))) (hgaps : Gaps (left ++ right))
    (hpos : ∀ c ∈ b :: (left ++ right), 0 < c.length) (hleft : ∀ c ∈ left, c.start < b.start)
    (hright : ∀ c ∈ right, b.start ≤ c.start) : Hole r used left b right where
  tiles := ht
  gapsLeft := (List.pairwise_append.mp hgaps).1
  gapsRight := (List.pairwise_append.mp hgaps).2.1
  before := fun c hc =>
    Block.stop_le_start (ht.disjoint_of_mem (by simp [hc])).symm (hpos b (by simp)) (hleft c hc)
  after := fun c hc => by
    have hdisjoint := ht.disjoint_of_mem (c := c) (by simp [hc])
    have hc' := hpos c (by simp [hc])
    have hne := Block.start_ne hdisjoint (hpos b (by simp)) hc'
    exact Block.stop_le_start hdisjoint hc' (lt_of_le_of_ne (hright c hc) hne)
  positive := hpos

theorem joinLeft (h : Hole r used (left ++ [c]) b right) (hc : c.stop = b.start) :
    Hole r used left ⟨c.start, c.length + b.length⟩ right ∧
      ∀ d ∈ left.getLast?, d.stop ≠ c.start := by
  have hlt : ∀ d ∈ left, d.stop < c.start := fun d hd =>
    (List.pairwise_append.mp h.gapsLeft).2.2 d hd c (by simp)
  have hstop : (⟨c.start, c.length + b.length⟩ : Block).stop = b.stop := by
    simp only [Block.stop] at hc ⊢
    omega
  refine ⟨⟨?_, (List.pairwise_append.mp h.gapsLeft).1, h.gapsRight, fun d hd => (hlt d hd).le,
    fun d hd => hstop ▸ h.after d hd, fun d hd => ?_⟩,
    fun d hd => (hlt d (List.mem_of_mem_getLast? hd)).ne⟩
  · have hsplit := Tiles.split_iff (r := r)
      (b := ⟨c.start, c.length + b.length⟩) (c := c) (d := b)
      (left ++ right ++ used) rfl hc hstop.symm
    refine hsplit.mpr (h.tiles.perm ?_)
    have hmiddle : (b :: left ++ c :: (right ++ used)).Perm (c :: (b :: left ++ (right ++ used))) :=
      List.perm_middle
    simpa using hmiddle
  · obtain rfl | hd := List.mem_cons.mp hd
    · exact Nat.add_pos_right _ (h.positive b (by simp))
    · refine h.positive d ?_
      simp only [List.mem_cons, List.mem_append] at hd ⊢
      tauto

theorem joinRight (h : Hole r used left b (c :: right)) (hc : b.stop = c.start) :
    Hole r used left ⟨b.start, b.length + c.length⟩ right ∧
      ∀ d ∈ right.head?, (⟨b.start, b.length + c.length⟩ : Block).stop ≠ d.start := by
  have hlt : ∀ d ∈ right, c.stop < d.start := fun d hd =>
    (List.pairwise_cons.mp h.gapsRight).1 d hd
  have hstop : (⟨b.start, b.length + c.length⟩ : Block).stop = c.stop := by
    simp only [Block.stop] at hc ⊢
    omega
  refine ⟨⟨?_, h.gapsLeft, (List.pairwise_cons.mp h.gapsRight).2, h.before,
    fun d hd => hstop ▸ (hlt d hd).le, fun d hd => ?_⟩,
    fun d hd => hstop ▸ (hlt d (List.mem_of_mem_head? hd)).ne⟩
  · have hsplit := Tiles.split_iff (r := r)
      (b := ⟨b.start, b.length + c.length⟩) (c := b) (d := c)
      (left ++ right ++ used) rfl hc hstop.symm
    refine hsplit.mpr (h.tiles.perm ?_)
    simp
  · obtain rfl | hd := List.mem_cons.mp hd
    · exact Nat.add_pos_left (h.positive b (by simp)) _
    · refine h.positive d ?_
      simp only [List.mem_cons, List.mem_append] at hd ⊢
      tauto

/-- Once it touches neither neighbour, the block is one of a list with gaps. -/
theorem gaps (h : Hole r used left b right) (hleft : ∀ c ∈ left.getLast?, c.stop ≠ b.start)
    (hright : ∀ c ∈ right.head?, b.stop ≠ c.start) : Gaps (left ++ b :: right) := by
  have hl : ∀ c ∈ left, c.stop < b.start := fun c hc => by
    obtain rfl | ⟨cs, d, rfl⟩ := List.eq_nil_or_concat' left
    · simp at hc
    · have hd : d.stop < b.start := lt_of_le_of_ne (h.before d (by simp)) (hleft d (by simp))
      obtain hc | hc := List.mem_append.mp hc
      · have hcd := (List.pairwise_append.mp h.gapsLeft).2.2 c hc d (by simp)
        exact hcd.trans_le (d.start_le_stop.trans hd.le)
      · exact List.mem_singleton.mp hc ▸ hd
  have hr : ∀ c ∈ right, b.stop < c.start := fun c hc => by
    cases right with
    | nil => simp at hc
    | cons d ds =>
      have hd : b.stop < d.start := lt_of_le_of_ne (h.after d (by simp)) (hright d (by simp))
      obtain rfl | hc := List.mem_cons.mp hc
      · exact hd
      · exact hd.trans (d.start_le_stop.trans_lt ((List.pairwise_cons.mp h.gapsRight).1 c hc))
  refine List.pairwise_append.mpr ⟨h.gapsLeft, List.pairwise_cons.mpr ⟨hr, h.gapsRight⟩, ?_⟩
  intro c hc d hd
  obtain rfl | hd := List.mem_cons.mp hd
  · exact hl c hc
  · exact (hl c hc).trans_le (b.start_le_stop.trans (hr d hd).le)

end Hole

end Course.Lib
