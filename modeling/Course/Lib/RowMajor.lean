import Course.Lib.CountedLoops
import Course.Lib.Grid

/-! Blocks of arrays whose rows lie a stride apart. -/

open Course.Lib.CountedLoops

namespace Course.Lib.RowMajor

variable {α : Type}

/-- The block at `base` holds the values of `X`. -/
def Shows (a : Array α) (base stride m n : ℕ) (X : ℕ → ℕ → α) : Prop :=
  ∀ i < m, ∀ j < n, a[base + (i * stride + j)]? = some (X i j)

/-- The block at `base` is inside the array. -/
def Holds (a : Array α) (base stride m n : ℕ) : Prop :=
  ∀ i < m, ∀ j < n, base + (i * stride + j) < a.size

/-- A block over `X`, at row `r` and column `c`. -/
def paste (r c m n : ℕ) (f X : ℕ → ℕ → α) : ℕ → ℕ → α := fun i j =>
  if r ≤ i ∧ i < r + m ∧ c ≤ j ∧ j < c + n then f (i - r) (j - c) else X i j

/-- The block at `base` is filled, and nothing else is changed. -/
structure Fills (base stride m n : ℕ) (f : ℕ → ℕ → α) (old new : Array α) : Prop where
  size : new.size = old.size
  shows : Shows new base stride m n f
  frame : ∀ p, (∀ i < m, ∀ j < n, p ≠ base + (i * stride + j)) → new[p]? = old[p]?

variable {a old new : Array α} {base stride m n m' n' r c : ℕ} {X f g : ℕ → ℕ → α}

theorem index_block (base stride r c i j : ℕ) :
    base + (r * stride + c) + (i * stride + j) = base + ((r + i) * stride + (c + j)) := by
  rw [Nat.add_mul]
  omega

theorem Shows.block (h : Shows a base stride m n X) (hr : r + m' ≤ m) (hc : c + n' ≤ n) :
    Shows a (base + (r * stride + c)) stride m' n' fun i j => X (r + i) (c + j) := by
  intro i hi j hj
  rw [index_block]
  exact h (r + i) (by omega) (c + j) (by omega)

theorem Holds.block (h : Holds a base stride m n) (hr : r + m' ≤ m) (hc : c + n' ≤ n) :
    Holds a (base + (r * stride + c)) stride m' n' := by
  intro i hi j hj
  rw [index_block]
  exact h (r + i) (by omega) (c + j) (by omega)

theorem Holds.shows [Inhabited α] (h : Holds a base stride m n) :
    Shows a base stride m n fun i j => a[base + (i * stride + j)]! := by
  intro i hi j hj
  have hlt := h i hi j hj
  rw [getElem?_pos a _ hlt]
  exact congrArg some (getElem!_pos a _ hlt).symm

theorem Shows.holds (h : Shows a base stride m n X) : Holds a base stride m n := by
  intro i hi j hj
  obtain ⟨hlt, -⟩ := Array.getElem?_eq_some_iff.mp (h i hi j hj)
  exact hlt

theorem Fills.holds (h : Fills base stride m n f old new) (hold : Holds old r c m' n') :
    Holds new r c m' n' :=
  fun i hi j hj => h.size.symm ▸ hold i hi j hj

theorem Fills.trans {mid : Array α} (h : Fills base stride m n f old mid)
    (h' : Fills base stride m n g mid new) : Fills base stride m n g old new :=
  ⟨h'.size.trans h.size, h'.shows, fun p hp => (h'.frame p hp).trans (h.frame p hp)⟩

/-- What a block is filled with lies over what was there. -/
theorem Fills.over (h : Fills (base + (r * stride + c)) stride m' n' f old new)
    (hX : Shows old base stride m n X) (hr : r + m' ≤ m) (hc : c + n' ≤ n) (hn : n ≤ stride) :
    Fills base stride m n (paste r c m' n' f X) old new := by
  refine ⟨h.size, fun i hi j hj => ?_, fun p hp => h.frame p fun i hi j hj => ?_⟩
  · rw [paste]
    split
    next hin =>
      have hcell := h.shows (i - r) (by omega) (j - c) (by omega)
      rwa [index_block, Nat.add_sub_cancel' hin.1, Nat.add_sub_cancel' hin.2.2.1] at hcell
    next hout =>
      rw [h.frame, hX i hi j hj]
      intro i' hi' j' hj' heq
      rw [index_block] at heq
      have hcell := index_inj (by omega) (by omega) (Nat.add_left_cancel heq)
      omega
  · rw [index_block]
    exact hp (r + i) (by omega) (c + j) (by omega)

/-- Two arrays that are filled in the same way are the same. -/
theorem Fills.unique {new' : Array α} (h : Fills base stride m n f old new)
    (h' : Fills base stride m n g old new') (hfg : ∀ i < m, ∀ j < n, f i j = g i j) :
    new = new' := by
  apply Array.ext_getElem?
  intro p
  by_cases hp : ∃ i < m, ∃ j < n, p = base + (i * stride + j)
  · obtain ⟨i, hi, j, hj, rfl⟩ := hp
    rw [h.shows i hi j hj, h'.shows i hi j hj, hfg i hi j hj]
  · push Not at hp
    rw [h.frame p hp, h'.frame p hp]

/-! ### Loops over a block -/

/-- `for (i = 0; i < m; ++i) for (j = 0; j < n; ++j)`. -/
def forEach {σ : Type} (m n : ℕ) (body : ℕ → ℕ → σ → Option σ) : σ → Option σ :=
  forDo 1 m fun i => forDo 1 n (body i)

/-- `result[i * stride + j] = value`. -/
def forFill (m n : ℕ) (value : ℕ → ℕ → Option α) (stride base : ℕ) : Array α → Option (Array α) :=
  forEach m n fun i j result => (value i j).bind (store result (base + (i * stride + j)))

/-- Its own cell is all that an iteration sets. -/
def Sets (base stride m n : ℕ) (f : ℕ → ℕ → α) (body : ℕ → ℕ → Array α → Option (Array α)) :
    Prop :=
  ∀ i < m, ∀ j < n, ∀ a, base + (i * stride + j) < a.size →
    ∃ b, body i j a = some b ∧ b.size = a.size ∧
      ∀ p, b[p]? = if p = base + (i * stride + j) then some (f i j) else a[p]?

theorem forEach_fills {body : ℕ → ℕ → Array α → Option (Array α)} (hn : n ≤ stride)
    (hbody : Sets base stride m n f body) (hold : Holds old base stride m n) :
    ∃ new, forEach m n body old = some new ∧ Fills base stride m n f old new := by
  let Inv (a : Array α) : Prop := a.size = old.size ∧
    ∀ p, (∀ i < m, ∀ j < n, p ≠ base + (i * stride + j)) → a[p]? = old[p]?
  let Done (c : ℕ × ℕ) (a : Array α) : Prop :=
    c.1 < m → c.2 < n → a[base + (c.1 * stride + c.2)]? = some (f c.1 c.2)
  have hcell : ∀ i < m, ∀ j < n, Does Inv Done (body i j) {(i, j)} := by
    rintro i hi j hj a ⟨hsize, hframe⟩
    obtain ⟨b, hb, hbsize, hget⟩ := hbody i hi j hj a (hsize.symm ▸ hold i hi j hj)
    refine ⟨b, hb, ⟨hbsize.trans hsize, fun p hp => ?_⟩, fun ⟨i', j'⟩ hdone hi' hj' => ?_, ?_⟩
    · rw [hget, if_neg (hp i hi j hj), hframe p hp]
    · rw [hget]
      split
      next heq =>
        obtain ⟨rfl, rfl⟩ := index_inj (hj'.trans_le hn) (hj.trans_le hn) (Nat.add_left_cancel heq)
        rfl
      · exact hdone hi' hj'
    · rintro _ rfl - -
      rw [hget, if_pos rfl]
  have hall : Does Inv Done (forEach m n body) {c | c.1 < m ∧ c.2 < n} := by
    refine (Does.forDo Nat.one_pos fun i hi _ =>
      Does.forDo Nat.one_pos fun j hj _ => hcell i hi j hj).mono ?_
    rintro ⟨i, j⟩ ⟨hi, hj⟩
    exact ⟨i, hi, Nat.one_dvd i, j, hj, Nat.one_dvd j, rfl⟩
  obtain ⟨new, hnew, ⟨hsize, hframe⟩, -, hdone⟩ := hall old ⟨rfl, fun _ _ => rfl⟩
  exact ⟨new, hnew, hsize, fun i hi j hj => hdone (i, j) ⟨hi, hj⟩ hi hj, hframe⟩

theorem forFill_fills {value : ℕ → ℕ → Option α} (hn : n ≤ stride)
    (hvalue : ∀ i < m, ∀ j < n, value i j = some (f i j)) (hold : Holds old base stride m n) :
    ∃ new, forFill m n value stride base old = some new ∧ Fills base stride m n f old new := by
  refine forEach_fills hn (fun i hi j hj a ha => ?_) hold
  obtain ⟨b, hb, hsize, hget⟩ := store_eq_some ha (f i j)
  exact ⟨b, by rw [hvalue i hi j hj, Option.bind_some, hb], hsize, hget⟩

end Course.Lib.RowMajor
