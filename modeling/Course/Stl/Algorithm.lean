import Course.Lib.Segment
import Course.Lib.StrictWeak

/-! `algorithm.hpp`: the quicksort and the two binary searches over a range of
pointers. A pointer is the number of an element in memory. A loop calls itself
with `apply`, which leaves no mark of the call's place in the term. -/

open Course.Lib Segment

namespace Course.Stl.Algorithm

/-- The conversion of a `ptrdiff_t`. -/
def toInt (x : ℤ) : ℤ := x.bmod (2 ^ 32)

/-- `x + y` on `int`; an overflow is stuck. -/
def addInt (x y : ℤ) : Option ℤ := if -2 ^ 31 ≤ x + y ∧ x + y < 2 ^ 31 then some (x + y) else none

/-! ### The model -/

section Model

variable {T : Type} (first last : ℤ)

/-- The array that the caller passes is from `first` up to `last`; an access to another
element is stuck. -/
def read (mem : ℤ → T) (p : ℤ) : Option T := if first ≤ p ∧ p < last then some (mem p) else none

/-- `std::swap(*p, *q)`. -/
def swap (mem : ℤ → T) (p q : ℤ) : Option (ℤ → T) := do
  let x ← read first last mem p
  let y ← read first last mem q
  some (Function.update (Function.update mem p y) q x)

/-- `while (cmp(*i, pivot)) i++;`. -/
def sortUp (cmp : T → T → Bool) (mem : ℤ → T) (pivot : T) (i : ℤ) : Option ℤ := do
  let x ← read first last mem i
  if cmp x pivot then by apply sortUp; exacts [cmp, mem, pivot, i + 1] else some i
partial_fixpoint

/-- `while (cmp(pivot, *j)) j--;`. -/
def sortDown (cmp : T → T → Bool) (mem : ℤ → T) (pivot : T) (j : ℤ) : Option ℤ := do
  let x ← read first last mem j
  if cmp pivot x then by apply sortDown; exacts [cmp, mem, pivot, j - 1] else some j
partial_fixpoint

/-- The outer loop, with `i` and `j` when it is left. -/
def sortLoop (cmp : T → T → Bool) (mem : ℤ → T) (pivot : T) (i j : ℤ) :
    Option ((ℤ → T) × ℤ × ℤ) :=
  if 0 ≤ j - i then do
    let i ← sortUp first last cmp mem pivot i
    let j ← sortDown first last cmp mem pivot j
    if 0 ≤ j - i then
      let mem ← swap first last mem i j
      by apply sortLoop; exacts [cmp, mem, pivot, i + 1, j - 1]
    else by apply sortLoop; exacts [cmp, mem, pivot, i, j]
  else some (mem, i, j)
partial_fixpoint

def sort (cmp : T → T → Bool) (mem : ℤ → T) (start stop : ℤ) : Option (ℤ → T) :=
  let len := toInt (stop - start)
  if len ≤ 1 then some mem
  else do
    let pivot ← read first last mem (start + ((← addInt len 1) / 2 - 1))
    let (mem, i, j) ← sortLoop first last cmp mem pivot start (stop - 1)
    let mem ←
      if 0 < j - start then by apply sort; exacts [cmp, mem, start, i] else some mem
    if 1 < stop - i then by apply sort; exacts [cmp, mem, i, stop] else some mem
partial_fixpoint

/-- The loop of the two searches, `test` being what they ask of an element. -/
def searchLoop (test : T → Bool) (mem : ℤ → T) (start l r : ℤ) : Option ℤ := do
  if (← addInt l 1) < r then
    let mid := (← addInt l r) >>> (1 : ℕ)
    let x ← read first last mem (start + mid)
    if test x then by apply searchLoop; exacts [test, mem, start, l, mid]
    else by apply searchLoop; exacts [test, mem, start, mid, r]
  else some r
partial_fixpoint

def search (test : T → Bool) (mem : ℤ → T) (start stop : ℤ) : Option ℤ := do
  let r ← searchLoop first last test mem start (-1) (toInt (stop - start))
  some (start + r)

variable [LinearOrder T]

def upperBound (mem : ℤ → T) (start stop : ℤ) (num : T) : Option ℤ :=
  search first last (fun x => decide (num < x)) mem start stop

def lowerBound (mem : ℤ → T) (start stop : ℤ) (num : T) : Option ℤ :=
  search first last (fun x => decide (num ≤ x)) mem start stop

end Model

/-! ### The sort -/

theorem toInt_eq {x : ℤ} (h : 0 ≤ x) (hlt : x < 2 ^ 31) : toInt x = x :=
  Int.bmod_eq_of_le (by omega) (by omega)

theorem addInt_eq {x y : ℤ} (h : -2 ^ 31 ≤ x + y) (hlt : x + y < 2 ^ 31) :
    addInt x y = some (x + y) :=
  if_pos ⟨h, hlt⟩

theorem addInt_overflow {x y : ℤ} (h : 2 ^ 31 ≤ x + y) : addInt x y = none :=
  if_neg fun hfits => absurd hfits.2 (not_lt.mpr h)

section Sorting

variable {T : Type} {first last start stop i j : ℤ} {cmp : T → T → Bool} {mem : ℤ → T} {pivot : T}

theorem read_eq (mem : ℤ → T) {p : ℤ} (hlo : first ≤ p) (hhi : p < last) :
    read first last mem p = some (mem p) :=
  if_pos ⟨hlo, hhi⟩

/-- An element at `p` that is not less than the pivot stops the scan. -/
theorem sortUp_spec {p : ℤ} (hlo : first ≤ i) (hip : i ≤ p) (hp : p < last)
    (hstop : cmp (mem p) pivot = false) :
    ∃ i', sortUp first last cmp mem pivot i = some i' ∧ i ≤ i' ∧ i' ≤ p ∧
      (∀ q, i ≤ q → q < i' → cmp (mem q) pivot = true) ∧ cmp (mem i') pivot = false := by
  obtain ⟨n, hn⟩ : ∃ n : ℕ, p - i = n := ⟨(p - i).toNat, by omega⟩
  induction n generalizing i with
  | zero =>
    obtain rfl : i = p := by omega
    exact ⟨i, by rw [sortUp, read_eq mem hlo hp]; simp [hstop], le_rfl, le_rfl,
      fun q _ _ => by omega, hstop⟩
  | succ n ih =>
    have hread : read first last mem i = some (mem i) := read_eq mem hlo (by omega)
    cases hi : cmp (mem i) pivot with
    | false => exact ⟨i, by rw [sortUp]; simp [hread, hi], le_rfl, hip, fun q _ _ => by omega, hi⟩
    | true =>
      obtain ⟨i', hi', hle, hip', hless, hnot⟩ :=
        ih (i := i + 1) (by omega) (by omega) (by omega)
      refine ⟨i', by rw [sortUp]; simpa [hread, hi] using hi', by omega, hip',
        fun q hq hqi => ?_, hnot⟩
      rcases hq.eq_or_lt with rfl | hq
      · exact hi
      · exact hless q hq hqi

/-- An element at `p` that the pivot is not less than stops the scan. -/
theorem sortDown_spec {p : ℤ} (hhi : j < last) (hpj : p ≤ j) (hp : first ≤ p)
    (hstop : cmp pivot (mem p) = false) :
    ∃ j', sortDown first last cmp mem pivot j = some j' ∧ p ≤ j' ∧ j' ≤ j ∧
      (∀ q, j' < q → q ≤ j → cmp pivot (mem q) = true) ∧ cmp pivot (mem j') = false := by
  obtain ⟨n, hn⟩ : ∃ n : ℕ, j - p = n := ⟨(j - p).toNat, by omega⟩
  induction n generalizing j with
  | zero =>
    obtain rfl : j = p := by omega
    exact ⟨j, by rw [sortDown, read_eq mem hp hhi]; simp [hstop], le_rfl, le_rfl,
      fun q _ _ => by omega, hstop⟩
  | succ n ih =>
    have hread : read first last mem j = some (mem j) := read_eq mem (by omega) hhi
    cases hj : cmp pivot (mem j) with
    | false => exact ⟨j, by rw [sortDown]; simp [hread, hj], hpj, le_rfl, fun q _ _ => by omega, hj⟩
    | true =>
      obtain ⟨j', hj', hpj', hle, hgreater, hnot⟩ :=
        ih (j := j - 1) (by omega) (by omega) (by omega)
      refine ⟨j', by rw [sortDown]; simpa [hread, hj] using hj', hpj', by omega,
        fun q hq hqj => ?_, hnot⟩
      rcases hqj.eq_or_lt with rfl | hqj
      · exact hj
      · exact hgreater q hq (by omega)

/-- What the cursors have passed is on the right side of the pivot. -/
structure Halves (cmp : T → T → Bool) (pivot : T) (start stop : ℤ) (mem : ℤ → T) (i j : ℤ) :
    Prop where
  left : ∀ p, start ≤ p → p < i → cmp pivot (mem p) = false
  right : ∀ p, j < p → p < stop → cmp (mem p) pivot = false

namespace Halves

/-- The two scans, where `p` stops the one and `q` the other: they cross by one
at most. -/
theorem scan (hcmp : StrictWeak cmp) (h : Halves cmp pivot start stop mem i j) {p q : ℤ}
    (hlo : first ≤ start) (hhi : stop ≤ last) (hi : start ≤ i) (hj : j < stop)
    (hp : i ≤ p ∧ p ≤ j + 1 ∧ p < stop) (hq : i - 1 ≤ q ∧ q ≤ j ∧ start ≤ q)
    (hup : cmp (mem p) pivot = false) (hdown : cmp pivot (mem q) = false) :
    ∃ i' j', sortUp first last cmp mem pivot i = some i' ∧
      sortDown first last cmp mem pivot j = some j' ∧
      (i ≤ i' ∧ i' ≤ p) ∧ (q ≤ j' ∧ j' ≤ j) ∧ i' ≤ j' + 1 ∧
      Halves cmp pivot start stop mem i' j' ∧
      cmp (mem i') pivot = false ∧ cmp pivot (mem j') = false := by
  obtain ⟨i', hi', hile, hip, hless, hstopi⟩ :=
    sortUp_spec (hlo.trans hi) hp.1 (show p < last by omega) hup
  obtain ⟨j', hj', hqj, hjle, hgreater, hstopj⟩ :=
    sortDown_spec (show j < last by omega) hq.2.1 (hlo.trans hq.2.2) hdown
  refine ⟨i', j', hi', hj', ⟨hile, hip⟩, ⟨hqj, hjle⟩, ?_, ⟨fun x hx hxi => ?_, fun x hx hxs => ?_⟩,
    hstopi, hstopj⟩
  · by_contra hcross
    -- an element that both have passed would be less and greater than the pivot
    have hl := hless (j' + 1) (by omega) (by omega)
    have hg := hgreater (j' + 1) (by omega) (by omega)
    rw [hcmp.asymm hl] at hg
    cases hg
  · by_cases hold : x < i
    · exact h.left x hx hold
    · exact hcmp.asymm (hless x (by omega) hxi)
  · by_cases hold : j < x
    · exact h.right x hold hxs
    · exact hcmp.asymm (hgreater x hx (by omega))

theorem swap (h : Halves cmp pivot start stop mem i j) (hij : i ≤ j)
    (hi : cmp (mem i) pivot = false) (hj : cmp pivot (mem j) = false) :
    Halves cmp pivot start stop
      (Function.update (Function.update mem i (mem j)) j (mem i)) (i + 1) (j - 1) := by
  constructor
  · intro p hp hpi
    by_cases hpj : p = j
    · obtain rfl : i = j := by omega
      subst hpj
      simpa using hj
    · rw [Function.update_of_ne hpj]
      by_cases hpi' : p = i
      · subst hpi'
        simpa using hj
      · rw [Function.update_of_ne hpi']
        exact h.left p hp (by omega)
  · intro p hp hps
    by_cases hpj : p = j
    · subst hpj
      simpa using hi
    · rw [Function.update_of_ne hpj, Function.update_of_ne (by omega)]
      exact h.right p (by omega) hps

/-- A left part that is not sorted again has one element, or the second one is
equivalent to the pivot. -/
theorem ordered (hcmp : StrictWeak cmp) (h : Halves cmp pivot start stop mem i j)
    (hi : i < stop) (hj : j ≤ start) : Ordered cmp mem start i := by
  intro p q hp hpq hq
  exact hcmp.ge_trans (h.right q (by omega) (by omega)) (h.left p hp (by omega))

end Halves

theorem swap_eq (mem : ℤ → T) (hi : first ≤ i ∧ i < last)
    (hj : first ≤ j ∧ j < last) :
    swap first last mem i j = some (Function.update (Function.update mem i (mem j)) j (mem i)) := by
  simp [swap, read_eq mem hi.1 hi.2, read_eq mem hj.1 hj.2]

/-- Once both cursors have passed an element, these stop the scans that follow. -/
theorem sortLoop_spec (hcmp : StrictWeak cmp) (hlo : first ≤ start) (hhi : stop ≤ last)
    (h : Halves cmp pivot start stop mem i j) (hi : start < i ∧ i < stop)
    (hj : start - 1 ≤ j ∧ j < stop - 1) (hij : i ≤ j + 2) :
    ∃ mem' i' j', sortLoop first last cmp mem pivot i j = some (mem', i', j') ∧
      Rearranges start stop mem mem' ∧ Halves cmp pivot start stop mem' i' j' ∧
      (start < i' ∧ i' < stop) ∧ j' < i' ∧ i' ≤ j' + 2 := by
  obtain ⟨n, hn⟩ : ∃ n : ℕ, j - i < n := ⟨(j - i + 1).toNat, by omega⟩
  induction n generalizing mem i j with
  | zero =>
    exact ⟨mem, i, j, by rw [sortLoop, if_neg (by omega)], .refl _ _ _, h, hi, by omega, hij⟩
  | succ n ih =>
    by_cases hle : i ≤ j
    · obtain ⟨i', j', hup, hdown, hi', hj', hcross, hhalves, hstopi, hstopj⟩ :=
        h.scan (p := j + 1) (q := i - 1) hcmp hlo hhi (by omega) (by omega) (by omega) (by omega)
          (h.right _ (by omega) (by omega)) (h.left _ (by omega) (by omega))
      by_cases hle' : i' ≤ j'
      · have hi₂ : start ≤ i' ∧ i' < stop := by omega
        have hj₂ : start ≤ j' ∧ j' < stop := by omega
        have hswap := swap_eq mem (show first ≤ i' ∧ i' < last by omega)
          (show first ≤ j' ∧ j' < last by omega)
        obtain ⟨mem', i₂, j₂, hloop, hrest, hspec⟩ := ih (hhalves.swap hle' hstopi hstopj)
          (by omega) (by omega) (by omega) (by omega)
        refine ⟨mem', i₂, j₂, ?_, (Rearranges.swap mem hi₂ hj₂).trans hrest, hspec⟩
        rw [sortLoop]
        simpa [hle, hup, hdown, hle', hswap] using hloop
      · obtain ⟨mem', i₂, j₂, hloop, hrest, hspec⟩ := ih hhalves
          (by omega) (by omega) (by omega) (by omega)
        refine ⟨mem', i₂, j₂, ?_, hrest, hspec⟩
        rw [sortLoop]
        simpa [hle, hup, hdown, hle'] using hloop
    · exact ⟨mem, i, j, by rw [sortLoop, if_neg (by omega)], .refl _ _ _, h, hi, by omega, hij⟩

/-- In the first round both scans stop at the pivot at the latest, so that its swap
moves both cursors. -/
theorem partition_spec (mem : ℤ → T) (hcmp : StrictWeak cmp) (hlo : first ≤ start)
    (hhi : stop ≤ last) {m : ℤ} (hm : start ≤ m ∧ m < stop - 1) :
    ∃ mem' i' j', sortLoop first last cmp mem (mem m) start (stop - 1) = some (mem', i', j') ∧
      Rearranges start stop mem mem' ∧ Halves cmp (mem m) start stop mem' i' j' ∧
      (start < i' ∧ i' < stop) ∧ j' < i' ∧ i' ≤ j' + 2 := by
  have hstart : Halves cmp (mem m) start stop mem start (stop - 1) :=
    ⟨fun p _ _ => by omega, fun p _ _ => by omega⟩
  obtain ⟨i', j', hup, hdown, hi', hj', -, hhalves, hstopi, hstopj⟩ :=
    hstart.scan (p := m) (q := m) hcmp hlo hhi le_rfl (by omega) (by omega) (by omega)
      (hcmp.irrefl _) (hcmp.irrefl _)
  have hi₂ : start ≤ i' ∧ i' < stop := by omega
  have hj₂ : start ≤ j' ∧ j' < stop := by omega
  have hswap := swap_eq mem (show first ≤ i' ∧ i' < last by omega)
    (show first ≤ j' ∧ j' < last by omega)
  obtain ⟨mem', i₂, j₂, hloop, hrest, hspec⟩ := sortLoop_spec hcmp hlo hhi
    (hhalves.swap (hi'.2.trans hj'.1) hstopi hstopj) (by omega) (by omega) (by omega)
  refine ⟨mem', i₂, j₂, ?_, (Rearranges.swap mem hi₂ hj₂).trans hrest, hspec⟩
  have hle : start ≤ stop - 1 := by omega
  have hle' : i' ≤ j' := by omega
  rw [sortLoop]
  simpa [hle, hup, hdown, hle', hswap] using hloop

theorem sort_spec (mem : ℤ → T) (hcmp : StrictWeak cmp) (hlo : first ≤ start)
    (hle : start ≤ stop) (hhi : stop ≤ last)
    (hlen : stop - start < 2 ^ 31 - 1) :
    ∃ mem', sort first last cmp mem start stop = some mem' ∧ Rearranges start stop mem mem' ∧
      Ordered cmp mem' start stop := by
  obtain ⟨n, hn⟩ : ∃ n : ℕ, stop - start < n + 1 := ⟨(stop - start).toNat, by omega⟩
  induction n generalizing mem start stop with
  | zero =>
    have hone : stop - start ≤ 1 := by omega
    have hint : toInt (stop - start) = stop - start := toInt_eq (by omega) (by omega)
    exact ⟨mem, by rw [sort]; simp [hint, hone], .refl _ _ _, .of_le hone⟩
  | succ n ih =>
    have hint : toInt (stop - start) = stop - start := toInt_eq (by omega) (by omega)
    by_cases hone : stop - start ≤ 1
    · exact ⟨mem, by rw [sort]; simp [hint, hone], .refl _ _ _, .of_le hone⟩
    · obtain ⟨m, hm⟩ : ∃ m, m = start + ((stop - start + 1) / 2 - 1) := ⟨_, rfl⟩
      have hread := read_eq mem (show first ≤ m by omega) (show m < last by omega)
      have hlen₁ := addInt_eq (show -2 ^ 31 ≤ stop - start + 1 by omega) (by omega)
      obtain ⟨mem₁, i, j, hloop, h₁, hhalves, hi, hji, hij⟩ :=
        partition_spec mem hcmp hlo hhi (show start ≤ m ∧ m < stop - 1 by omega)
      have hleft : ∃ mem₂, (if 0 < j - start then sort first last cmp mem₁ start i else some mem₁) =
          some mem₂ ∧ Rearranges start i mem₁ mem₂ ∧ Ordered cmp mem₂ start i := by
        split
        · exact ih _ (by omega) (by omega) (by omega) (by omega) (by omega)
        · exact ⟨mem₁, rfl, .refl _ _ _, hhalves.ordered hcmp (by omega) (by omega)⟩
      obtain ⟨mem₂, hsort₂, h₂, hordered₂⟩ := hleft
      have hright : ∃ mem₃, (if 1 < stop - i then sort first last cmp mem₂ i stop else some mem₂) =
          some mem₃ ∧ Rearranges i stop mem₂ mem₃ ∧ Ordered cmp mem₃ i stop := by
        split
        · exact ih _ (by omega) (by omega) (by omega) (by omega) (by omega)
        · exact ⟨mem₂, rfl, .refl _ _ _, .of_le (by omega)⟩
      obtain ⟨mem₃, hsort₃, h₃, hordered₃⟩ := hright
      refine ⟨mem₃, ?_, (h₁.trans (h₂.widen le_rfl hi.2.le)).trans (h₃.widen hi.1.le le_rfl), ?_⟩
      · rw [sort]
        simp only [hint, if_neg hone, hlen₁, hread, hloop, ← hm, Option.bind_eq_bind,
          Option.bind_some]
        split at hsort₂ <;> simp_all
      · refine .append (hordered₂.congr fun p _ hp => h₃.outside (.inl hp)) hordered₃ ?_
        intro p q hp hpi hiq hq
        refine hcmp.ge_trans (y := mem m) ?_ ?_
        · refine h₃.all (P := fun x => cmp x (mem m) = false) (fun x hx hxs => ?_) hiq hq
          rw [h₂.outside (.inr hx)]
          exact hhalves.right x (by omega) hxs
        · rw [h₃.outside (.inl hpi)]
          exact h₂.all (P := fun x => cmp (mem m) x = false) hhalves.left hp hpi

/-- The sort ends without an access outside of the array, which is then in order,
and the rest of the memory is what it was. -/
def Sorts (cmp : T → T → Bool) (mem : ℤ → T) (start stop : ℤ) : Prop :=
  ∃ mem', sort start stop cmp mem start stop = some mem' ∧
    (∀ p, p < start ∨ stop ≤ p → mem' p = mem p) ∧
    (elements mem' start stop).Perm (elements mem start stop) ∧
    (elements mem' start stop).Pairwise fun x y => cmp y x = false

/-- The sum `len + 1` of the place of the pivot has to fit, too. -/
theorem sorts_iff (hcmp : StrictWeak cmp) (mem : ℤ → T) (hle : start ≤ stop)
    (hlen : stop - start < 2 ^ 31) : Sorts cmp mem start stop ↔ stop - start + 1 < 2 ^ 31 := by
  constructor
  · rintro ⟨mem', hsort, -⟩
    by_contra hover
    have hint : toInt (stop - start) = stop - start := toInt_eq (by omega) hlen
    rw [sort, hint, addInt_overflow (by omega)] at hsort
    have hone : ¬stop - start ≤ 1 := by omega
    simp [hone] at hsort
  · intro hfits
    obtain ⟨mem', hsort, hrearranges, hordered⟩ :=
      sort_spec mem hcmp (le_refl start) hle (le_refl stop) (by omega)
    exact ⟨mem', hsort, fun p hp => hrearranges.outside hp, hrearranges.perm, hordered.pairwise⟩

theorem sorts_iff_small :
    Sorts (fun x y : ℤ => decide (x < y)) (fun p => -p * p) (-3) 4 ↔ (4 : ℤ) - -3 + 1 < 2 ^ 31 :=
  sorts_iff .of_linearOrder _ (by decide) (by decide)

theorem not_sorts_longest : ¬∀ (cmp : ℤ → ℤ → Bool) (mem : ℤ → ℤ) (start stop : ℤ),
    StrictWeak cmp → start ≤ stop → stop - start < 2 ^ 31 → Sorts cmp mem start stop := by
  intro hall
  obtain ⟨mem', hsort, -⟩ := hall (fun x y => decide (x < y)) id 0 (2 ^ 31 - 1) .of_linearOrder
    (by decide) (by decide)
  have hint : toInt (2 ^ 31 - 1 - 0) = 2 ^ 31 - 1 := toInt_eq (by decide) (by decide)
  rw [sort, hint, addInt_overflow (by decide)] at hsort
  simp at hsort

end Sorting

/-! ### The searches -/

section Searching

variable {T : Type} {start stop n l r : ℤ} {test : T → Bool} {mem : ℤ → T}

/-- The lower ends of a search over `n` elements that goes right at every step. -/
def climb (n : ℤ) : ℕ → ℤ
  | 0 => -1
  | k + 1 => (climb n k + n) / 2

theorem climb_mono (hn : 0 ≤ n) {k k' : ℕ} (h : k ≤ k') :
    climb n k ≤ climb n k' ∧ climb n k' < n := by
  induction h with
  | refl =>
    refine ⟨le_rfl, ?_⟩
    induction k with
    | zero => rw [climb]; omega
    | succ k ih => rw [climb]; omega
  | step h ih =>
    rw [climb]
    omega

/-- `p` is the first place from `start` up to `stop` that the test accepts. -/
structure First (test : T → Bool) (mem : ℤ → T) (start stop p : ℤ) : Prop where
  start_le : start ≤ p
  le_stop : p ≤ stop
  before : ∀ q, start ≤ q → q < p → test (mem q) = false
  accepts : p < stop → test (mem p) = true

/-- Where the test accepts an element, it accepts those behind it. -/
def Upward (test : T → Bool) (mem : ℤ → T) (start stop : ℤ) : Prop :=
  ∀ p q, start ≤ p → p ≤ q → q < stop → test (mem p) = true → test (mem q) = true

/-- What the bisection knows about `l` and `r`. -/
structure Brackets (test : T → Bool) (mem : ℤ → T) (start n l r : ℤ) : Prop where
  le : -1 ≤ l
  lt : l < r
  le_length : r ≤ n
  low : 0 ≤ l → test (mem (start + l)) = false
  high : r < n → test (mem (start + r)) = true

theorem Brackets.first (h : Brackets test mem start n l r)
    (hup : Upward test mem start (start + n)) (hend : r ≤ l + 1) :
    First test mem start (start + n) (start + r) where
  start_le := by have := h.le; have := h.lt; omega
  le_stop := by have := h.le_length; omega
  before q hq hqr := by
    by_contra hacc
    have hlow := h.low (by omega)
    have hlt := h.lt
    have hlen := h.le_length
    rw [hup q (start + l) hq (by omega) (by omega) (by simpa using hacc)] at hlow
    cases hlow
  accepts hlt := h.high (by omega)

/-- One round, where the sum of the ends does not overflow. -/
theorem searchLoop_step (h : Brackets test mem start n l r) (hn : n < 2 ^ 31) (hlt : l + 1 < r)
    (hfits : l + r < 2 ^ 31) :
    let mid := (l + r) / 2
    (l < mid ∧ mid < r) ∧ searchLoop start (start + n) test mem start l r =
      if test (mem (start + mid)) then searchLoop start (start + n) test mem start l mid
      else searchLoop start (start + n) test mem start mid r := by
  have hle := h.le
  have hlen := h.le_length
  have hnext := addInt_eq (show -2 ^ 31 ≤ l + 1 by omega) (by omega)
  have hsum := addInt_eq (show -2 ^ 31 ≤ l + r by omega) hfits
  have hshift : (l + r) >>> (1 : ℕ) = (l + r) / 2 := Int.shiftRight_eq_div_pow _ 1
  have hread := read_eq mem (show start ≤ start + (l + r) / 2 by omega)
    (show start + (l + r) / 2 < start + n by omega)
  refine ⟨by omega, ?_⟩
  rw [searchLoop]
  simp [hnext, hsum, hlt, hshift, hread]

theorem searchLoop_end (hend : r ≤ l + 1) (hle : -1 ≤ l) (hr : l + 1 < 2 ^ 31) :
    searchLoop start (start + n) test mem start l r = some r := by
  have hnext := addInt_eq (show -2 ^ 31 ≤ l + 1 by omega) hr
  rw [searchLoop]
  simp [hnext, not_lt.mpr hend]

theorem searchLoop_overflow (hle : -1 ≤ l) (hr : l + 1 < 2 ^ 31) (hlt : l + 1 < r)
    (hover : 2 ^ 31 ≤ l + r) : searchLoop start (start + n) test mem start l r = none := by
  have hnext := addInt_eq (show -2 ^ 31 ≤ l + 1 by omega) hr
  rw [searchLoop]
  simp [hnext, hlt, addInt_overflow hover]

/-- Below `2 ^ 30` no sum overflows. -/
theorem searchLoop_spec (h : Brackets test mem start n l r) (hn : n < 2 ^ 31)
    (hup : Upward test mem start (start + n)) (hr : r ≤ 2 ^ 30) :
    ∃ p, searchLoop start (start + n) test mem start l r = some p ∧
      First test mem start (start + n) (start + p) := by
  obtain ⟨k, hk⟩ : ∃ k : ℕ, r - l ≤ k := ⟨(r - l).toNat, by omega⟩
  induction k generalizing l r with
  | zero =>
    have := h.lt
    omega
  | succ k ih =>
    by_cases hlt : l + 1 < r
    · obtain ⟨⟨hl, hr'⟩, hstep⟩ := searchLoop_step h hn hlt (by omega)
      rw [hstep]
      cases hmid : test (mem (start + (l + r) / 2)) with
      | true =>
        exact ih ⟨h.le, hl, hr'.le.trans h.le_length, h.low, fun _ => hmid⟩ (by omega) (by omega)
      | false =>
        exact ih ⟨h.le.trans hl.le, hr', h.le_length, fun _ => hmid, h.high⟩ hr (by omega)
    · have := h.lt
      have := h.le_length
      exact ⟨r, searchLoop_end (by omega) h.le (by omega), h.first hup (by omega)⟩

/-- A search that has only gone right so far comes to its end when it goes left
before the sum of its ends overflows. -/
theorem searchLoop_climb (hn : n < 2 ^ 31) (hup : Upward test mem start (start + n)) {k : ℕ}
    (h : Brackets test mem start n (climb n k) n) :
    (∃ p, searchLoop start (start + n) test mem start (climb n k) n = some p ∧
      First test mem start (start + n) (start + p)) ↔
    ∀ k' ≥ k, climb n k' + 1 < n → 2 ^ 31 ≤ climb n k' + n →
      test (mem (start + climb n k')) = true := by
  obtain ⟨d, hd⟩ : ∃ d : ℕ, n - climb n k ≤ d := ⟨(n - climb n k).toNat, by omega⟩
  have hle := h.le
  have hlt := h.lt
  induction d generalizing k with
  | zero => omega
  | succ d ih =>
    by_cases hone : climb n k + 1 < n
    · by_cases hover : 2 ^ 31 ≤ climb n k + n
      · rw [searchLoop_overflow hle (by omega) hone hover]
        refine iff_of_false (by simp) fun hall => ?_
        have hlow := h.low (by omega)
        rw [hall k le_rfl hone hover] at hlow
        cases hlow
      · obtain ⟨⟨hl, hr⟩, hstep⟩ := searchLoop_step h hn hone (by omega)
        rw [hstep]
        cases hmid : test (mem (start + (climb n k + n) / 2)) with
        | true =>
          refine iff_of_true (searchLoop_spec ⟨hle, hl, hr.le, h.low, fun _ => hmid⟩ hn hup
            (by omega)) fun k' hk' hk'n hk'over => ?_
          have hk : k < k' := hk'.lt_of_ne fun heq => by
            subst heq
            omega
          have hmono : (climb n k + n) / 2 ≤ climb n k' ∧ climb n k' < n :=
            climb_mono (by omega) (Nat.succ_le_of_lt hk)
          exact hup _ _ (by omega) (by omega) (by omega) hmid
        | false =>
          have hnext : Brackets test mem start n (climb n (k + 1)) n :=
            ⟨hle.trans hl.le, hr, le_rfl, fun _ => hmid, fun hnn => absurd hnn (lt_irrefl n)⟩
          refine (ih hnext (by rw [climb]; omega) hnext.le hnext.lt).trans ?_
          refine ⟨fun hall k' hk' hk'n hk'over => ?_, fun hall k' hk' => hall k' (by omega)⟩
          rcases Nat.eq_or_lt_of_le hk' with rfl | hk
          · exact absurd hk'over hover
          · exact hall k' hk hk'n hk'over
    · refine iff_of_true ⟨n, searchLoop_end (by omega) hle (by omega), h.first hup (by omega)⟩ ?_
      intro k' hk' hk'n
      have := climb_mono (n := n) (by omega) hk'
      omega

/-- The search ends at the first element that the test accepts, without an overflow
or an access outside of the array. -/
def Finds (test : T → Bool) (mem : ℤ → T) (start stop : ℤ) (result : Option ℤ) : Prop :=
  ∃ p, result = some p ∧ First test mem start stop p

/-- The places at which the sum of the ends would overflow are not on the way. -/
def TurnsLeft (test : T → Bool) (mem : ℤ → T) (start stop : ℤ) : Prop :=
  ∀ k, climb (stop - start) k + 1 < stop - start →
    2 ^ 31 ≤ climb (stop - start) k + (stop - start) →
    test (mem (start + climb (stop - start) k)) = true

theorem search_iff (hle : start ≤ stop) (hlen : stop - start < 2 ^ 31)
    (hup : Upward test mem start stop) :
    Finds test mem start stop (search start stop test mem start stop) ↔
      TurnsLeft test mem start stop := by
  obtain ⟨n, rfl⟩ : ∃ n, stop = start + n := ⟨stop - start, by omega⟩
  rw [add_sub_cancel_left] at hlen
  have h : Brackets test mem start n (climb n 0) n :=
    ⟨le_rfl, by rw [climb]; omega, le_rfl, fun h => absurd h (by rw [climb]; decide),
      fun h => absurd h (lt_irrefl n)⟩
  rw [TurnsLeft, add_sub_cancel_left]
  have hiff := searchLoop_climb hlen hup h
  refine Iff.trans ?_ (hiff.trans ⟨fun hall k => hall k (Nat.zero_le k), fun hall k _ => hall k⟩)
  rw [Finds, search, add_sub_cancel_left, toInt_eq (by omega) hlen]
  rw [climb]
  constructor
  · rintro ⟨p, hp, hfirst⟩
    obtain ⟨r, hr, heq⟩ := Option.bind_eq_some_iff.mp hp
    exact ⟨r, hr, Option.some.inj heq ▸ hfirst⟩
  · rintro ⟨r, hr, hfirst⟩
    exact ⟨start + r, by simp [hr], hfirst⟩

/-- An array of at most `2 ^ 30` elements is short enough for every search. -/
theorem turnsLeft_of_le (h : stop - start ≤ 2 ^ 30) : TurnsLeft test mem start stop :=
  fun k _ _ => by omega

variable [LinearOrder T]

/-- The two searches in a sorted array. -/
theorem bounds_iff {num : T} (hle : start ≤ stop) (hlen : stop - start < 2 ^ 31)
    (hsorted : ∀ p q, start ≤ p → p ≤ q → q < stop → mem p ≤ mem q) :
    (Finds (fun x => decide (num ≤ x)) mem start stop (lowerBound start stop mem start stop num) ↔
      TurnsLeft (fun x => decide (num ≤ x)) mem start stop) ∧
    (Finds (fun x => decide (num < x)) mem start stop (upperBound start stop mem start stop num) ↔
      TurnsLeft (fun x => decide (num < x)) mem start stop) := by
  constructor
  · refine search_iff hle hlen fun p q hp hpq hq hacc => ?_
    exact decide_eq_true ((of_decide_eq_true hacc).trans (hsorted p q hp hpq hq))
  · refine search_iff hle hlen fun p q hp hpq hq hacc => ?_
    exact decide_eq_true ((of_decide_eq_true hacc).trans_le (hsorted p q hp hpq hq))

theorem bounds_iff_even :
    (Finds (fun x => decide (4 ≤ x)) (fun p => p * 2) (-2) 3
        (lowerBound (-2) 3 (fun p => p * 2) (-2) 3 4) ↔
      TurnsLeft (fun x => decide (4 ≤ x)) (fun p => p * 2) (-2) 3) ∧
    (Finds (fun x => decide (4 < x)) (fun p => p * 2) (-2) 3
        (upperBound (-2) 3 (fun p => p * 2) (-2) 3 4) ↔
      TurnsLeft (fun x => decide (4 < x)) (fun p => p * 2) (-2) 3) :=
  bounds_iff (by decide) (by decide) fun p q _ hpq _ => by omega

/-- The second round of a search for 1 among zeros adds 1073741823 and 2147483647. -/
theorem not_finds_zeros : ¬∀ (mem : ℤ → ℕ) (start stop : ℤ) (num : ℕ), start ≤ stop →
    stop - start < 2 ^ 31 → (∀ p q, start ≤ p → p ≤ q → q < stop → mem p ≤ mem q) →
    Finds (fun x => decide (num ≤ x)) mem start stop (lowerBound start stop mem start stop num) ∧
    Finds (fun x => decide (num < x)) mem start stop
      (upperBound start stop mem start stop num) := by
  intro hall
  have hfinds := (hall (fun _ => 0) 0 (2 ^ 31 - 1) 1 (by decide) (by decide)
    fun _ _ _ _ _ => le_rfl).1
  have hup : Upward (fun x : ℕ => decide (1 ≤ x)) (fun _ => 0) 0 (2 ^ 31 - 1) :=
    fun p q _ _ _ hacc => hacc
  have hturns := (search_iff (by decide) (by decide) hup).mp hfinds
  simpa using hturns 1 (by decide) (by decide)

end Searching

end Course.Stl.Algorithm
