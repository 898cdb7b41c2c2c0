import Mathlib.Data.Set.Lattice
import Mathlib.Data.Set.Insert

/-! Loops that count, over states that a step may fail to leave: an access
outside of an array has no result. -/

namespace Course.Lib.CountedLoops

variable {σ κ α : Type}

/-- Nothing is stored outside of the array. -/
def store (a : Array α) (i : ℕ) (x : α) : Option (Array α) :=
  if h : i < a.size then some (a.set i x) else none

theorem store_eq_some {a : Array α} {i : ℕ} (h : i < a.size) (x : α) :
    ∃ b, store a i x = some b ∧ b.size = a.size ∧
      ∀ p, b[p]? = if p = i then some x else a[p]? := by
  refine ⟨a.set i x, dif_pos h, Array.size_set h, fun p => ?_⟩
  rw [Array.getElem?_set]
  grind

theorem bind_of_some {τ : Type} {o : Option σ} {f : σ → Option τ} {s : σ} {t : τ}
    (ho : o = some s) (hf : f s = some t) : (o >>= f) = some t := by
  rw [ho]
  exact hf

/-- `for (; i < stop; i += step)`, with the variable that it leaves. -/
def forLoop (step stop : ℕ) (body : ℕ → σ → Option σ) (i : ℕ) (s : σ) : Option (ℕ × σ) :=
  if i < stop ∧ 0 < step then (body i s).bind (forLoop step stop body (i + step)) else some (i, s)
termination_by stop - i

/-- The loop from 0, where the variable is of its own. -/
def forDo (step stop : ℕ) (body : ℕ → σ → Option σ) (s : σ) : Option σ :=
  (forLoop step stop body 0 s).map Prod.snd

variable {step stop i : ℕ} {body : ℕ → σ → Option σ} {s : σ}

/-- What every iteration keeps holds at the end. -/
theorem forLoop_spec {I : ℕ → σ → Prop} (hstep : 0 < step) (hinit : I i s)
    (hbody : ∀ j s, j < stop → I j s → ∃ s', body j s = some s' ∧ I (j + step) s') :
    ∃ j s', forLoop step stop body i s = some (j, s') ∧ stop ≤ j ∧ I j s' := by
  induction i, s using forLoop.induct step stop with
  | case1 i s hlt ih =>
    obtain ⟨s', hs', hI⟩ := hbody i s hlt.1 hinit
    obtain ⟨j, s'', hloop, hj, hI'⟩ := ih s' hI
    refine ⟨j, s'', ?_, hj, hI'⟩
    rw [forLoop, if_pos hlt, hs', Option.bind_some, hloop]
  | case2 i s hge =>
    refine ⟨i, s, ?_, by omega, hinit⟩
    rw [forLoop, if_neg hge]

/-- A loop by ones ends at its bound. -/
theorem forDo_spec {I : ℕ → σ → Prop} (hinit : I 0 s)
    (hbody : ∀ j s, j < stop → I j s → ∃ s', body j s = some s' ∧ I (j + 1) s') :
    ∃ s', forDo 1 stop body s = some s' ∧ I stop s' := by
  obtain ⟨j, s', hloop, hj, hI, hle⟩ := forLoop_spec (I := fun j s => I j s ∧ j ≤ stop)
    Nat.one_pos ⟨hinit, Nat.zero_le _⟩ fun j s hj h => by
      obtain ⟨s', hs', hI⟩ := hbody j s hj h.1
      exact ⟨s', hs', hI, hj⟩
  obtain rfl : j = stop := Nat.le_antisymm hle hj
  exact ⟨s', by rw [forDo, hloop, Option.map_some], hI⟩

/-! ### What is done stays done -/

variable {Inv : σ → Prop} {Done : κ → σ → Prop} {f g : σ → Option σ} {A B : Set κ}

/-- The value of the counter at which a number comes up. -/
theorem exists_counter {step : ℕ} (hstep : 0 < step) (x : ℕ) :
    ∃ k, step ∣ k ∧ k ≤ x ∧ x < k + step :=
  ⟨step * (x / step), Nat.dvd_mul_right .., Nat.mul_div_le .., Nat.lt_mul_div_succ x hstep⟩

/-- The program has a result, which keeps what is done and does the items. -/
def Does (Inv : σ → Prop) (Done : κ → σ → Prop) (f : σ → Option σ) (B : Set κ) : Prop :=
  ∀ s, Inv s → ∃ s', f s = some s' ∧ Inv s' ∧ (∀ k, Done k s → Done k s') ∧ ∀ k ∈ B, Done k s'

namespace Does

theorem mono (h : Does Inv Done f A) (hsub : B ⊆ A) : Does Inv Done f B := by
  intro s hs
  obtain ⟨s', hs', hinv, hkeep, hdone⟩ := h s hs
  exact ⟨s', hs', hinv, hkeep, fun k hk => hdone k (hsub hk)⟩

theorem bind (hf : Does Inv Done f A) (hg : Does Inv Done g B) :
    Does Inv Done (fun s => (f s).bind g) (A ∪ B) := by
  intro s hs
  obtain ⟨s', hs', hinv, hkeep, hdone⟩ := hf s hs
  obtain ⟨s'', hs'', hinv', hkeep', hdone'⟩ := hg s' hinv
  refine ⟨s'', ?_, hinv', fun k hk => hkeep' k (hkeep k hk), ?_⟩
  · simp only [hs', Option.bind_some, hs'']
  · rintro k (hk | hk)
    · exact hkeep' k (hdone k hk)
    · exact hdone' k hk

/-- A loop does what its iterations do. -/
theorem forLoop {B : ℕ → Set κ} (hstep : 0 < step)
    (hbody : ∀ j, j < stop → step ∣ j → Does Inv Done (body j) (B j)) (hs : Inv s) :
    ∃ j s', forLoop step stop body 0 s = some (j, s') ∧ step ∣ j ∧ stop ≤ j ∧ j < stop + step ∧
      Inv s' ∧ (∀ k, Done k s → Done k s') ∧
      ∀ i < j, step ∣ i → ∀ k ∈ B i, Done k s' := by
  let I (j : ℕ) (s' : σ) : Prop := step ∣ j ∧ j < stop + step ∧ Inv s' ∧
    (∀ k, Done k s → Done k s') ∧ ∀ i < j, step ∣ i → ∀ k ∈ B i, Done k s'
  have hinit : I 0 s :=
    ⟨Nat.dvd_zero _, by omega, hs, fun _ h => h, fun _ h => absurd h (Nat.not_lt_zero _)⟩
  have hnext : ∀ j s₁, j < stop → I j s₁ → ∃ s₂, body j s₁ = some s₂ ∧ I (j + step) s₂ := by
    rintro j s₁ hj ⟨hdvd, -, hinv, hkeep, hdone⟩
    obtain ⟨s₂, hs₂, hinv', hkeep', hdone'⟩ := hbody j hj hdvd s₁ hinv
    refine ⟨s₂, hs₂, Nat.dvd_add hdvd (Nat.dvd_refl _), by omega, hinv',
      fun k hk => hkeep' k (hkeep k hk), fun i hi hdvd' k hk => ?_⟩
    -- Two multiples of the step are a step apart.
    by_cases hij : i < j
    · exact hkeep' k (hdone i hij hdvd' k hk)
    · obtain ⟨a, rfl⟩ := hdvd
      obtain ⟨b, rfl⟩ := hdvd'
      have hab : b = a := by
        refine Nat.le_antisymm (Nat.lt_succ_iff.mp ?_) ?_
        · exact Nat.lt_of_mul_lt_mul_left (by rw [Nat.mul_succ]; exact hi)
        · exact Nat.le_of_mul_le_mul_left (Nat.not_lt.mp hij) hstep
      exact hdone' k (hab ▸ hk)
  obtain ⟨j, s', hloop, hj, hdvd, hlt, hinv, hkeep, hdone⟩ := forLoop_spec hstep hinit hnext
  exact ⟨j, s', hloop, hdvd, hj, hlt, hinv, hkeep, hdone⟩

theorem forDo {B : ℕ → Set κ} (hstep : 0 < step)
    (hbody : ∀ j, j < stop → step ∣ j → Does Inv Done (body j) (B j)) :
    Does Inv Done (forDo step stop body) {k | ∃ j < stop, step ∣ j ∧ k ∈ B j} := by
  intro s hs
  obtain ⟨j, s', hloop, -, hj, -, hinv, hkeep, hdone⟩ := forLoop hstep hbody hs
  refine ⟨s', by rw [CountedLoops.forDo, hloop, Option.map_some], hinv, hkeep, ?_⟩
  rintro k ⟨i, hi, hdvd, hk⟩
  exact hdone i (by omega) hdvd k hk

end Does

end Course.Lib.CountedLoops
