import Mathlib.Data.Nat.Notation

/-! What a nondeterministic machine comes to whatever it does next, and what holds of
every state on the way there. -/

namespace Course.Lib

/-- Every run from the state reaches `Q`, through states that satisfy `P`. -/
inductive Leads {σ : Type u} (next : σ → σ → Prop) (P Q : σ → Prop) : σ → Prop
  | now : Q s → Leads next P Q s
  | later : P s → (∀ t, next s t → Leads next P Q t) → Leads next P Q s

namespace Leads

variable {σ : Type u} {τ : Type v} {next : σ → σ → Prop} {next' : τ → τ → Prop}
  {P Q Q' : σ → Prop}

theorem trans (h : Leads next P Q s) (h' : ∀ t, Q t → Leads next P Q' t) :
    Leads next P Q' s := by
  induction h with
  | now hq => exact h' _ hq
  | later hp _ ih => exact .later hp ih

theorem mono (h : Leads next P Q s) (hQ : ∀ t, Q t → Q' t) : Leads next P Q' s :=
  h.trans fun t ht => .now (hQ t ht)

/-- One step, when it is the same whatever comes next. -/
theorem step (hp : P s) (h : ∀ t, next s t → Q t) : Leads next P Q s :=
  .later hp fun t ht => .now (h t ht)

/-- A loop that counts to `n`. -/
theorem count {I : ℕ → σ → Prop} {n : ℕ}
    (body : ∀ j < n, ∀ s, I j s →
      Leads next P (fun t => (j + 1 < n ∧ I (j + 1) t) ∨ (j + 1 = n ∧ Q t)) s)
    (hn : 0 < n) (h : I 0 s) : Leads next P Q s := by
  have all : ∀ k j, j + k + 1 = n → ∀ s, I j s → Leads next P Q s := by
    intro k
    induction k with
    | zero =>
      intro j hj s hI
      refine (body j (by omega) s hI).mono fun t ht => ?_
      rcases ht with ⟨hlt, -⟩ | ⟨-, hq⟩
      · omega
      · exact hq
    | succ k ih =>
      intro j hj s hI
      refine (body j (by omega) s hI).trans fun t ht => ?_
      rcases ht with ⟨-, hI'⟩ | ⟨hlast, -⟩
      · exact ih (j + 1) (by omega) t hI'
      · omega
  exact all (n - 1) 0 (by omega) s h

/-- A loop that ends because the variant `v` decreases. -/
theorem variant {I : σ → Prop} (v : σ → ℕ)
    (body : ∀ s, I s → Leads next P (fun t => Q t ∨ I t ∧ v t < v s) s) (h : I s) :
    Leads next P Q s := by
  induction hv : v s using Nat.strongRecOn generalizing s with
  | ind n ih =>
    refine (body s h).trans fun t ht => ?_
    rcases ht with hq | ⟨hi, hlt⟩
    · exact .now hq
    · exact ih (v t) (hv ▸ hlt) hi rfl

/-- A machine runs as a part of another one, which leaves it alone while `F` holds. -/
theorem lift {view : τ → σ} {F P' : τ → Prop}
    (sim : ∀ t, F t → P (view t) → P' t ∧ ∀ t', next' t t' → F t' ∧ next (view t) (view t'))
    (hF : F t) (h : Leads next P Q (view t)) :
    Leads next' P' (fun t' => F t' ∧ Q (view t')) t := by
  generalize hs : view t = s at h
  induction h generalizing t with
  | now hq => exact .now ⟨hF, hs ▸ hq⟩
  | later hp _ ih =>
    subst hs
    obtain ⟨hp', hstep⟩ := sim t hF hp
    refine .later hp' fun t' ht' => ?_
    obtain ⟨hF', hn⟩ := hstep t' ht'
    exact ih _ hn hF' rfl

theorem exists_time (f : ℕ → σ) (hf : ∀ n, next (f n) (f (n + 1))) (h : Leads next P Q (f 0)) :
    ∃ n, (∀ j < n, P (f j)) ∧ Q (f n) := by
  generalize hs : f 0 = s at h
  induction h generalizing f with
  | now hq => exact ⟨0, nofun, hs ▸ hq⟩
  | later hp _ ih =>
    subst hs
    obtain ⟨n, hP, hQ⟩ := ih (f 1) (hf 0) (fun n => f (n + 1)) (fun n => hf (n + 1)) rfl
    refine ⟨n + 1, fun j hj => ?_, hQ⟩
    cases j with
    | zero => exact hp
    | succ j => exact hP j (Nat.lt_of_succ_lt_succ hj)

end Leads

section fair

variable {σ : Type u} {ε : Type v} {κ : Type w} {I Q : σ → Prop} {awaits : σ → κ}
  {signal : κ → ε → Prop} {f : ℕ → σ} {e : ℕ → ε}

/-- What a run waits for comes if it is waited for long enough. -/
def WeakFair (awaits : σ → κ) (signal : κ → ε → Prop) (f : ℕ → σ) (e : ℕ → ε) : Prop :=
  ∀ n, (∀ m, n ≤ m → awaits (f m) = awaits (f n)) → ∃ m, n ≤ m ∧ signal (awaits (f n)) (e m)

theorem WeakFair.drop (h : WeakFair awaits signal f e) (k : ℕ) :
    WeakFair awaits signal (fun i => f (k + i)) fun i => e (k + i) := by
  intro n hn
  obtain ⟨m, hm, hsignal⟩ := h (k + n) fun m hm => by
    obtain ⟨j, rfl⟩ := Nat.exists_eq_add_of_le (Nat.le_of_add_right_le hm)
    exact hn j (Nat.le_of_add_le_add_left hm)
  obtain ⟨j, rfl⟩ := Nat.exists_eq_add_of_le (Nat.le_of_add_right_le hm)
  exact ⟨j, Nat.le_of_add_le_add_left hm, hsignal⟩

/-- A run comes to `Q` where a variant decreases or stays and waits for a signal that comes if it
is waited for long enough. -/
theorem exists_of_weak_fair {α : Type x} {r : α → α → Prop} (wf : WellFounded r) {v : σ → α}
    (fair : WeakFair awaits signal f e)
    (step : ∀ n, I (f n) → ¬Q (f n) → I (f (n + 1)) ∧ (r (v (f (n + 1))) (v (f n)) ∨
      v (f (n + 1)) = v (f n) ∧ awaits (f (n + 1)) = awaits (f n) ∧
        ¬signal (awaits (f n)) (e n)))
    (h : I (f 0)) : ∃ n, Q (f n) := by
  have all : ∀ b n, v (f n) = b → I (f n) → ∃ m, Q (f m) := by
    intro b
    induction b using wf.induction with
    | _ b ih =>
      intro n hv hI
      apply Classical.byContradiction
      intro hno
      have hnot : ∀ m, ¬Q (f m) := fun m hq => hno ⟨m, hq⟩
      -- nothing changes from here on
      have hstill : ∀ j, I (f (n + j)) ∧ v (f (n + j)) = b ∧ awaits (f (n + j)) = awaits (f n) := by
        intro j
        induction j with
        | zero => exact ⟨hI, hv, rfl⟩
        | succ j ihj =>
          obtain ⟨hIj, hvj, haj⟩ := ihj
          obtain ⟨hI', hlt | ⟨hveq, haeq, -⟩⟩ := step (n + j) hIj (hnot _)
          · exact absurd (ih _ (hvj ▸ hlt) _ rfl hI') hno
          · exact ⟨hI', hveq.trans hvj, haeq.trans haj⟩
      obtain ⟨m, hnm, hsignal⟩ := fair n fun m hm => by
        obtain ⟨j, rfl⟩ := Nat.exists_eq_add_of_le hm
        exact (hstill j).2.2
      obtain ⟨j, rfl⟩ := Nat.exists_eq_add_of_le hnm
      obtain ⟨hIj, hvj, haj⟩ := hstill j
      obtain ⟨hI', hlt | ⟨-, -, hwait⟩⟩ := step (n + j) hIj (hnot _)
      · exact hno (ih _ (hvj ▸ hlt) _ rfl hI')
      · exact hwait (haj ▸ hsignal)
  exact all _ 0 rfl h

/-- The same for signals that come again and again. -/
theorem exists_of_fair {v : σ → ℕ} (fair : ∀ a n, ∃ m, n ≤ m ∧ signal a (e m))
    (step : ∀ n, I (f n) → ¬Q (f n) → I (f (n + 1)) ∧ (v (f (n + 1)) < v (f n) ∨
      v (f (n + 1)) = v (f n) ∧ awaits (f (n + 1)) = awaits (f n) ∧
        ¬signal (awaits (f n)) (e n)))
    (h : I (f 0)) : ∃ n, Q (f n) :=
  exists_of_weak_fair Nat.lt_wfRel.wf (fun n _ => fair _ n) step h

end fair

end Course.Lib
