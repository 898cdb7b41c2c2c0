import Mathlib.Data.List.Infix

/-! Deterministic machines that put out a list at every step and may get stuck, and
the lists that a run that goes on for ever puts out in all. -/

universe u v

namespace Course.Lib

/-- `step s = none` means that the machine does not survive in `s`. -/
structure Emitter (σ : Type u) (α : Type v) where
  step : σ → Option (σ × List α)

namespace Emitter

variable {σ : Type u} {α : Type v} {M : Emitter σ α} {Q I : σ → Prop} {s t : σ} {d l : List α}

/-- The state after `n` steps, and what they put out. -/
def run (M : Emitter σ α) : ℕ → σ → Option (σ × List α)
  | 0, s => some (s, [])
  | n + 1, s => do
    let (t, d) ← M.step s
    let (u, e) ← M.run n t
    some (u, d ++ e)

/-- The machine is never stuck and puts out `l` in all, but nothing in a state in `Q`. -/
structure Emits (M : Emitter σ α) (Q : σ → Prop) (s : σ) (l : List α) : Prop where
  exists_run : ∀ n, ∃ t e, M.run n s = some (t, e) ∧ e <+: l
  silent : ∀ n t e t' d, M.run n s = some (t, e) → Q t → M.step t = some (t', d) → d = []
  complete : ∃ n t, M.run n s = some (t, l)

theorem run_succ (n : ℕ) (h : M.step s = some (t, d)) :
    M.run (n + 1) s = (M.run n t).map fun (u, e) => (u, d ++ e) := by
  simp only [run, h, Option.bind_eq_bind, Option.bind_some]
  cases M.run n t <;> rfl

theorem run_succ_eq_some {n : ℕ} {u : σ} {e : List α} (h : M.step s = some (t, d))
    (hrun : M.run (n + 1) s = some (u, e)) : ∃ e', M.run n t = some (u, e') ∧ e = d ++ e' := by
  rw [run_succ n h] at hrun
  obtain ⟨⟨u', e'⟩, hrun', heq⟩ := Option.map_eq_some_iff.mp hrun
  obtain ⟨rfl, rfl⟩ := Prod.mk.inj heq
  exact ⟨e', hrun', rfl⟩

namespace Emits

theorem cons (hstep : M.step s = some (t, d)) (hsilent : Q s → d = []) (h : Emits M Q t l) :
    Emits M Q s (d ++ l) where
  exists_run n := by
    cases n with
    | zero => exact ⟨s, [], rfl, List.nil_prefix⟩
    | succ n =>
      obtain ⟨u, e, hrun, he⟩ := h.exists_run n
      exact ⟨u, d ++ e, by simp [run_succ n hstep, hrun], (List.prefix_append_right_inj d).mpr he⟩
  silent n u e u' d' hrun hu hu' := by
    cases n with
    | zero =>
      obtain ⟨rfl, rfl⟩ := Prod.mk.inj (Option.some.inj hrun)
      obtain ⟨rfl, rfl⟩ := Prod.mk.inj (Option.some.inj (hstep.symm.trans hu'))
      exact hsilent hu
    | succ n =>
      obtain ⟨e', hrun', -⟩ := run_succ_eq_some hstep hrun
      exact h.silent n u e' u' d' hrun' hu hu'
  complete := by
    obtain ⟨n, u, hrun⟩ := h.complete
    exact ⟨n + 1, u, by simp [run_succ n hstep, hrun]⟩

end Emits

/-- What holds of the output of every step holds of all output. -/
theorem Emits.forall {p : α → Prop} (hI : ∀ s t d, I s → M.step s = some (t, d) →
    I t ∧ ∀ x ∈ d, p x) (hs : I s) (h : Emits M Q s l) : ∀ x ∈ l, p x := by
  obtain ⟨n, u, hl⟩ := h.complete
  clear h
  induction n generalizing s l with
  | zero =>
    obtain ⟨-, rfl⟩ := Prod.mk.inj (Option.some.inj hl)
    exact fun x hx => absurd hx List.not_mem_nil
  | succ n ih =>
    rw [run] at hl
    obtain ⟨⟨t, d⟩, hstep, hl⟩ := Option.bind_eq_some_iff.mp hl
    obtain ⟨⟨v, e⟩, hrun, heq⟩ := Option.bind_eq_some_iff.mp hl
    obtain ⟨rfl, rfl⟩ := Prod.mk.inj (Option.some.inj heq)
    obtain ⟨ht, hd⟩ := hI s t d hs hstep
    exact List.forall_mem_append.mpr ⟨hd, ih ht hrun⟩

end Emitter

end Course.Lib
