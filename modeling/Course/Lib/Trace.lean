import Mathlib.Logic.Function.Iterate

/-! What deterministic machines put out, and simulations of one by another that takes
a different number of steps. -/

namespace Course.Lib

variable {α β ε : Type}

/-- What the first `n` steps put out. -/
def trace (f : α → α) (out : α → List ε) (x : α) : ℕ → List ε
  | 0 => []
  | n + 1 => trace f out x n ++ out (f^[n] x)

/-- The same sequence, at different times. -/
structure Agree (t t' : ℕ → List ε) : Prop where
  sound : ∀ n, ∃ m, t n = t' m
  complete : ∀ m, ∃ n, t n = t' m

namespace Agree

variable {t t' t'' : ℕ → List ε}

theorem symm (h : Agree t t') : Agree t' t where
  sound m := (h.complete m).imp fun _ => Eq.symm
  complete n := (h.sound n).imp fun _ => Eq.symm

theorem trans (h : Agree t t') (h' : Agree t' t'') : Agree t t'' where
  sound n := by
    obtain ⟨m, hm⟩ := h.sound n
    rw [hm]
    exact h'.sound m
  complete k := by
    obtain ⟨m, hm⟩ := h'.complete k
    obtain ⟨n, hn⟩ := h.complete m
    exact ⟨n, hn.trans hm⟩

end Agree

variable {f : α → α} {out : α → List ε} {x : α} {g : β → β} {out' : β → List ε} {y : β}

theorem trace_prefix {m n : ℕ} (h : m ≤ n) : trace f out x m <+: trace f out x n := by
  induction h with
  | refl => exact List.prefix_rfl
  | step _ ih => exact ih.trans (List.prefix_append _ _)

/-- Of two that agree, one has put out what the other has. -/
theorem Agree.comparable (h : Agree (trace f out x) (trace g out' y)) (m n : ℕ) :
    trace f out x n <+: trace g out' y m ∨ trace g out' y m <+: trace f out x n := by
  obtain ⟨k, hk⟩ := h.sound n
  rw [hk]
  exact (Nat.le_total k m).imp trace_prefix trace_prefix

/-- `R s m r` relates `s` to the `m`-th state of the other machine. A step puts out
nothing and lowers the rank `r`, or puts out what the other machine does. -/
structure Follows (f : α → α) (out : α → List ε) (g : β → β) (out' : β → List ε) (y : β)
    (R : α → ℕ → ℕ → Prop) : Prop where
  step : ∀ s m r, R s m r → (∃ r' < r, R (f s) m r' ∧ out s = []) ∨
    ∃ r', R (f s) (m + 1) r' ∧ out s = out' (g^[m] y)

namespace Follows

variable {R : α → ℕ → ℕ → Prop} {m n r : ℕ}

theorem sound (h : Follows f out g out' y R) (hx : R x 0 r) (n : ℕ) :
    ∃ m r, R (f^[n] x) m r ∧ trace f out x n = trace g out' y m := by
  induction n with
  | zero => exact ⟨0, r, hx, rfl⟩
  | succ n ih =>
    obtain ⟨m, r, hr, htrace⟩ := ih
    rw [Function.iterate_succ_apply', trace, htrace]
    rcases h.step _ m r hr with ⟨r', -, hr', hout⟩ | ⟨r', hr', hout⟩
    · exact ⟨m, r', hr', by rw [hout, List.append_nil]⟩
    · exact ⟨m + 1, r', hr', by rw [hout, trace]⟩

/-- The next output comes before the rank is used up. -/
theorem next (h : Follows f out g out' y R) (hr : R (f^[n] x) m r)
    (htrace : trace f out x n = trace g out' y m) :
    ∃ n r, R (f^[n] x) (m + 1) r ∧ trace f out x n = trace g out' y (m + 1) := by
  induction r using Nat.strongRecOn generalizing n with
  | ind r ih =>
    rcases h.step _ m r hr with ⟨r', hlt, hr', hout⟩ | ⟨r', hr', hout⟩
    · rw [← Function.iterate_succ_apply' f] at hr'
      apply ih r' hlt hr'
      rw [trace, hout, List.append_nil, htrace]
    · rw [← Function.iterate_succ_apply' f] at hr'
      exact ⟨n + 1, r', hr', by rw [trace, trace, htrace, hout]⟩

theorem complete (h : Follows f out g out' y R) (hx : R x 0 r) (m : ℕ) :
    ∃ n r, R (f^[n] x) m r ∧ trace f out x n = trace g out' y m := by
  induction m with
  | zero => exact ⟨0, r, hx, rfl⟩
  | succ m ih =>
    obtain ⟨n, r, hr, htrace⟩ := ih
    exact h.next hr htrace

theorem agree (h : Follows f out g out' y R) (hx : R x 0 r) :
    Agree (trace f out x) (trace g out' y) where
  sound n := by
    obtain ⟨m, -, -, htrace⟩ := h.sound hx n
    exact ⟨m, htrace⟩
  complete m := by
    obtain ⟨n, -, -, htrace⟩ := h.complete hx m
    exact ⟨n, htrace⟩

end Follows

end Course.Lib
