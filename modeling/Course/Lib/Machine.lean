import Mathlib.Logic.Relation

/-! Partial deterministic machines driven by a list of events, the runs whose
steps all meet a side condition, and the induction rules for those runs. -/

universe u v w x

namespace Course.Lib

/-- `step s e = none` means that `s` does not survive the event `e`. -/
structure Machine (σ : Type u) (ε : Type v) where
  step : σ → ε → Option σ

namespace Machine

variable {σ : Type u} {ε : Type v} {M : Machine σ ε} {P Q : σ → ε → Prop}

/-- A run from its first state, by its events, to its last state; every step
taken satisfies `P`. -/
inductive Run (M : Machine σ ε) (P : σ → ε → Prop) : σ → List ε → σ → Prop
  | nil : Run M P s [] s
  | cons : P s e → M.step s e = some t → Run M P t es u → Run M P s (e :: es) u

def exec (M : Machine σ ε) : σ → List ε → Option σ
  | s, [] => some s
  | s, e :: es => (M.step s e).bind fun t => M.exec t es

theorem exec_append (es es' : List ε) (s : σ) :
    M.exec s (es ++ es') = (M.exec s es).bind fun t => M.exec t es' := by
  induction es generalizing s with
  | nil => rfl
  | cons e es ih => simp [exec, Option.bind_assoc, ih]

theorem exec_concat (es : List ε) (e : ε) (s : σ) :
    M.exec s (es ++ [e]) = (M.exec s es).bind fun t => M.step t e := by
  rw [exec_append]
  simp [exec]

theorem Run.mono (h : ∀ s e, P s e → Q s e) : Run M P s es t → Run M Q s es t
  | .nil => .nil
  | .cons hp hs hr => .cons (h _ _ hp) hs (hr.mono h)

theorem run_iff_exec : Run M (fun _ _ => True) s es t ↔ M.exec s es = some t := by
  constructor
  · intro h
    induction h with
    | nil => rfl
    | cons _ hs _ ih => simp [exec, hs, ih]
  · intro h
    induction es generalizing s with
    | nil =>
      obtain rfl : s = t := by simpa [exec] using h
      exact .nil
    | cons e es ih =>
      obtain ⟨u, hu, ht⟩ := Option.bind_eq_some_iff.mp h
      exact .cons trivial hu (ih ht)

/-- `exec` that stops at a step that does not satisfy `P`. -/
def execWhile (M : Machine σ ε) (P : σ → ε → Prop) [∀ s e, Decidable (P s e)] :
    σ → List ε → Option σ
  | s, [] => some s
  | s, e :: es => if P s e then (M.step s e).bind fun t => M.execWhile P t es else none

theorem run_iff_execWhile [∀ s e, Decidable (P s e)] :
    Run M P s es t ↔ M.execWhile P s es = some t := by
  constructor
  · intro h
    induction h with
    | nil => rfl
    | cons hp hs _ ih => simp [execWhile, hp, hs, ih]
  · intro h
    induction es generalizing s with
    | nil =>
      obtain rfl : s = t := by simpa [execWhile] using h
      exact .nil
    | cons e es ih =>
      rw [execWhile] at h
      split at h
      next hp =>
        obtain ⟨u, hu, ht⟩ := Option.bind_eq_some_iff.mp h
        exact .cons hp hu (ih ht)
      next => cases h

/-- Where `R` relates one admissible step to one step of `f`, it relates a whole
run to the fold of `f`. -/
theorem Run.simulates {τ : Type w} {R : σ → τ → Prop} {f : τ → ε → τ} {a : τ}
    (hR : ∀ s e t a, R s a → P s e → M.step s e = some t → R t (f a e))
    (h : Run M P s es t) (hs : R s a) : R t (es.foldl f a) := by
  induction h generalizing a with
  | nil => exact hs
  | cons hp hstep _ ih => exact ih (hR _ _ _ _ hs hp hstep)

/-- What one admissible step preserves, a whole run preserves. -/
theorem Run.invariant {I : σ → Prop}
    (hI : ∀ s e t, I s → P s e → M.step s e = some t → I t)
    (h : Run M P s es t) (hs : I s) : I t :=
  h.simulates (R := fun s (_ : Unit) => I s) (f := fun _ _ => ()) (a := ())
    (fun s e t _ => hI s e t) hs

/-- Some event of the list meets `S` in the state in which it is taken. -/
def Occurs (M : Machine σ ε) (S : σ → ε → Prop) (s : σ) (es : List ε) : Prop :=
  ∃ pre e post t, es = pre ++ e :: post ∧ M.exec s pre = some t ∧ S t e

theorem not_occurs_nil {S : σ → ε → Prop} : ¬M.Occurs S s [] := by
  rintro ⟨pre, e, post, t, hes, -⟩
  simp at hes

theorem occurs_cons {S : σ → ε → Prop} (hstep : M.step s e = some t) :
    M.Occurs S s (e :: es) ↔ S s e ∨ M.Occurs S t es := by
  constructor
  · rintro ⟨pre, e', post, u, hes, hu, he'⟩
    rcases List.cons_eq_append_iff.mp hes with ⟨rfl, hpost⟩ | ⟨pre', rfl, hpost⟩
    · obtain ⟨rfl, -⟩ := List.cons.inj hpost
      obtain rfl : s = u := by simpa [exec] using hu
      exact .inl he'
    · exact .inr ⟨pre', e', post, u, hpost, by simpa [exec, hstep] using hu, he'⟩
  · rintro (he | ⟨pre, e', post, u, rfl, hu, he'⟩)
    · exact ⟨[], e, es, s, rfl, rfl, he⟩
    · exact ⟨e :: pre, e', post, u, rfl, by simpa [exec, hstep] using hu, he'⟩

/-- What one admissible step preserves, with the record whether an event that meets `S`
has occurred, a whole run preserves. -/
theorem Run.invariant_occurs {I : Prop → σ → Prop} {S : σ → ε → Prop} {q : Prop}
    (hI : ∀ q s e t, I q s → P s e → M.step s e = some t → I (q ∨ S s e) t)
    (h : Run M P s es t) (hs : I q s) : I (q ∨ M.Occurs S s es) t := by
  induction h generalizing q with
  | nil => simpa [not_occurs_nil] using hs
  | cons hp hstep _ ih =>
    rw [occurs_cons hstep, ← or_assoc]
    exact ih (hI _ _ _ _ hs hp hstep)

/-- Where `R` relates one admissible step to a step of another machine, it relates a
whole run to a run of that machine. -/
theorem Run.exists_run {τ : Type w} {δ : Type x} {N : Machine τ δ} {Q : τ → δ → Prop}
    {R : σ → τ → Prop} {a : τ}
    (hR : ∀ s e t a, R s a → P s e → M.step s e = some t →
      ∃ d b, Q a d ∧ N.step a d = some b ∧ R t b)
    (h : Run M P s es t) (hs : R s a) : ∃ ds b, Run N Q a ds b ∧ R t b := by
  induction h generalizing a with
  | nil => exact ⟨[], a, .nil, hs⟩
  | cons hp hstep _ ih =>
    obtain ⟨d, b, hq, hnext, hb⟩ := hR _ _ _ _ hs hp hstep
    obtain ⟨ds, c, hrun, hc⟩ := ih hb
    exact ⟨d :: ds, c, .cons hq hnext hrun, hc⟩

/-- Every event of the list meets `P` in the state in which it is taken. -/
def Along (M : Machine σ ε) (P : σ → ε → Prop) (s : σ) (es : List ε) : Prop :=
  ∀ pre e post t, es = pre ++ e :: post → M.exec s pre = some t → P t e

theorem along_nil : M.Along P s [] :=
  fun pre e post _ hes => absurd hes (by simp)

theorem along_concat :
    M.Along P s (es ++ [e]) ↔ M.Along P s es ∧ ∀ t, M.exec s es = some t → P t e := by
  constructor
  · intro h
    refine ⟨fun pre e' post t hes ht => ?_, fun t ht => h es e [] t rfl ht⟩
    exact h pre e' (post ++ [e]) t (by simp [hes]) ht
  · rintro ⟨h, hlast⟩ pre e' post t hes ht
    rcases List.eq_nil_or_concat post with rfl | ⟨post, e₁, rfl⟩
    · obtain ⟨rfl, he⟩ := List.append_inj' hes rfl
      obtain rfl : e = e' := by simpa using he
      exact hlast t ht
    · have heq : es ++ [e] = (pre ++ e' :: post) ++ [e₁] := by simpa using hes
      exact h pre e' post t (List.append_inj' heq rfl).1 ht

/-- Where every event is survived and `I` is kept, every list of events is. -/
theorem exec_total {I : σ → Prop} (hI : ∀ s e, I s → ∃ t, M.step s e = some t ∧ I t)
    (hs : I s) (es : List ε) : ∃ t, M.exec s es = some t ∧ I t := by
  induction es generalizing s with
  | nil => exact ⟨s, rfl, hs⟩
  | cons e es ih =>
    obtain ⟨t, ht, hit⟩ := hI s e hs
    simpa [exec, ht] using ih hit

end Machine

/-! ### Machines that survive every event -/

section

variable {σ : Type u} {ε : Type v} {f : σ → ε → σ} {P : σ → ε → Prop} {s : σ} {e : ε}
  {es es' : List ε}

/-- Every event of the list meets `P` in the state that the fold takes it in. -/
def AlongFold (f : σ → ε → σ) (P : σ → ε → Prop) (s : σ) (es : List ε) : Prop :=
  ∀ pre e post, es = pre ++ e :: post → P (pre.foldl f s) e

theorem alongFold_nil : AlongFold f P s [] :=
  fun pre e post hes => absurd hes (by simp)

theorem alongFold_cons : AlongFold f P s (e :: es) ↔ P s e ∧ AlongFold f P (f s e) es := by
  constructor
  · intro h
    refine ⟨h [] e es rfl, fun pre e' post hes => ?_⟩
    exact h (e :: pre) e' post (by rw [hes, List.cons_append])
  · rintro ⟨hfirst, hrest⟩ pre e' post hes
    rcases List.cons_eq_append_iff.mp hes with ⟨rfl, hpost⟩ | ⟨pre', rfl, hpost⟩
    · obtain ⟨rfl, -⟩ := List.cons.inj hpost
      exact hfirst
    · exact hrest pre' e' post hpost

theorem AlongFold.of_append (h : AlongFold f P s (es ++ es')) : AlongFold f P s es := by
  rintro pre e post rfl
  exact h pre e (post ++ es') (by simp)

end

end Course.Lib
