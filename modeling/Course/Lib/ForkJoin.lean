import Mathlib.Data.Int.Interval
import Mathlib.Data.Set.BooleanAlgebra
import Mathlib.Data.Set.Function
import Mathlib.Logic.Relation
import Mathlib.Order.CompletePartialOrder
import Mathlib.Order.GameAdd
import Mathlib.Order.Interval.Set.Defs

/-! Tasks over one shared array that fork two further tasks and join them, under every
interleaving of their accesses. -/

universe u v

namespace Course.Lib

variable {ι : Type u} {α : Type v}

/-- What a task has still to do: its accesses to the array, and the tasks it forks and joins.
Between the two forks and the two joins it makes no access of its own. -/
inductive Task (ι : Type u) (α : Type v)
  | done
  | read (i : ℤ) (k : α → Task ι α)
  | write (i : ℤ) (x : α) (k : Task ι α)
  | both (l r : ι) (k : Task ι α)

/-- The tasks alive: one that runs, or one that waits for the two it has forked. -/
inductive Tree (ι : Type u) (α : Type v)
  | leaf (t : Task ι α)
  | join (l r : Tree ι α) (k : Task ι α)

inductive Event (α : Type v)
  | read (i : ℤ) (x : α)
  | write (i : ℤ) (x : α)
  | tau

namespace Event

/-- The access stays inside the region. -/
def Within (R : Set ℤ) : Event α → Prop
  | read i _ => i ∈ R
  | write i _ => i ∈ R
  | tau => True

/-- The event is possible in the first array and leaves the second. -/
def Does : Event α → (ℤ → α) → (ℤ → α) → Prop
  | read i x, m, m' => m i = x ∧ m' = m
  | write i x, m, m' => m' = Function.update m i x
  | tau, m, m' => m' = m

variable {e : Event α} {R R' : Set ℤ} {m m' n n' : ℤ → α}

theorem Within.mono (h : e.Within R) (hR : R ⊆ R') : e.Within R' := by
  cases e with
  | read i x => exact hR h
  | write i x => exact hR h
  | tau => trivial

/-- Outside its region an event changes nothing. -/
theorem Does.frame (h : e.Does m m') (hR : e.Within R) : Set.EqOn m' m Rᶜ := by
  intro j hj
  cases e with
  | read i x => rw [h.2]
  | write i x =>
    obtain rfl := h
    exact Function.update_of_ne (fun hij : j = i => hj (hij ▸ hR)) x m
  | tau => rw [h]

/-- An event inside a region happens alike in an array that agrees there. -/
theorem Does.transfer (h : e.Does m m') (hR : e.Within R) (hm : Set.EqOn m n R) :
    ∃ n', e.Does n n' ∧ Set.EqOn m' n' R := by
  cases e with
  | read i x =>
    obtain ⟨rfl, rfl⟩ := h
    exact ⟨n, ⟨(hm hR).symm, rfl⟩, hm⟩
  | write i x =>
    obtain rfl := h
    refine ⟨Function.update n i x, rfl, fun j hj => ?_⟩
    by_cases hij : j = i
    · rw [hij, Function.update_self, Function.update_self]
    · rw [Function.update_of_ne hij, Function.update_of_ne hij, hm hj]
  | tau =>
    obtain rfl := h
    exact ⟨n, rfl, hm⟩

end Event

/-- One step of one of the tasks; `body` is what a forked task computes. -/
inductive Step (body : ι → Task ι α) : Tree ι α → Event α → Tree ι α → Prop
  | read (i : ℤ) (k : α → Task ι α) (x : α) :
      Step body (.leaf (.read i k)) (.read i x) (.leaf (k x))
  | write (i : ℤ) (x : α) (k : Task ι α) :
      Step body (.leaf (.write i x k)) (.write i x) (.leaf k)
  | fork (l r : ι) (k : Task ι α) :
      Step body (.leaf (.both l r k)) .tau (.join (.leaf (body l)) (.leaf (body r)) k)
  | join (k : Task ι α) : Step body (.join (.leaf .done) (.leaf .done) k) .tau (.leaf k)
  | left {l l' : Tree ι α} {e : Event α} (r : Tree ι α) (k : Task ι α) (h : Step body l e l') :
      Step body (.join l r k) e (.join l' r k)
  | right {r r' : Tree ι α} {e : Event α} (l : Tree ι α) (k : Task ι α) (h : Step body r e r') :
      Step body (.join l r k) e (.join l r' k)

/-- The tasks alive and the array they share. -/
abbrev Config (ι : Type u) (α : Type v) := Tree ι α × (ℤ → α)

/-- One step of one of the tasks, with its effect on the array. -/
def Next (body : ι → Task ι α) (c c' : Config ι α) : Prop :=
  ∃ e, Step body c.1 e c'.1 ∧ e.Does c.2 c'.2

/-- Whatever the interleaving: the run ends, every access on the way is inside `R`, and no run
stops before every task is done and the array as `Q` says. -/
structure Correct (body : ι → Task ι α) (R : Set ℤ) (Q : (ℤ → α) → Prop) (c : Config ι α) :
    Prop where
  halts : ¬∃ run : ℕ → Config ι α, run 0 = c ∧ ∀ n, Next body (run n) (run (n + 1))
  inside : ∀ (d : Config ι α) (e : Event α) (t : Tree ι α),
    Relation.ReflTransGen (Next body) c d → Step body d.1 e t → e.Within R
  ends : ∀ d, Relation.ReflTransGen (Next body) c d → (¬∃ d', Next body d d') →
    d.1 = .leaf .done ∧ Q d.2

variable {body : ι → Task ι α} {R R₁ R₂ : Set ℤ} {Q Q' Q₁ Q₂ : (ℤ → α) → Prop}
  {t t' t₁ t₂ : Tree ι α} {m m' m₀ m₁ m₂ : ℤ → α}

/-- `Correct` step by step. -/
inductive Ends (body : ι → Task ι α) (R : Set ℤ) (Q : (ℤ → α) → Prop) :
    Tree ι α → (ℤ → α) → Prop
  | done {m : ℤ → α} (h : Q m) : Ends body R Q (.leaf .done) m
  | step {t : Tree ι α} {m : ℤ → α} (some : ∃ e t' m', Step body t e t' ∧ e.Does m m')
      (within : ∀ e t', Step body t e t' → e.Within R)
      (all : ∀ e t' m', Step body t e t' → e.Does m m' → Ends body R Q t' m') : Ends body R Q t m

theorem not_step_done {e : Event α} : ¬Step body (.leaf .done) e t := by
  rintro ⟨⟩

namespace Ends

theorem next {c c' : Config ι α} (h : Ends body R Q c.1 c.2) (hn : Next body c c') :
    Ends body R Q c'.1 c'.2 := by
  obtain ⟨e, hs, hd⟩ := hn
  obtain ⟨t, m⟩ := c
  cases h with
  | done => exact absurd hs not_step_done
  | step _ _ all => exact all e _ _ hs hd

theorem run {c c' : Config ι α} (h : Ends body R Q c.1 c.2)
    (hr : Relation.ReflTransGen (Next body) c c') : Ends body R Q c'.1 c'.2 := by
  induction hr with
  | refl => exact h
  | tail _ hn ih => exact ih.next hn

theorem acc (h : Ends body R Q t m) : Acc (fun c' c => Next body c c') (t, m) := by
  induction h with
  | done =>
    refine ⟨_, ?_⟩
    rintro c ⟨e, hs, -⟩
    exact absurd hs not_step_done
  | step _ _ _ ih =>
    refine ⟨_, ?_⟩
    rintro c ⟨e, hs, hd⟩
    exact ih e _ _ hs hd

theorem progress (h : Ends body R Q t m) :
    (t = .leaf .done ∧ Q m) ∨ ∃ e t' m', Step body t e t' ∧ e.Does m m' := by
  cases h with
  | done hq => exact .inl ⟨rfl, hq⟩
  | step some _ _ => exact .inr some

theorem within {e : Event α} (h : Ends body R Q t m) (hs : Step body t e t') : e.Within R := by
  cases h with
  | done => exact absurd hs not_step_done
  | step _ within _ => exact within e _ hs

theorem correct (h : Ends body R Q t m) : Correct body R Q (t, m) where
  halts := fun ⟨run, h0, hr⟩ =>
    not_acc_iff_exists_descending_chain.mpr ⟨run, h0, hr⟩ h.acc
  inside d e t' hr hs := (run (c := (t, m)) h hr).within hs
  ends d hr hno := by
    obtain hdone | ⟨e, t', m', hs, hd⟩ := (run (c := (t, m)) h hr).progress
    · exact hdone
    · exact absurd ⟨(t', m'), e, hs, hd⟩ hno

theorem mono (h : Ends body R₁ Q t m) (hR : R₁ ⊆ R) (hQ : ∀ m', Q m' → Q' m') :
    Ends body R Q' t m := by
  induction h with
  | done hq => exact .done (hQ _ hq)
  | step some within _ ih =>
    exact .step some (fun e t' hs => (within e t' hs).mono hR) ih

theorem read {i : ℤ} {k : α → Task ι α} (hi : i ∈ R) (h : Ends body R Q (.leaf (k (m i))) m) :
    Ends body R Q (.leaf (.read i k)) m := by
  refine .step ⟨_, _, m, .read i k (m i), rfl, rfl⟩ ?_ ?_
  · rintro _ _ ⟨_, _, x⟩
    exact hi
  · rintro _ _ m' (⟨_, _, x⟩) ⟨rfl, rfl⟩
    exact h

theorem write {i : ℤ} {x : α} {k : Task ι α} (hi : i ∈ R)
    (h : Ends body R Q (.leaf k) (Function.update m i x)) :
    Ends body R Q (.leaf (.write i x k)) m := by
  refine .step ⟨_, _, _, .write i x k, rfl⟩ ?_ ?_
  · rintro _ _ ⟨⟩
    exact hi
  · rintro _ _ m' ⟨⟩ rfl
    exact h

theorem fork {l r : ι} {k : Task ι α}
    (h : Ends body R Q (.join (.leaf (body l)) (.leaf (body r)) k) m) :
    Ends body R Q (.leaf (.both l r k)) m := by
  refine .step ⟨_, _, m, .fork l r k, rfl⟩ ?_ ?_
  · rintro _ _ ⟨⟩
    trivial
  · rintro _ _ m' ⟨⟩ rfl
    exact h

end Ends

section Parallel

variable {k : Task ι α}

/-- Two tasks that keep to disjoint regions end as each does alone. -/
theorem Ends.join (hdis : Disjoint R₁ R₂) (hR₁ : R₁ ⊆ R) (hR₂ : R₂ ⊆ R)
    (rest : ∀ m n₁ n₂, Set.EqOn m n₁ R₁ → Set.EqOn m n₂ R₂ → Set.EqOn m m₀ (R₁ ∪ R₂)ᶜ →
      Q₁ n₁ → Q₂ n₂ → Ends body R Q (.leaf k) m)
    (h₁ : Ends body R₁ Q₁ t₁ m₁) (h₂ : Ends body R₂ Q₂ t₂ m₂)
    (hm₁ : Set.EqOn m m₁ R₁) (hm₂ : Set.EqOn m m₂ R₂) (hm₀ : Set.EqOn m m₀ (R₁ ∪ R₂)ᶜ) :
    Ends body R Q (.join t₁ t₂ k) m := by
  have hsub₁ : R₁ ⊆ R₂ᶜ := hdis.subset_compl_right
  have hsub₂ : R₂ ⊆ R₁ᶜ := hdis.subset_compl_left
  have hacc := h₁.acc.prod_gameAdd h₂.acc
  generalize hc : ((t₁, m₁), (t₂, m₂)) = c at hacc
  induction hacc generalizing t₁ m₁ t₂ m₂ m with
  | intro c _ ih =>
    subst hc
    refine .step ?_ ?_ ?_
    · obtain ⟨rfl, -⟩ | ⟨e, t', m', hs, hd⟩ := h₁.progress
      · obtain ⟨rfl, -⟩ | ⟨e, t', m', hs, hd⟩ := h₂.progress
        · exact ⟨_, _, m, .join k, rfl⟩
        · obtain ⟨n, hn, -⟩ := hd.transfer (h₂.within hs) hm₂.symm
          exact ⟨e, _, n, .right _ k hs, hn⟩
      · obtain ⟨n, hn, -⟩ := hd.transfer (h₁.within hs) hm₁.symm
        exact ⟨e, _, n, .left _ k hs, hn⟩
    · intro e t' hs
      cases hs with
      | join => trivial
      | left _ _ hs => exact (h₁.within hs).mono hR₁
      | right _ _ hs => exact (h₂.within hs).mono hR₂
    · intro e t' m' hs hd
      cases hs with
      | join =>
        obtain rfl := hd
        obtain ⟨-, hq₁⟩ | ⟨_, _, _, hs, -⟩ := h₁.progress
        · obtain ⟨-, hq₂⟩ | ⟨_, _, _, hs, -⟩ := h₂.progress
          · exact rest _ _ _ hm₁ hm₂ hm₀ hq₁ hq₂
          · exact absurd hs not_step_done
        · exact absurd hs not_step_done
      | left _ _ hs =>
        obtain ⟨n, hn, hon⟩ := hd.transfer (h₁.within hs) hm₁
        have hoff := hd.frame (h₁.within hs)
        have hnext : Next body (t₁, m₁) (_, n) := ⟨e, hs, hn⟩
        exact ih _ (.fst hnext) (h₁.next hnext) h₂ hon
          (fun i hi => (hoff (hsub₂ hi)).trans (hm₂ hi))
          (fun i hi => (hoff fun hi' => hi (.inl hi')).trans (hm₀ hi)) rfl
      | right _ _ hs =>
        obtain ⟨n, hn, hon⟩ := hd.transfer (h₂.within hs) hm₂
        have hoff := hd.frame (h₂.within hs)
        have hnext : Next body (t₂, m₂) (_, n) := ⟨e, hs, hn⟩
        exact ih _ (.snd hnext) h₁ (h₂.next hnext)
          (fun i hi => (hoff (hsub₁ hi)).trans (hm₁ hi)) hon
          (fun i hi => (hoff fun hi' => hi (.inr hi')).trans (hm₀ hi)) rfl

/-- What a task does that forks two others and then goes on. -/
theorem Ends.both {l r : ι} (hdis : Disjoint R₁ R₂) (hR₁ : R₁ ⊆ R) (hR₂ : R₂ ⊆ R)
    (h₁ : Ends body R₁ Q₁ (.leaf (body l)) m) (h₂ : Ends body R₂ Q₂ (.leaf (body r)) m)
    (rest : ∀ m' n₁ n₂, Set.EqOn m' n₁ R₁ → Set.EqOn m' n₂ R₂ → Set.EqOn m' m (R₁ ∪ R₂)ᶜ →
      Q₁ n₁ → Q₂ n₂ → Ends body R Q (.leaf k) m') :
    Ends body R Q (.leaf (.both l r k)) m :=
  .fork (.join hdis hR₁ hR₂ rest h₁ h₂ (fun _ _ => rfl) (fun _ _ => rfl) fun _ _ => rfl)

end Parallel

end Course.Lib
