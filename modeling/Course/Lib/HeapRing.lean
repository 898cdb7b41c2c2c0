import Course.Lib.Heap
import Mathlib.Algebra.Order.Group.Multiset
import Mathlib.Tactic.Abel

/-! Doubly linked chains and rings in a store. The records are made by `mk` from a
payload and the two addresses they are linked with. -/

namespace Course.Lib

open Heap

namespace HeapRing

variable {ν δ : Type} (mk : δ → ℕ → ℕ → ν)

/-- The first address of a chain that is followed by `q`. -/
def head (q : ℕ) : List (ℕ × δ) → ℕ
  | [] => q
  | x :: _ => x.1

/-- The last address of a chain that follows `p`. -/
def last (p : ℕ) : List (ℕ × δ) → ℕ
  | [] => p
  | x :: l => last x.1 l

/-- The records of a chain between `p` and `q`. -/
def seg (p : ℕ) (q : ℕ) : List (ℕ × δ) → Multiset (ℕ × ν)
  | [] => 0
  | x :: l => {(x.1, mk x.2 p (head q l))} + seg x.1 q l

/-- The records of a ring. -/
def ring : List (ℕ × δ) → Multiset (ℕ × ν)
  | [] => 0
  | x :: l => {(x.1, mk x.2 (last x.1 l) (head x.1 l))} + seg mk x.1 x.1 l

variable {mk} {p q : ℕ} {x y : ℕ × δ} {l l₁ l₂ : List (ℕ × δ)}

@[simp] theorem head_nil : head (δ := δ) q [] = q := rfl

@[simp] theorem head_cons : head q (x :: l) = x.1 := rfl

@[simp] theorem last_nil : last (δ := δ) p [] = p := rfl

@[simp] theorem last_cons : last p (x :: l) = last x.1 l := rfl

@[simp] theorem seg_nil : seg mk p q [] = 0 := rfl

theorem seg_cons : seg mk p q (x :: l) = {(x.1, mk x.2 p (head q l))} + seg mk x.1 q l := rfl

theorem ring_cons :
    ring mk (x :: l) = {(x.1, mk x.2 (last x.1 l) (head x.1 l))} + seg mk x.1 x.1 l := rfl

@[simp] theorem head_append : head q (l₁ ++ l₂) = head (head q l₂) l₁ := by
  cases l₁ with
  | nil => rfl
  | cons x l₁ => rfl

@[simp] theorem last_append : last p (l₁ ++ l₂) = last (last p l₁) l₂ := by
  induction l₁ generalizing p with
  | nil => rfl
  | cons x l₁ ih => exact ih

theorem last_mem (p : ℕ) (l : List (ℕ × δ)) : last p l ∈ p :: l.map Prod.fst := by
  induction l generalizing p with
  | nil => exact List.mem_singleton_self p
  | cons x l ih => exact List.mem_cons_of_mem p (ih x.1)

/-- What holds of all neighbours holds around the ring. -/
theorem isChain_ring {R : ℕ → ℕ → Prop} (hR : ∀ l₁ l₂, l = l₁ ++ l₂ → R (last p l₁) (head p l₂)) :
    (p :: (l.map Prod.fst ++ [p])).IsChain R := by
  have hfrom : ∀ l₂ l₁, l = l₁ ++ l₂ →
      (last p l₁ :: (l₂.map Prod.fst ++ [p])).IsChain R := by
    intro l₂
    induction l₂ with
    | nil => exact fun l₁ heq => .cons_cons (hR l₁ [] heq) (.singleton p)
    | cons x l₂ ih =>
      intro l₁ heq
      have hrest := ih (l₁ ++ [x]) (by rw [heq, List.append_cons])
      rw [last_append] at hrest
      exact .cons_cons (hR l₁ (x :: l₂) heq) hrest
  exact hfrom l [] rfl

theorem seg_append :
    seg mk p q (l₁ ++ l₂) = seg mk p (head q l₂) l₁ + seg mk (last p l₁) q l₂ := by
  induction l₁ generalizing p with
  | nil => simp
  | cons x l₁ ih =>
    simp only [List.cons_append, seg_cons, head_append, last_cons, ih]
    abel

/-- A ring has no first record. -/
theorem ring_rotate : ring mk (l₁ ++ l₂) = ring mk (l₂ ++ l₁) := by
  cases l₁ with
  | nil => rw [List.nil_append, List.append_nil]
  | cons x l₁ =>
    cases l₂ with
    | nil => rw [List.nil_append, List.append_nil]
    | cons y l₂ =>
      simp only [List.cons_append, ring_cons, seg_append, seg_cons, head_append, last_append,
        head_cons, last_cons]
      abel

/-- The first and the last record, which are neighbours. -/
theorem ring_pair : ring mk (x :: (l ++ [y])) = {(x.1, mk x.2 y.1 (head y.1 l))} +
    (seg mk x.1 y.1 l + {(y.1, mk y.2 (last x.1 l) x.1)}) := by
  simp [ring_cons, seg_append, seg_cons]

end HeapRing

end Course.Lib
