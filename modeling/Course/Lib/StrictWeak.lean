import Mathlib.Algebra.Order.Group.Multiset
import Mathlib.Order.Defs.LinearOrder
import Mathlib.Order.Defs.Unbundled

/-! Comparisons that are strict weak orders, and upper bounds for them. -/

namespace Course.Lib

variable {α : Type} {lt : α → α → Bool} {x y z : α} {s t : Multiset α}

abbrev StrictWeak (lt : α → α → Bool) : Prop := IsStrictWeakOrder α fun x y => lt x y = true

namespace StrictWeak

variable (hlt : StrictWeak lt)

include hlt

theorem irrefl (x : α) : lt x x = false := by
  apply Bool.eq_false_iff.mpr
  exact hlt.toIsStrictOrder.toIrrefl.irrefl x

theorem asymm (h : lt x y = true) : lt y x = false := by
  apply Bool.eq_false_iff.mpr
  intro h'
  exact hlt.toIsStrictOrder.toIrrefl.irrefl x (hlt.toIsStrictOrder.toIsTrans.trans x y x h h')

theorem ge_trans (hxy : lt x y = false) (hyz : lt y z = false) : lt x z = false := by
  apply Bool.eq_false_iff.mpr
  intro hxz
  have htrans := hlt.toIsStrictOrder.toIsTrans.trans
  have hyx : ¬lt y x = true := fun h => Bool.eq_false_iff.mp hyz (htrans y x z h hxz)
  have hzy : ¬lt z y = true := fun h => Bool.eq_false_iff.mp hxy (htrans x z y hxz h)
  exact (hlt.incomp_trans x y z ⟨Bool.eq_false_iff.mp hxy, hyx⟩
    ⟨Bool.eq_false_iff.mp hyz, hzy⟩).1 hxz

theorem lt_of_ge_of_lt (hxy : lt x y = false) (hxz : lt x z = true) : lt y z = true := by
  by_contra hyz
  rw [hlt.ge_trans hxy (Bool.eq_false_iff.mpr hyz)] at hxz
  cases hxz

omit hlt in
theorem of_linearOrder [LinearOrder α] : StrictWeak fun x y : α => decide (x < y) where
  irrefl x := by simp
  trans x y z := by
    simp only [decide_eq_true_eq]
    exact lt_trans
  incomp_trans x y z := by
    simp only [decide_eq_true_eq, not_lt]
    exact fun hxy hyz => ⟨hyz.1.trans hxy.1, hxy.2.trans hyz.2⟩

end StrictWeak

/-- No element of `s` exceeds `x`. -/
def Tops (lt : α → α → Bool) (x : α) (s : Multiset α) : Prop := ∀ y ∈ s, lt x y = false

namespace Tops

@[simp] theorem zero : Tops lt x 0 := fun y hy => absurd hy (Multiset.notMem_zero y)

@[simp] theorem cons_iff : Tops lt x (y ::ₘ s) ↔ lt x y = false ∧ Tops lt x s := by
  simp [Tops]

@[simp] theorem add_iff : Tops lt x (s + t) ↔ Tops lt x s ∧ Tops lt x t := by
  simp only [Tops, Multiset.mem_add]
  exact ⟨fun h => ⟨fun y hy => h y (.inl hy), fun y hy => h y (.inr hy)⟩,
    fun h y hy => hy.elim (h.1 y) (h.2 y)⟩

theorem trans (hlt : StrictWeak lt) (hxy : lt x y = false) (hy : Tops lt y s) : Tops lt x s :=
  fun z hz => hlt.ge_trans hxy (hy z hz)

end Tops

end Course.Lib
