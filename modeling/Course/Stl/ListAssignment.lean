import Course.Stl.Lists

/-! Assignments of any list to any list, also of a list to itself. -/

open Course.Lib Heap HeapRing

namespace Course.Stl.LinkedList

variable {T : Type} {w : World T} {ls : Seqs T} {i j : ℕ} {o other : LinkedList}
  {g : List (Item T)} {F : Multiset (ℕ × Cell T)} {h : Heap (Cell T)}

/-- The nodes of a list of a program. -/
theorem Separate.entry {es : List (Option (LinkedList × List (Item T)))} (hes : Separate w ls es)
    (ho : w.list i = some o) :
    ∃ g, ls[i]? = some (some (LinkedList.values g)) ∧ WellFormed w.heap o g := by
  rw [World.list, hes.lists, Option.join_eq_some_iff, List.getElem?_map,
    Option.map_eq_some_iff] at ho
  obtain ⟨e, he, heq⟩ := ho
  obtain ⟨⟨o', g⟩, rfl, rfl⟩ := Option.map_eq_some_iff.mp heq
  refine ⟨g, ?_, hes.wellFormed i o' g he⟩
  rw [hes.values, List.getElem?_map, he]
  rfl

end Course.Stl.LinkedList
