import Course.Lib.Heap
import Mathlib.Algebra.BigOperators.Group.List.Basic
import Mathlib.Algebra.Order.Group.Multiset
import Mathlib.Tactic.Abel

/-! Programs with several objects of a class: their records in a store, no two of
them with a record in common, and the values they stand for. -/

namespace Course.Lib

open Heap

/-- An object `o` with the structure `g` behind its pointers. -/
structure Kind (ω γ μ ν : Type) where
  Rep : ω → γ → Prop
  cells : ω → γ → Multiset (ℕ × ν)
  value : γ → μ

namespace Kind

variable {ω γ μ ν : Type} (k : Kind ω γ μ ν)

def cellsOf : Option (ω × γ) → Multiset (ℕ × ν)
  | none => 0
  | some (o, g) => k.cells o g

/-- The records of all objects. -/
def memory (es : List (Option (ω × γ))) : Multiset (ℕ × ν) := (es.map k.cellsOf).sum

/-- The objects of a program, of which some are destroyed, and their values. -/
structure ShowsBy (s : List (Option ω)) (ms : List (Option μ)) (es : List (Option (ω × γ))) :
    Prop where
  objects : s = es.map (Option.map Prod.fst)
  values : ms = es.map (Option.map fun e => k.value e.2)
  rep : ∀ o g, some (o, g) ∈ es → k.Rep o g

def Shows (h : Heap ν) (s : List (Option ω)) (ms : List (Option μ)) : Prop :=
  ∃ es, k.ShowsBy s ms es ∧ Holds h [] (k.memory es)

variable {k} {h : Heap ν} {s : List (Option ω)} {ms : List (Option μ)}
  {es : List (Option (ω × γ))} {e e' : Option (ω × γ)} {i j : ℕ} {o : ω} {g : γ}

theorem memory_concat : k.memory (es ++ [e]) = k.cellsOf e + k.memory es := by
  simp [memory, add_comm]

theorem memory_set (hi : i < es.length) :
    k.memory (es.set i e) = k.cellsOf e + k.memory (es.set i none) := by
  induction es generalizing i with
  | nil => simp at hi
  | cons x es ih =>
    cases i with
    | zero => simp [memory, cellsOf]
    | succ i =>
      have h := ih (Nat.lt_of_succ_lt_succ hi)
      simp only [memory, List.set_cons_succ, List.map_cons, List.sum_cons] at h ⊢
      rw [h]
      abel

theorem memory_eq (hi : es[i]? = some e) :
    k.memory es = k.cellsOf e + k.memory (es.set i none) := by
  obtain ⟨hlt, rfl⟩ := List.getElem?_eq_some_iff.mp hi
  rw [← memory_set hlt, List.set_getElem_self]

namespace ShowsBy

theorem entry (hw : k.ShowsBy s ms es) (hi : s[i]?.join = some o) :
    ∃ g, es[i]? = some (some (o, g)) ∧ ms[i]? = some (some (k.value g)) ∧ k.Rep o g := by
  rw [hw.objects, Option.join_eq_some_iff, List.getElem?_map, Option.map_eq_some_iff] at hi
  obtain ⟨e, he, heq⟩ := hi
  obtain ⟨⟨o', g⟩, rfl, rfl⟩ := Option.map_eq_some_iff.mp heq
  refine ⟨g, he, ?_, hw.rep o' g (List.mem_of_getElem? he)⟩
  rw [hw.values, List.getElem?_map, he]
  rfl

theorem absent (hw : k.ShowsBy s ms es) (hi : s[i]?.join = none) :
    ms[i]? = s[i]?.map fun _ => none := by
  rw [hw.objects, List.getElem?_map] at hi ⊢
  rw [hw.values, List.getElem?_map, Option.map_map]
  cases he : es[i]? with
  | none => rfl
  | some e =>
    rw [he] at hi
    cases e with
    | none => rfl
    | some e => cases hi

theorem set (hw : k.ShowsBy s ms es) (i : ℕ) (e : Option (ω × γ))
    (he : ∀ o g, e = some (o, g) → k.Rep o g) :
    k.ShowsBy (s.set i (e.map Prod.fst)) (ms.set i (e.map fun e => k.value e.2)) (es.set i e) := by
  refine ⟨?_, ?_, fun o g hmem => ?_⟩
  · simp [hw.objects, List.map_set]
  · simp [hw.values, List.map_set]
  · rcases List.mem_or_eq_of_mem_set hmem with hmem | heq
    · exact hw.rep o g hmem
    · exact he o g heq.symm

theorem put (hw : k.ShowsBy s ms es) (i : ℕ) (ho : k.Rep o g) :
    k.ShowsBy (s.set i (some o)) (ms.set i (some (k.value g))) (es.set i (some (o, g))) := by
  apply hw.set i (some (o, g))
  rintro _ _ ⟨⟩
  exact ho

theorem erase (hw : k.ShowsBy s ms es) (i : ℕ) :
    k.ShowsBy (s.set i none) (ms.set i none) (es.set i none) := by
  apply hw.set i none
  rintro _ _ ⟨⟩

theorem concat (hw : k.ShowsBy s ms es) (ho : k.Rep o g) :
    k.ShowsBy (s ++ [some o]) (ms ++ [some (k.value g)]) (es ++ [some (o, g)]) := by
  refine ⟨?_, ?_, fun o' g' hmem => ?_⟩
  · simp [hw.objects]
  · simp [hw.values]
  · rcases List.mem_append.mp hmem with hmem | hmem
    · exact hw.rep o' g' hmem
    · obtain ⟨rfl, rfl⟩ : o' = o ∧ g' = g := by simpa using hmem
      exact ho

end ShowsBy

/-- One object, and what a step may do with it. -/
structure Focus (k : Kind ω γ μ ν) (h : Heap ν) (s : List (Option ω)) (ms : List (Option μ))
    (i : ℕ) (o : ω) (g : γ) (F : Multiset (ℕ × ν)) : Prop where
  value : ms[i]? = some (some (k.value g))
  rep : k.Rep o g
  holds : Holds h [] (k.cells o g + F)
  put : ∀ {h' o' g'}, k.Rep o' g' → Holds h' [] (k.cells o' g' + F) →
    k.Shows h' (s.set i (some o')) (ms.set i (some (k.value g')))
  concat : ∀ {h' o' g'}, k.Rep o' g' → Holds h' [] (k.cells o' g' + (k.cells o g + F)) →
    k.Shows h' (s ++ [some o']) (ms ++ [some (k.value g')])
  erase : ∀ {h'}, Holds h' [] F → k.Shows h' (s.set i none) (ms.set i none)

namespace Focus

variable {F : Multiset (ℕ × ν)} {h' : Heap ν} {o' : ω} {g' : γ}

theorem set_value (hf : Focus k h s ms i o g F) : ms.set i (some (k.value g)) = ms := by
  obtain ⟨hlt, heq⟩ := List.getElem?_eq_some_iff.mp hf.value
  rw [← heq, List.set_getElem_self]

/-- The values stay as they are. -/
theorem keep (hf : Focus k h s ms i o g F) (hvalue : k.value g' = k.value g) (ho : k.Rep o' g')
    (hs : Holds h' [] (k.cells o' g' + F)) : k.Shows h' (s.set i (some o')) ms := by
  have hput := hf.put ho hs
  rwa [hvalue, hf.set_value] at hput

end Focus

/-- Two objects, and what a step may do with them. -/
structure Focus₂ (k : Kind ω γ μ ν) (h : Heap ν) (s : List (Option ω)) (ms : List (Option μ))
    (i j : ℕ) (o p : ω) (g f : γ) (F : Multiset (ℕ × ν)) : Prop where
  value : ms[i]? = some (some (k.value g))
  value' : ms[j]? = some (some (k.value f))
  rep : k.Rep o g
  rep' : k.Rep p f
  holds : Holds h [] (k.cells o g + (k.cells p f + F))
  put : ∀ {h' o' g'}, k.Rep o' g' → Holds h' [] (k.cells o' g' + (k.cells p f + F)) →
    k.Shows h' (s.set i (some o')) (ms.set i (some (k.value g')))
  put₂ : ∀ {h' o' g' p' f'}, k.Rep o' g' → k.Rep p' f' →
    Holds h' [] (k.cells o' g' + (k.cells p' f' + F)) →
    k.Shows h' ((s.set i (some o')).set j (some p'))
      ((ms.set i (some (k.value g'))).set j (some (k.value f')))

namespace Shows

theorem empty : k.Shows ⟨fun _ => none, 0⟩ [] [] := by
  refine ⟨[], ⟨rfl, rfl, by simp⟩, ?_⟩
  exact ⟨by simp [memory], by simp [memory], by simp [memory]⟩

/-- Memory for a new object. -/
theorem new (hw : k.Shows h s ms) : ∃ F, Holds h [] F ∧ ∀ {h' : Heap ν} {o : ω} {g : γ},
    k.Rep o g → Holds h' [] (k.cells o g + F) →
    k.Shows h' (s ++ [some o]) (ms ++ [some (k.value g)]) := by
  obtain ⟨es, hes, hs⟩ := hw
  refine ⟨k.memory es, hs, fun ho hs' => ⟨_, hes.concat ho, ?_⟩⟩
  rw [memory_concat]
  exact hs'

theorem focus (hw : k.Shows h s ms) (hi : s[i]?.join = some o) :
    ∃ g F, Focus k h s ms i o g F := by
  obtain ⟨es, hes, hs⟩ := hw
  obtain ⟨g, he, hm, hrep⟩ := hes.entry hi
  have hlt := (List.getElem?_eq_some_iff.mp he).1
  refine ⟨g, k.memory (es.set i none), hm, hrep, memory_eq he ▸ hs, ?_, ?_, ?_⟩
  · intro h' o' g' hrep' hs'
    exact ⟨_, hes.put i hrep', memory_set (e := some (o', g')) hlt ▸ hs'⟩
  · intro h' o' g' hrep' hs'
    refine ⟨_, hes.concat hrep', ?_⟩
    rw [memory_concat, memory_eq he]
    exact hs'
  · intro h' hs'
    exact ⟨_, hes.erase i, hs'⟩

theorem focus₂ {p : ω} (hw : k.Shows h s ms) (hij : i ≠ j) (hi : s[i]?.join = some o)
    (hj : s[j]?.join = some p) : ∃ g f F, Focus₂ k h s ms i j o p g f F := by
  obtain ⟨es, hes, hs⟩ := hw
  obtain ⟨g, he, hm, hrep⟩ := hes.entry hi
  obtain ⟨f, he', hm', hrep'⟩ := hes.entry hj
  have hlt := (List.getElem?_eq_some_iff.mp he).1
  have hlt' := (List.getElem?_eq_some_iff.mp he').1
  have hj' : (es.set i none)[j]? = some (some (p, f)) := by rw [List.getElem?_set_ne hij, he']
  rw [memory_eq he, memory_eq hj'] at hs
  refine ⟨g, f, _, hm, hm', hrep, hrep', hs, ?_, ?_⟩
  · intro h' o' g' ho' hs'
    refine ⟨_, hes.put i ho', ?_⟩
    rw [memory_set hlt, memory_eq hj']
    exact hs'
  · intro h' o' g' p' f' ho' hp' hs'
    refine ⟨_, (hes.put i ho').put j hp', ?_⟩
    rw [memory_set (by simpa using hlt'), List.set_comm _ _ hij, memory_set (by simpa using hlt),
      List.set_comm _ _ hij.symm]
    apply hs'.congr
    simp only [cellsOf]
    abel

theorem isSome {m : μ} (hw : k.Shows h s ms) (hi : ms[i]? = some (some m)) :
    s[i]?.join.isSome := by
  obtain ⟨es, hes, -⟩ := hw
  cases ho : s[i]?.join with
  | none =>
    rw [hes.absent ho] at hi
    cases hs : s[i]? <;> simp [hs] at hi
  | some o => rfl

/-- Where the records determine the value of an object, they determine all values. -/
theorem unique {ms' : List (Option μ)}
    (hk : ∀ o g g', k.Rep o g → k.Rep o g' → (∀ c ∈ k.cells o g, h.cells c.1 = some c.2) →
      (∀ c ∈ k.cells o g', h.cells c.1 = some c.2) → k.value g = k.value g')
    (hw : k.Shows h s ms) (hw' : k.Shows h s ms') : ms = ms' := by
  apply List.ext_getElem?
  intro i
  cases ho : s[i]?.join with
  | none =>
    obtain ⟨es, hes, -⟩ := hw
    obtain ⟨es', hes', -⟩ := hw'
    rw [hes.absent ho, hes'.absent ho]
  | some o =>
    obtain ⟨g, F, hf⟩ := hw.focus ho
    obtain ⟨g', F', hf'⟩ := hw'.focus ho
    have hvalue : k.value g = k.value g' := by
      apply hk o g g' hf.rep hf'.rep
      · exact fun c hc => hf.holds.cells_of_mem (Multiset.mem_add.mpr (.inl hc))
      · exact fun c hc => hf'.holds.cells_of_mem (Multiset.mem_add.mpr (.inl hc))
    rw [hf.value, hf'.value, hvalue]

end Shows

/-- The same objects, of whose values only a part is looked at. -/
def mapValue {μ' : Type} (k : Kind ω γ μ ν) (f : μ → μ') : Kind ω γ μ' ν :=
  { k with value := fun g => f (k.value g) }

theorem shows_mapValue {μ' : Type} {f : μ → μ'} {ms' : List (Option μ')} :
    (k.mapValue f).Shows h s ms' ↔ ∃ ms, k.Shows h s ms ∧ ms' = ms.map (Option.map f) := by
  have hmap : ∀ es : List (Option (ω × γ)), es.map (Option.map fun e => f (k.value e.2)) =
      (es.map (Option.map fun e => k.value e.2)).map (Option.map f) := by
    intro es
    rw [List.map_map]
    apply List.map_congr_left
    intro e _
    cases e <;> rfl
  constructor
  · rintro ⟨es, ⟨hobjects, hvalues, hrep⟩, hs⟩
    exact ⟨_, ⟨es, ⟨hobjects, rfl, hrep⟩, hs⟩, hvalues.trans (hmap es)⟩
  · rintro ⟨_, ⟨es, ⟨hobjects, rfl, hrep⟩, hs⟩, rfl⟩
    exact ⟨es, ⟨hobjects, (hmap es).symm, hrep⟩, hs⟩

end Kind

end Course.Lib
