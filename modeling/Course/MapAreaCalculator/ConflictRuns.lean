import Course.MapAreaCalculator.Conflicts

/-! Runs of a polygon in which the list of conflicts stays right: those whose steps pop only
the conflicts of edges that are no longer there. -/

open Course.Lib

namespace Course.MapAreaCalculator.Polygon

variable {s : Polygon} {vs : List Point} {lines : List (List Char)} {width height : ℤ}

def pushAll (s : Polygon) (vs : List Point) : Polygon := vs.foldl (fun s v => s.push v.x v.y) s

theorem pushAll_cons (s : Polygon) (v : Point) (vs : List Point) :
    s.pushAll (v :: vs) = (s.push v.x v.y).pushAll vs := rfl

/-- Each of the pushes is safe. -/
def PushesSafe : Polygon → List Point → Prop
  | _, [] => True
  | s, v :: vs => s.PushSafe ∧ PushesSafe (s.push v.x v.y) vs

theorem Short.pushAll (h : s.Short) (vs : List Point) : (s.pushAll vs).Short := by
  induction vs generalizing s with
  | nil => exact h
  | cons v vs ih => exact ih h.push

theorem Exact.pushAll (h : s.Exact) (vs : List Point) :
    (PushesSafe s vs → (s.pushAll vs).Exact) ∧ (¬PushesSafe s vs → (s.pushAll vs).Short) := by
  induction vs generalizing s with
  | nil => exact ⟨fun _ => h, fun hsafe => absurd trivial hsafe⟩
  | cons v vs ih =>
    rw [PushesSafe, pushAll_cons]
    by_cases hsafe : s.PushSafe
    · simp only [hsafe, true_and]
      exact ih (h.push hsafe)
    · exact ⟨fun hall => absurd hall.1 hsafe, fun _ => (h.short_push hsafe).pushAll vs⟩

/-! ### Import -/

theorem readLines_eq_pushAll (h : ∀ line ∈ lines, readLine width height line ≠ none)
    (s : Polygon) :
    readLines width height s lines = s.pushAll (lines.filterMap (readLine width height)) := by
  induction lines generalizing s with
  | nil => rfl
  | cons line lines ih =>
    obtain ⟨hline, hlines⟩ := List.forall_mem_cons.mp h
    obtain ⟨v, hv⟩ := Option.ne_none_iff_exists'.mp hline
    rw [readLines, hv, List.filterMap_cons_some hv, pushAll_cons]
    exact ih hlines _

/-- A line that cannot be read loses the vertices, wherever it is. -/
theorem readLines_of_none (h : ∃ line ∈ lines, readLine width height line = none) (s : Polygon) :
    (readLines width height s lines).mVertices = [] ∧
      (readLines width height s lines).mConflicts = [] := by
  induction lines generalizing s with
  | nil =>
    obtain ⟨line, hmem, -⟩ := h
    exact absurd hmem List.not_mem_nil
  | cons line lines ih =>
    rw [readLines]
    cases hline : readLine width height line with
    | none => exact ⟨rfl, rfl⟩
    | some v =>
      obtain ⟨line', hmem, hnone⟩ := h
      rcases List.mem_cons.mp hmem with rfl | hmem
      · rw [hline] at hnone
        cases hnone
      · exact ih ⟨line', hmem, hnone⟩ _

/-- If all of the file can be read, then each of its vertices is pushed safely. -/
def ImportSafe (s : Polygon) (verticesPath : List Char) (file : Option (List Char))
    (width height : ℤ) : Prop :=
  verticesPath ≠ [] → ∀ text, file = some text →
    (∀ line ∈ getlines text, readLine width height line ≠ none) →
      PushesSafe { s with mVertices := [], mConflicts := [] }
        ((getlines text).filterMap (readLine width height))

theorem exact_of_nil (hvs : s.mVertices = []) (hcs : s.mConflicts = []) : s.Exact := by
  rw [Exact, hvs, hcs]
  rfl

theorem Exact.importVertices (h : s.Exact) (verticesPath : List Char) (file : Option (List Char))
    (width height : ℤ) :
    (s.ImportSafe verticesPath file width height →
      (s.importVertices verticesPath file width height).Exact) ∧
    (¬s.ImportSafe verticesPath file width height →
      (s.importVertices verticesPath file width height).Short) := by
  rw [Polygon.importVertices, ImportSafe]
  by_cases hpath : verticesPath = []
  · rw [if_pos hpath]
    exact ⟨fun _ => h, fun hsafe => absurd (fun hne => absurd hpath hne) hsafe⟩
  rw [if_neg hpath]
  cases file with
  | none =>
    refine ⟨fun _ => exact_of_nil rfl rfl, fun hsafe => absurd ?_ hsafe⟩
    exact fun _ _ hsome => nomatch hsome
  | some text =>
    by_cases hread : ∀ line ∈ getlines text, readLine width height line ≠ none
    · have hempty : Exact { s with mVertices := [], mConflicts := [] } := exact_of_nil rfl rfl
      obtain ⟨hexact, hshort⟩ := hempty.pushAll ((getlines text).filterMap (readLine width height))
      dsimp only
      rw [readLines_eq_pushAll hread]
      refine ⟨fun hsafe => hexact (hsafe hpath text rfl hread), fun hsafe => hshort fun hall => ?_⟩
      refine hsafe fun _ text' htext _ => ?_
      obtain rfl := Option.some.inj htext
      exact hall
    · refine ⟨fun _ => ?_, fun hsafe => absurd (fun _ text' htext hread' => ?_) hsafe⟩
      · push Not at hread
        obtain ⟨hvs, hcs⟩ := readLines_of_none hread { s with mVertices := [], mConflicts := [] }
        exact exact_of_nil hvs hcs
      · obtain rfl := Option.some.inj htext
        exact absurd hread' hread

/-! ### Runs -/

/-- The operation pops only conflicts of edges that it takes away. -/
def Safe (s : Polygon) : Action → Prop
  | .push _ _ => s.PushSafe
  | .pop => s.PopSafe
  | .clear => True
  | .selectScale => True
  | .importVertices verticesPath file width height => s.ImportSafe verticesPath file width height

theorem Exact.step (h : s.Exact) (a : Action) :
    (s.Safe a → (s.step a).Exact) ∧ (¬s.Safe a → (s.step a).Short) := by
  cases a with
  | push x y => exact ⟨h.push, h.short_push⟩
  | pop => exact h.pop
  | clear => exact ⟨fun _ => exact_of_nil rfl rfl, fun hsafe => absurd trivial hsafe⟩
  | selectScale => exact ⟨fun _ => h, fun hsafe => absurd trivial hsafe⟩
  | importVertices verticesPath file width height =>
    exact h.importVertices verticesPath file width height

theorem run_concat (as : List Action) (a : Action) : run (as ++ [a]) = (run as).step a :=
  List.foldl_concat ..

theorem exact_run {actions : List Action}
    (h : ∀ as a, as ++ [a] <+: actions → (run as).Exact → (run as).Safe a) :
    ∀ as, as <+: actions → (run as).Exact := by
  intro as
  induction as using List.reverseRecOn with
  | nil => exact fun _ => rfl
  | append_singleton as a ih =>
    intro hstart
    have has := ih ((List.prefix_append as [a]).trans hstart)
    rw [run_concat]
    exact (has.step a).1 (h as a hstart has)

/-- The list of conflicts is right in every state of a run exactly when each operation pops only
conflicts of edges that it takes away. -/
theorem consistent_run_iff (actions : List Action) :
    (∀ as, as <+: actions → (run as).Consistent) ↔
      ∀ as a, as ++ [a] <+: actions → (run as).Safe a := by
  constructor
  · intro hall as a hstart
    have hsafe : ∀ as a, as ++ [a] <+: actions → (run as).Exact → (run as).Safe a := by
      intro as a hstart hexact
      by_contra hsafe
      have hcons := hall _ hstart
      rw [run_concat] at hcons
      exact ((hexact.step a).2 hsafe).not_consistent hcons
    exact hsafe as a hstart (exact_run hsafe as ((List.prefix_append as [a]).trans hstart))
  · exact fun hsafe as hstart =>
      (exact_run (fun as a hstart _ => hsafe as a hstart) as hstart).consistent

/-- A path that comes back to its first vertex and later to the vertex before that. -/
def returning : List Action :=
  [.push 6 5, .push 5 5, .push 5 10, .push 4 10, .push 4 5, .push 2 5, .push 6 5, .push 7 5,
    .push 7 0, .push 0 0, .push 0 5, .push 2 5, .push 3 4]

theorem not_consistent_returning : ¬∀ actions, (run actions).Consistent := by
  intro hall
  have hlength := ((hall returning).perm (by decide +kernel)).length_eq
  revert hlength
  decide +kernel

end Course.MapAreaCalculator.Polygon
