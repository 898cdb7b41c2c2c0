import Mathlib.Data.List.Nodup
import Course.Os.Scheduler

/-! The list of tasks behind `head`, and what the loops of `list.c` and of the
schedulers do to it. -/

namespace Course.Os.Scheduler

variable {nodes nodes' : ℕ → Option Node} {s : State} {l a b : List Task} {t x : Task}
  {p q : Option ℕ}

/-- The pointer to a list of tasks that ends at `q`. -/
def ptr : List Task → Option ℕ → Option ℕ
  | [], q => q
  | t :: _, _ => some t.tid

@[simp]
theorem ptr_nil (q : Option ℕ) : ptr [] q = q := rfl

@[simp]
theorem ptr_cons (t : Task) (l : List Task) (q : Option ℕ) : ptr (t :: l) q = some t.tid := rfl

/-- The nodes of `l`, each linked to the next and the last one to `q`. -/
def Seg (nodes : ℕ → Option Node) : List Task → Option ℕ → Prop
  | [], _ => True
  | t :: l, q => nodes t.tid = some ⟨t, ptr l q⟩ ∧ Seg nodes l q

theorem ptr_append (a b : List Task) (q : Option ℕ) : ptr (a ++ b) q = ptr a (ptr b q) := by
  cases a <;> rfl

theorem seg_append : Seg nodes (a ++ b) q ↔ Seg nodes a (ptr b q) ∧ Seg nodes b q := by
  induction a with
  | nil => simp [Seg]
  | cons t a ih => simp [Seg, ih, ptr_append, and_assoc]

theorem Seg.congr (h : Seg nodes l q) (heq : ∀ t ∈ l, nodes' t.tid = nodes t.tid) :
    Seg nodes' l q := by
  induction l with
  | nil => trivial
  | cons t l ih =>
    refine ⟨(heq t (List.mem_cons_self ..)).trans h.1, ih h.2 fun x hx => heq x ?_⟩
    exact List.mem_cons_of_mem t hx

/-- The tasks behind `head`, in order. -/
structure Listed (s : State) (l : List Task) : Prop where
  head : s.head = ptr l none
  seg : Seg s.nodes l none
  nodup : (l.map Task.tid).Nodup

namespace Listed

theorem node (h : Listed s (a ++ t :: b)) : s.nodes t.tid = some ⟨t, ptr b none⟩ :=
  (seg_append.mp h.seg).2.1

theorem congr {s' : State} (h : Listed s l) (hhead : s'.head = s.head)
    (hnodes : s'.nodes = s.nodes) : Listed s' l :=
  ⟨hhead.trans h.head, hnodes ▸ h.seg, h.nodup⟩

theorem run (h : Listed s l) (task : Task) (slice : ℤ) : Listed (s.run task slice) l :=
  h.congr rfl rfl

/-- Changing one node, and cutting out those up to the end of its new link. -/
theorem setNode {c : List Task} {f : Node → Node} (h : Listed s (a ++ t :: (c ++ b)))
    (htid : x.tid = t.tid) (hf : f ⟨t, ptr (c ++ b) none⟩ = ⟨x, ptr b none⟩) :
    ∃ s', s.setNode (some t.tid) f = some s' ∧ Listed s' (a ++ x :: b) ∧ s'.cpu = s.cpu := by
  refine ⟨{ s with nodes := Function.update s.nodes t.tid (some ⟨x, ptr b none⟩) }, ?_, ?_, rfl⟩
  · simp [State.setNode, h.node, hf]
  have hnodup := h.nodup
  simp only [List.map_append, List.map_cons, List.nodup_append, List.nodup_cons, List.mem_cons,
    List.mem_append, List.mem_map] at hnodup
  obtain ⟨ha, ⟨ht, hcb⟩, hdisj⟩ := hnodup
  obtain ⟨hsa, -, hscb⟩ := seg_append.mp h.seg
  refine ⟨?_, seg_append.mpr ⟨?_, ?_, ?_⟩, ?_⟩
  · rw [h.head, ptr_append, ptr_append]
    simp only [ptr, htid]
  · simp only [ptr, htid]
    refine hsa.congr fun y hy => Function.update_of_ne ?_ _ _
    exact hdisj y.tid ⟨y, hy, rfl⟩ t.tid (.inl rfl)
  · rw [htid]
    exact Function.update_self ..
  · refine (seg_append.mp hscb).2.congr fun y hy => Function.update_of_ne ?_ _ _
    exact fun heq => ht (.inr ⟨y, hy, heq⟩)
  · have hsub : List.Sublist ((a ++ x :: b).map Task.tid) ((a ++ t :: (c ++ b)).map Task.tid) := by
      simp only [List.map_append, List.map_cons, htid]
      refine List.Sublist.append_left (List.Sublist.cons_cons _ ?_) _
      exact List.sublist_append_right _ _
    exact h.nodup.sublist hsub

end Listed

/-- Whether `delete` stops at a task. -/
def named (task t : Task) : Bool := decide (task.name = t.name)

theorem named_self (t : Task) : named t t = true := decide_eq_true rfl

/-- The loop of `delete` takes out the first task of that name behind `prev`. -/
theorem deleteAfter_spec (h : Listed s (a ++ x :: b)) (task : Task)
    (hmem : ∃ y ∈ b, named task y = true) :
    ∃ s', deleteAfter s task (some x.tid) (ptr b none) = some s' ∧
      Listed s' (a ++ x :: b.eraseP (named task)) ∧ s'.cpu = s.cpu := by
  induction b generalizing a x with
  | nil => simp at hmem
  | cons y b ih =>
    have hy : s.node (some y.tid) = some ⟨y, ptr b none⟩ := by
      rw [List.append_cons] at h
      exact h.node
    rw [deleteAfter, ptr, hy]
    by_cases hname : task.name = y.name
    · obtain ⟨s', hset, hs', hcpu⟩ :=
        Listed.setNode (c := [y]) (x := x) (f := fun n => { n with next := ptr b none }) h rfl rfl
      refine ⟨s', by simpa [hname] using hset, ?_, hcpu⟩
      rwa [List.eraseP_cons_of_pos (by simpa [named] using hname)]
    · have hrest : ∃ z ∈ b, named task z = true := by
        obtain ⟨z, hz, hzn⟩ := hmem
        rcases List.mem_cons.mp hz with rfl | hz
        · exact absurd (of_decide_eq_true hzn) hname
        · exact ⟨z, hz, hzn⟩
      rw [List.append_cons] at h
      obtain ⟨s', hdel, hs', hcpu⟩ := ih h hrest
      refine ⟨s', by simpa [hname] using hdel, ?_, hcpu⟩
      rw [List.eraseP_cons_of_neg (by simpa [named] using hname), List.append_cons]
      exact hs'

/-- `delete` takes out the first task of that name. -/
theorem delete_spec (h : Listed s l) (task : Task) (hmem : ∃ y ∈ l, named task y = true) :
    ∃ s', delete s task = some s' ∧ Listed s' (l.eraseP (named task)) ∧ s'.cpu = s.cpu := by
  cases l with
  | nil => simp at hmem
  | cons x b =>
    have hx : s.node s.head = some ⟨x, ptr b none⟩ := by
      rw [h.head]
      exact Listed.node (a := []) h
    rw [delete, hx]
    by_cases hname : task.name = x.name
    · refine ⟨{ s with head := ptr b none }, by simp [hname], ?_, rfl⟩
      rw [List.eraseP_cons_of_pos (by simpa [named] using hname)]
      exact ⟨rfl, h.seg.2, (List.nodup_cons.mp h.nodup).2⟩
    · have hrest : ∃ z ∈ b, named task z = true := by
        obtain ⟨z, hz, hzn⟩ := hmem
        rcases List.mem_cons.mp hz with rfl | hz
        · exact absurd (of_decide_eq_true hzn) hname
        · exact ⟨z, hz, hzn⟩
      obtain ⟨s', hdel, hs', hcpu⟩ := deleteAfter_spec (a := []) h task hrest
      refine ⟨s', by simpa [hname, h.head, ptr] using hdel, ?_, hcpu⟩
      rwa [List.eraseP_cons_of_neg (by simpa [named] using hname)]

/-- A task that runs to its end and is deleted: the first of its name leaves the
list, and the rest behind the cursor stays. -/
theorem finish_spec (h : Listed s (a ++ t :: b)) :
    ∃ s', delete (s.run t t.burst) t = some s' ∧
      Listed s' ((a ++ [t]).eraseP (named t) ++ b) ∧ s'.cpu = s.cpu.run t t.burst := by
  obtain ⟨s', hdel, hs', hcpu⟩ := delete_spec (h.run t t.burst) t ⟨t, by simp, named_self t⟩
  refine ⟨s', hdel, ?_, hcpu⟩
  rwa [List.append_cons, List.eraseP_append_left (a := t) (named_self t) _ (by simp)] at hs'

/-- What a turn of the round robin policies leaves before the cursor. -/
def served (a : List Task) (t : Task) : List Task :=
  if t.burst ≤ TIME_QUANTUM then (a ++ [t]).eraseP (named t)
  else a ++ [{ t with burst := t.burst - TIME_QUANTUM }]

/-- The time a turn of the round robin policies gives to a task. -/
def share (t : Task) : ℤ := if t.burst ≤ TIME_QUANTUM then t.burst else TIME_QUANTUM

theorem serve_spec (h : Listed s (a ++ t :: b)) :
    ∃ s', serve s (some t.tid) = some (s', ptr b none) ∧ Listed s' (served a t ++ b) ∧
      s'.cpu = s.cpu.run t (share t) := by
  have ht : s.node (some t.tid) = some ⟨t, ptr b none⟩ := h.node
  rw [serve, ht, served, share]
  by_cases hle : t.burst ≤ TIME_QUANTUM
  · obtain ⟨s', hdel, hs', hcpu⟩ := finish_spec h
    simp only [if_pos hle]
    exact ⟨s', by simp [hle, hdel], hs', hcpu⟩
  · obtain ⟨s', hset, hs', hcpu⟩ :=
      Listed.setNode (c := []) (x := { t with burst := t.burst - TIME_QUANTUM })
        (f := fun n => { n with task := { n.task with burst := n.task.burst - TIME_QUANTUM } })
        (h.run t TIME_QUANTUM) rfl rfl
    simp only [if_neg hle]
    refine ⟨s', by simp [hle, hset], ?_, hcpu⟩
    rwa [List.append_assoc]

/-! ### Adding and reversing -/

theorem insert_spec (h : Listed s l) (ht : t.tid ∉ l.map Task.tid) :
    Listed (insert s t) (t :: l) := by
  refine ⟨rfl, ⟨?_, ?_⟩, List.nodup_cons.mpr ⟨ht, h.nodup⟩⟩
  · rw [← h.head]
    exact Function.update_self ..
  · refine h.seg.congr fun x hx => Function.update_of_ne (fun heq => ht ?_) _ _
    exact heq ▸ List.mem_map_of_mem hx

theorem reverse_spec (hhead : Seg s.nodes l none) (hprev : Seg s.nodes a none)
    (hnodup : ((l ++ a).map Task.tid).Nodup) :
    ∃ s', reverse s (ptr a none) (ptr l none) = some s' ∧ Listed s' (l.reverse ++ a) ∧
      s'.cpu = s.cpu := by
  induction l generalizing s a with
  | nil =>
    rw [reverse.eq_def]
    exact ⟨_, rfl, ⟨rfl, hprev, hnodup⟩, rfl⟩
  | cons t l ih =>
    obtain ⟨ht, hl⟩ := hhead
    have hset : s.setNode (some t.tid) (fun n => { n with next := ptr a none }) =
        some { s with nodes := Function.update s.nodes t.tid (some ⟨t, ptr a none⟩) } := by
      simp [State.setNode, ht]
    have hne : ∀ y ∈ l ++ a, y.tid ≠ t.tid := by
      rw [List.cons_append, List.map_cons, List.nodup_cons] at hnodup
      exact fun y hy heq => hnodup.1 (heq ▸ List.mem_map_of_mem hy)
    have hperm : ((l ++ t :: a).map Task.tid).Nodup :=
      (List.perm_middle.map Task.tid).nodup_iff.mpr hnodup
    obtain ⟨s', hs', hlisted, hcpu⟩ := ih
      (s := { s with nodes := Function.update s.nodes t.tid (some ⟨t, ptr a none⟩) })
      (a := t :: a)
      (hl.congr fun y hy => Function.update_of_ne (hne y (List.mem_append_left a hy)) _ _)
      ⟨Function.update_self .., hprev.congr fun y hy =>
        Function.update_of_ne (hne y (List.mem_append_right l hy)) _ _⟩ hperm
    refine ⟨s', ?_, ?_, hcpu⟩
    · rw [ptr, reverse.eq_def]
      simp only [ht, hset, Option.bind_eq_bind, Option.bind_some]
      exact hs'
    · rwa [List.reverse_cons, List.append_assoc]

end Course.Os.Scheduler
