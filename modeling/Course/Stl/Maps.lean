import Course.Lib.Machine
import Course.Lib.Objects
import Course.Stl.MapActions
import Mathlib.Data.List.Induction

/-! Programs with several STLite maps, and the finite maps they stand for. -/

open Course.Lib Heap RedBlack

namespace Course.Stl.Map

/-- The operations of a program. A new map gets the colour that the memory of its head
held before; a map is destroyed once at most. -/
inductive Op (K V : Type)
  | create (color : Color)
  | copy (color : Color) (i : ℕ)
  | assign (i j : ℕ)
  | destroy (i : ℕ)
  | act (i : ℕ) (a : Action K V)

/-- The memory, the maps, of which some are destroyed, and the answers so far. -/
structure World (K V : Type) where
  heap : Heap (Node K V)
  maps : List (Option Map)
  answers : List (Answer K V)

variable {K V : Type}

namespace World

def start : World K V := ⟨⟨fun _ => none, 0⟩, [], []⟩

def map (w : World K V) (i : ℕ) : Option Map := w.maps[i]?.join

def add (w : World K V) (h : Heap (Node K V)) (m : Map) : World K V :=
  ⟨h, w.maps ++ [some m], w.answers ++ [.done]⟩

def finish (w : World K V) (h : Heap (Node K V)) (i : ℕ) (m : Option Map) (r : Answer K V) :
    World K V :=
  ⟨h, w.maps.set i m, w.answers ++ [r]⟩

end World

variable [Inhabited V] (cmp : K → K → Bool)

def step (w : World K V) : Op K V → Option (World K V)
  | .create color => do
    let (m, h) ← create color w.heap
    some (w.add h m)
  | .copy color i => do
    let other ← w.map i
    let (m, h) ← createCopy color other w.heap
    some (w.add h m)
  | .assign i j => do
    let m ← w.map i
    let other ← w.map j
    let (m, h) ← assignFrom m other w.heap
    some (w.finish h i m .done)
  | .destroy i => do
    let m ← w.map i
    let ((), h) ← destroy m w.heap
    some (w.finish h i none .done)
  | .act i a => do
    let m ← w.map i
    let ((m, r), h) ← act cmp m a w.heap
    some (w.finish h i m r)

def machine : Machine (World K V) (Op K V) where
  step := step cmp

/-! ### Finite maps -/

/-- The finite maps of a program, and the answers so far. -/
structure Dicts (K V : Type) where
  maps : List (Option (List (K × V)))
  answers : List (Answer K V)

namespace Dicts

def start : Dicts K V := ⟨[], []⟩

def map (d : Dicts K V) (i : ℕ) : Option (List (K × V)) := d.maps[i]?.join

def add (d : Dicts K V) (l : List (K × V)) : Dicts K V :=
  ⟨d.maps ++ [some l], d.answers ++ [.done]⟩

def finish (d : Dicts K V) (i : ℕ) (l : Option (List (K × V))) (r : Answer K V) : Dicts K V :=
  ⟨d.maps.set i l, d.answers ++ [r]⟩

def step (d : Dicts K V) : Op K V → Option (Dicts K V)
  | .create _ => some (d.add [])
  | .copy _ i => do
    let l ← d.map i
    some (d.add l)
  | .assign i j => do
    let _ ← d.map i
    let l ← d.map j
    some (d.finish i l .done)
  | .destroy i => do
    let _ ← d.map i
    some (d.finish i none .done)
  | .act i a => do
    let l ← d.map i
    let (l, r) := a.on cmp l
    some (d.finish i l r)

def machine : Machine (Dicts K V) (Op K V) where
  step := step cmp

end Dicts

/-! ### Maps and their nodes -/

variable {cmp} {w : World K V} {d : Dicts K V} {i j : ℕ}

/-- The head of a map, and its nodes in the order of their keys. -/
structure Row (K V : Type) where
  head : ℕ
  items : List (Item K V)

/-- The maps as objects, and the trees under their heads. -/
def kind (cmp : K → K → Bool) : Kind Map (Base × CTree (Item K V)) (Row K V) (Node K V) where
  Rep m g := m = g.1.over g.2 ∧ WellShaped cmp g.2
  cells _ g := g.1.shape [] g.2
  value g := ⟨g.1.head, g.2.inorder⟩

abbrev Rows (K V : Type) := List (Option (Row K V))

/-- No two maps have a node in common. -/
def Shows (cmp : K → K → Bool) (w : World K V) (ls : Rows K V) : Prop :=
  (kind cmp).Shows w.heap w.maps ls

/-- What an operation makes of the nodes, and what it answers. -/
inductive Alters (cmp : K → K → Bool) : Rows K V → Op K V → Rows K V → Answer K V → Prop
  | create {ls : Rows K V} {color : Color} (p : ℕ) :
    Alters cmp ls (.create color) (ls ++ [some ⟨p, []⟩]) .done
  | copy {ls : Rows K V} {color : Color} {i p : ℕ} {l : List (Item K V)} (p' : ℕ)
    {l' : List (Item K V)} : ls[i]? = some (some ⟨p, l⟩) → l'.map Prod.snd = l.map Prod.snd →
    Alters cmp ls (.copy color i) (ls ++ [some ⟨p', l'⟩]) .done
  | assign {ls : Rows K V} {i j p q : ℕ} {l m m' : List (Item K V)} : i ≠ j →
    ls[i]? = some (some ⟨p, l⟩) → ls[j]? = some (some ⟨q, m⟩) →
    m'.map Prod.snd = m.map Prod.snd →
    Alters cmp ls (.assign i j) (ls.set i (some ⟨p, m'⟩)) .done
  | assignSelf {ls : Rows K V} {i p : ℕ} {l : List (Item K V)} : ls[i]? = some (some ⟨p, l⟩) →
    Alters cmp ls (.assign i i) ls .done
  | destroy {ls : Rows K V} {i p : ℕ} {l : List (Item K V)} : ls[i]? = some (some ⟨p, l⟩) →
    Alters cmp ls (.destroy i) (ls.set i none) .done
  | act {ls : Rows K V} {i p : ℕ} {a : Action K V} {l l' : List (Item K V)} {r : Answer K V} :
    ls[i]? = some (some ⟨p, l⟩) → Makes cmp l a l' r →
    Alters cmp ls (.act i a) (ls.set i (some ⟨p, l'⟩)) r

/-- The maps that an operation names exist. -/
def Op.Fits (w : World K V) : Op K V → Prop
  | .create _ => True
  | .copy _ i | .destroy i | .act i _ => (w.map i).isSome
  | .assign i j => (w.map i).isSome ∧ (w.map j).isSome

/-- The operation makes of the nodes, and answers, what it should. -/
def Does (cmp : K → K → Bool) (w : World K V) (ls : Rows K V) (op : Op K V) : Prop :=
  ∃ w' ls' r, step cmp w op = some w' ∧ w'.answers = w.answers ++ [r] ∧
    Alters cmp ls op ls' r ∧ Shows cmp w' ls'

theorem step_eq_none {op : Op K V} (h : ¬op.Fits w) : step cmp w op = none := by
  cases op with
  | create color => exact absurd trivial h
  | copy color i =>
    rw [Op.Fits, Option.not_isSome_iff_eq_none] at h
    simp [step, h]
  | assign i j =>
    rw [Op.Fits, not_and_or, Option.not_isSome_iff_eq_none, Option.not_isSome_iff_eq_none] at h
    rcases h with h | h
    · simp [step, h]
    · simp [step, h]
  | destroy i =>
    rw [Op.Fits, Option.not_isSome_iff_eq_none] at h
    simp [step, h]
  | act i a =>
    rw [Op.Fits, Option.not_isSome_iff_eq_none] at h
    simp [step, h]

section Shapes

variable {t t' : CTree (Item K V)}

omit [Inhabited V]

theorem inorder_of_map (h : t'.map Prod.snd = t.map Prod.snd) :
    t'.inorder.map Prod.snd = t.inorder.map Prod.snd := by
  rw [← CTree.inorder_map, ← CTree.inorder_map, h]

theorem length_of_map (h : t'.map Prod.snd = t.map Prod.snd) :
    t'.inorder.length = t.inorder.length := by
  have hlength := congrArg List.length (inorder_of_map h)
  rwa [List.length_map, List.length_map] at hlength

theorem WellShaped.of_map (ht : WellShaped cmp t) (h : t'.map Prod.snd = t.map Prod.snd) :
    WellShaped cmp t' := by
  constructor
  · rw [← CTree.isRedBlack_map Prod.snd, h, CTree.isRedBlack_map]
    exact ht.balanced
  · apply ht.sorted.congr
    have hkeys := congrArg (List.map Prod.fst) (inorder_of_map h)
    rw [List.map_map, List.map_map] at hkeys
    exact hkeys.symm

end Shapes

section Steps

variable {ls : Rows K V} (hw : Shows cmp w ls)

include hw

theorem does_create (color : Color) : Does cmp w ls (.create color) := by
  obtain ⟨F, hs, hnew⟩ := hw.new
  have hwp : wp (create color) (fun m h' => ∃ p, m = ⟨p, 0⟩ ∧
      Holds h' [] ((Base.mk p color).shape [] .nil + F)) w.heap :=
    wp_create hs fun p h' hs' => ⟨p, rfl, hs'⟩
  obtain ⟨m, h', hrun, p, rfl, hs'⟩ := hwp
  refine ⟨w.add h' _, _, .done, by simp [step, hrun]; rfl, rfl, .create p, ?_⟩
  have hshaped : WellShaped cmp (.nil : CTree (Item K V)) := ⟨⟨rfl, 0, rfl⟩, .nil⟩
  have hrep : (kind cmp).Rep ⟨p, 0⟩ (⟨p, color⟩, .nil) := ⟨rfl, hshaped⟩
  exact hnew hrep hs'

theorem does_copy (color : Color) (hi : (w.map i).isSome) : Does cmp w ls (.copy color i) := by
  obtain ⟨m, hm⟩ := Option.isSome_iff_exists.mp hi
  obtain ⟨⟨base, t⟩, F, hf⟩ := hw.focus hm
  obtain ⟨rfl, ht⟩ := hf.rep
  have hwp : wp (createCopy color (base.over t)) (fun m h' => ∃ p t',
      t'.map Prod.snd = t.map Prod.snd ∧ m = ⟨p, t.inorder.length⟩ ∧
      Holds h' [] ((Base.mk p color).shape [] t' + (base.shape [] t + F))) w.heap :=
    wp_createCopy hf.holds fun p h' t' ht' hs' => ⟨p, t', ht', rfl, hs'⟩
  obtain ⟨_, h', hrun, p, t', ht', rfl, hs'⟩ := hwp
  refine ⟨w.add h' _, _, .done, by simp [step, hm, hrun]; rfl, rfl,
    .copy p hf.value (inorder_of_map ht'), ?_⟩
  have hrep : (kind cmp).Rep ⟨p, t.inorder.length⟩ (⟨p, color⟩, t') :=
    ⟨by rw [Base.over, length_of_map ht'], ht.of_map ht'⟩
  exact hf.concat hrep hs'

theorem does_assign (hi : (w.map i).isSome) (hj : (w.map j).isSome) :
    Does cmp w ls (.assign i j) := by
  obtain ⟨m, hm⟩ := Option.isSome_iff_exists.mp hi
  obtain ⟨other, hother⟩ := Option.isSome_iff_exists.mp hj
  by_cases hij : i = j
  · subst hij
    obtain rfl : m = other := Option.some.inj (hm.symm.trans hother)
    obtain ⟨g, F, hf⟩ := hw.focus hm
    have hrun : assignFrom m m w.heap = some (m, w.heap) := by
      rw [assignFrom, if_pos rfl]
      rfl
    exact ⟨w.finish w.heap i m .done, ls, .done, by simp [step, hm, hrun], rfl,
      .assignSelf hf.value, hf.keep rfl hf.rep hf.holds⟩
  · obtain ⟨⟨base, t⟩, ⟨base', t'⟩, F, hf⟩ := hw.focus₂ hij hm hother
    obtain ⟨rfl, ht⟩ := hf.rep
    obtain ⟨rfl, ht'⟩ := hf.rep'
    have hwp : wp (assignFrom (base.over t) (base'.over t')) (fun m h' => ∃ u,
        u.map Prod.snd = t'.map Prod.snd ∧ m = ⟨base.head, t'.inorder.length⟩ ∧
        Holds h' [] (base.shape [] u + (base'.shape [] t' + F))) w.heap :=
      wp_assignFrom hf.holds fun h' u hu hs' => ⟨u, hu, rfl, hs'⟩
    obtain ⟨_, h', hrun, u, hu, rfl, hs'⟩ := hwp
    refine ⟨w.finish h' i _ .done, _, .done, by simp [step, hm, hother, hrun]; rfl, rfl,
      .assign hij hf.value hf.value' (inorder_of_map hu), ?_⟩
    have hrep : (kind cmp).Rep ⟨base.head, t'.inorder.length⟩ (base, u) :=
      ⟨by rw [Base.over, length_of_map hu], ht'.of_map hu⟩
    exact hf.put hrep hs'

theorem does_destroy (hi : (w.map i).isSome) : Does cmp w ls (.destroy i) := by
  obtain ⟨m, hm⟩ := Option.isSome_iff_exists.mp hi
  obtain ⟨⟨base, t⟩, F, hf⟩ := hw.focus hm
  obtain ⟨rfl, ht⟩ := hf.rep
  have hwp : wp (destroy (base.over t)) (fun _ h' => Holds h' [] F) w.heap :=
    wp_destroy hf.holds fun h' hs' => hs'
  obtain ⟨_, h', hrun, hs'⟩ := hwp
  exact ⟨w.finish h' i none .done, _, .done, by simp [step, hm, hrun], rfl,
    .destroy hf.value, hf.erase hs'⟩

theorem does_act (hcmp : StrictWeak cmp) (hi : (w.map i).isSome) (a : Action K V) :
    Does cmp w ls (.act i a) := by
  obtain ⟨m, hm⟩ := Option.isSome_iff_exists.mp hi
  obtain ⟨⟨base, t⟩, F, hf⟩ := hw.focus hm
  obtain ⟨rfl, ht⟩ := hf.rep
  have hwp : wp (act cmp (base.over t) a) (fun s h' => ∃ t', s.1 = base.over t' ∧
      Holds h' [] (base.shape [] t' + F) ∧ WellShaped cmp t' ∧
      Makes cmp t.inorder a t'.inorder s.2) w.heap :=
    wp_act hcmp hf.holds ht fun h' t' r hs' ht' hmakes => ⟨t', rfl, hs', ht', hmakes⟩
  obtain ⟨⟨_, r⟩, h', hrun, t', rfl, hs', ht', hmakes⟩ := hwp
  have hrep : (kind cmp).Rep (base.over t') (base, t') := ⟨rfl, ht'⟩
  exact ⟨w.finish h' i (base.over t') r, _, r, by simp [step, hm, hrun], rfl,
    .act hf.value hmakes, hf.put hrep hs'⟩

end Steps

theorem step_spec (hcmp : StrictWeak cmp) {ls : Rows K V} (hw : Shows cmp w ls) {op : Op K V}
    (hfits : op.Fits w) : Does cmp w ls op := by
  cases op with
  | create color => exact does_create hw color
  | copy color i => exact does_copy hw color hfits
  | assign i j => exact does_assign hw hfits.1 hfits.2
  | destroy i => exact does_destroy hw hfits
  | act i a => exact does_act hw hcmp hfits a

/-! ### Agreement with finite maps -/

section Entries

variable {ls ls' : Rows K V} {p : ℕ} {l : List (Item K V)} {s : List (K × V)} {op : Op K V}
  {r : Answer K V}

def entries (ls : Rows K V) : List (Option (Multiset (K × V))) :=
  ls.map (Option.map fun l => Multiset.ofList (l.items.map Prod.snd))

def Dicts.entries (d : Dicts K V) : List (Option (Multiset (K × V))) :=
  d.maps.map (Option.map Multiset.ofList)

/-- The finite maps have the entries of the nodes. -/
def Matches (cmp : K → K → Bool) (w : World K V) (d : Dicts K V) : Prop :=
  ∃ ls, Shows cmp w ls ∧ entries ls = d.entries ∧ w.answers = d.answers

omit [Inhabited V]

theorem exists_dict (h : entries ls = d.entries) (hi : ls[i]? = some (some ⟨p, l⟩)) :
    ∃ s, d.map i = some s ∧ (l.map Prod.snd).Perm s := by
  have hentry := congrArg (·[i]?) h
  simp only [entries, Dicts.entries, List.getElem?_map, hi, Option.map_some] at hentry
  obtain ⟨s, hs, heq⟩ := Option.map_eq_some_iff.mp hentry.symm
  obtain ⟨s, rfl, hperm⟩ := Option.map_eq_some_iff.mp heq
  exact ⟨s, by rw [Dicts.map, hs]; rfl, (Multiset.coe_eq_coe.mp hperm).symm⟩

theorem entries_set (h : entries ls = d.entries) (i : ℕ) (hs : (l.map Prod.snd).Perm s)
    (r : Answer K V) : entries (ls.set i (some ⟨p, l⟩)) = (d.finish i (some s) r).entries := by
  rw [entries, Dicts.entries, Dicts.finish, List.map_set, List.map_set, ← entries,
    ← Dicts.entries, h, Option.map_some, Option.map_some, Multiset.coe_eq_coe.mpr hs]

theorem entries_concat (h : entries ls = d.entries) (hs : (l.map Prod.snd).Perm s) :
    entries (ls ++ [some ⟨p, l⟩]) = (d.add s).entries := by
  rw [entries, Dicts.entries, Dicts.add, List.map_append, List.map_append, ← entries,
    ← Dicts.entries, h, List.map_singleton, List.map_singleton, Option.map_some, Option.map_some,
    Multiset.coe_eq_coe.mpr hs]

theorem Shows.sorted (hw : Shows cmp w ls) (hi : ls[i]? = some (some ⟨p, l⟩)) : Sorted cmp l := by
  obtain ⟨es, hes, -⟩ := hw
  rw [hes.values, List.getElem?_map] at hi
  obtain ⟨e, he, heq⟩ := Option.map_eq_some_iff.mp hi
  obtain ⟨⟨m, base, t⟩, rfl, hrow⟩ := Option.map_eq_some_iff.mp heq
  obtain ⟨rfl, rfl⟩ := Row.mk.inj hrow
  exact (hes.rep m (base, t) (List.mem_of_getElem? he)).2.sorted

/-- The finite maps follow the nodes. -/
theorem Alters.on [Inhabited V] (hcmp : StrictWeak cmp) (h : Alters cmp ls op ls' r)
    (hsorted : ∀ (i p : ℕ) (l : List (Item K V)), ls[i]? = some (some ⟨p, l⟩) → Sorted cmp l)
    (hd : entries ls = d.entries) :
    ∃ d', d.step cmp op = some d' ∧ d'.answers = d.answers ++ [r] ∧ entries ls' = d'.entries := by
  cases h with
  | create => exact ⟨d.add [], rfl, rfl, entries_concat hd .nil⟩
  | copy _ hl hcopy =>
    obtain ⟨s, hs, hperm⟩ := exists_dict hd hl
    exact ⟨d.add s, by simp [Dicts.step, hs], rfl, entries_concat hd (hcopy ▸ hperm)⟩
  | @assign i j p q l m m' hij hl hm hcopy =>
    obtain ⟨s, hs, -⟩ := exists_dict hd hl
    obtain ⟨u, hu, hperm⟩ := exists_dict hd hm
    exact ⟨d.finish i u .done, by simp [Dicts.step, hs, hu], rfl,
      entries_set hd i (hcopy ▸ hperm) .done⟩
  | @assignSelf i p l hl =>
    obtain ⟨s, hs, hperm⟩ := exists_dict hd hl
    obtain ⟨hlt, heq⟩ := List.getElem?_eq_some_iff.mp hl
    refine ⟨d.finish i s .done, by simp [Dicts.step, hs], rfl, ?_⟩
    rw [← entries_set hd i hperm, ← heq, List.set_getElem_self]
  | @destroy i p l hl =>
    obtain ⟨s, hs, -⟩ := exists_dict hd hl
    refine ⟨d.finish i none .done, by simp [Dicts.step, hs], rfl, ?_⟩
    rw [entries, Dicts.entries, Dicts.finish, List.map_set, List.map_set, ← entries,
      ← Dicts.entries, hd, Option.map_none, Option.map_none]
  | @act i p a l l' r hl hmakes =>
    obtain ⟨s, hs, hperm⟩ := exists_dict hd hl
    obtain ⟨hanswer, hperm'⟩ := hmakes.on hcmp (hsorted i p l hl) hperm
    refine ⟨d.finish i (a.on cmp s).1 r, ?_, rfl, entries_set hd i hperm' r⟩
    simp [Dicts.step, hs, ← hanswer]

theorem dict_eq_none (hw : Shows cmp w ls) (hd : entries ls = d.entries) (hi : w.map i = none) :
    d.map i = none := by
  obtain ⟨es, hes, -⟩ := hw
  have hrow := hes.absent hi
  have hentry := congrArg (·[i]?) hd
  simp only [entries, Dicts.entries, List.getElem?_map, hrow, Option.map_map] at hentry
  cases hs : d.maps[i]? with
  | none => simp [Dicts.map, hs]
  | some s =>
    cases s with
    | none => simp [Dicts.map, hs]
    | some s =>
      rw [hs] at hentry
      cases hm : w.maps[i]? <;> simp [hm] at hentry

theorem dict_step_eq_none [Inhabited V] (hw : Shows cmp w ls) (hd : entries ls = d.entries)
    (h : ¬op.Fits w) : d.step cmp op = none := by
  cases op with
  | create color => exact absurd trivial h
  | copy color i =>
    rw [Op.Fits, Option.not_isSome_iff_eq_none] at h
    simp [Dicts.step, dict_eq_none hw hd h]
  | assign i j =>
    rw [Op.Fits, not_and_or, Option.not_isSome_iff_eq_none, Option.not_isSome_iff_eq_none] at h
    rcases h with h | h
    · simp [Dicts.step, dict_eq_none hw hd h]
    · simp [Dicts.step, dict_eq_none hw hd h]
  | destroy i =>
    rw [Op.Fits, Option.not_isSome_iff_eq_none] at h
    simp [Dicts.step, dict_eq_none hw hd h]
  | act i a =>
    rw [Op.Fits, Option.not_isSome_iff_eq_none] at h
    simp [Dicts.step, dict_eq_none hw hd h]

end Entries

/-- One operation on both sides, where they match. -/
theorem step_matches (hcmp : StrictWeak cmp) (hm : Matches cmp w d) (op : Op K V) :
    Option.Rel (Matches cmp) (step cmp w op) (d.step cmp op) := by
  obtain ⟨ls, hw, hd, hanswers⟩ := hm
  by_cases hfits : op.Fits w
  · obtain ⟨w', ls', r, hstep, hanswer, halters, hw'⟩ := step_spec hcmp hw hfits
    obtain ⟨d', hstep', hanswer', hd'⟩ := halters.on hcmp (fun i p l => hw.sorted) hd
    rw [hstep, hstep']
    exact .some ⟨ls', hw', hd', by rw [hanswer, hanswer', hanswers]⟩
  · rw [step_eq_none hfits, dict_step_eq_none hw hd hfits]
    exact .none

theorem exec_matches (hcmp : StrictWeak cmp) (ops : List (Op K V)) :
    Option.Rel (Matches cmp) ((machine cmp).exec World.start ops)
      ((Dicts.machine cmp).exec Dicts.start ops) := by
  induction ops using List.reverseRecOn with
  | nil => exact .some ⟨[], Kind.Shows.empty, rfl, rfl⟩
  | append_singleton ops op ih =>
    rw [Machine.exec_concat, Machine.exec_concat]
    generalize (machine cmp).exec World.start ops = w at ih
    generalize (Dicts.machine cmp).exec Dicts.start ops = d at ih
    cases ih with
    | none => exact .none
    | some hm => exact step_matches hcmp hm op

/-! ### Trees in memory -/

/-- Every node of a tree is in memory, its parent pointer to the node whose child it is. -/
def Linked (h : Heap (Node K V)) (up : ℕ) : CTree (Item K V) → Prop
  | .nil => True
  | .node c l x r => h.cells x.1 = some ⟨some x.2, c, some up, ptr l, ptr r⟩ ∧
    Linked h x.1 l ∧ Linked h x.1 r

/-- A red-black tree under the `left` pointer of the head, its keys in order. -/
structure WellFormed (cmp : K → K → Bool) (h : Heap (Node K V)) (m : Map)
    (t : CTree (Item K V)) : Prop where
  head : ∃ n, h.cells m.head = some n ∧ n.left = ptr t
  linked : Linked h m.head t
  nodup : (m.head :: t.inorder.map Prod.fst).Nodup
  sorted : (t.inorder.map fun x => x.2.1).Pairwise fun key key' => cmp key key' = true
  black : t.color = .black
  noRedRed : t.NoRedRed
  blacks : ∃ n, ∀ k ∈ t.blacks, k = n
  size : m.numOfElements = t.inorder.length

/-- The answers are those of the finite maps, and the trees have their entries. -/
structure Agrees (cmp : K → K → Bool) (w : World K V) (d : Dicts K V) : Prop where
  answers : w.answers = d.answers
  destroyed : ∀ i, w.map i = none ↔ d.map i = none
  maps : ∀ (i : ℕ) (m : Map) (s : List (K × V)), w.map i = some m → d.map i = some s →
    ∃ t, WellFormed cmp w.heap m t ∧ (t.inorder.map Prod.snd).Perm s

section Trees

variable {h : Heap (Node K V)} {F : Multiset (ℕ × Node K V)} {base : Base}
  {t : CTree (Item K V)} {up : ℕ}

omit [Inhabited V]

theorem linked_of_cells (hc : ∀ c ∈ cells (some up) t, h.cells c.1 = some c.2) :
    Linked h up t := by
  induction t generalizing up with
  | nil => trivial
  | node c l x r ihl ihr =>
    refine ⟨hc (x.1, ⟨some x.2, c, some up, ptr l, ptr r⟩) ?_, ihl fun c hc' => hc c ?_,
      ihr fun c hc' => hc c ?_⟩
    · exact Multiset.mem_add.mpr (.inl (Multiset.mem_singleton_self _))
    · exact Multiset.mem_add.mpr (.inr (Multiset.mem_add.mpr (.inl hc')))
    · exact Multiset.mem_add.mpr (.inr (Multiset.mem_add.mpr (.inr hc')))

theorem cells_addrs (up : Ptr) (t : CTree (Item K V)) :
    (cells up t).map Prod.fst = Multiset.ofList (t.inorder.map Prod.fst) := by
  induction t generalizing up with
  | nil => rfl
  | node c l x r ihl ihr =>
    rw [cells, Multiset.map_add, Multiset.map_add, ihl, ihr, CTree.inorder, List.map_append,
      List.map_cons, ← Multiset.coe_add, ← Multiset.cons_coe, ← Multiset.singleton_add]
    rw [Multiset.map_singleton]
    abel

theorem shape_nodup (hs : Holds h [] (base.shape [] t + F)) :
    (base.head :: t.inorder.map Prod.fst).Nodup := by
  have hnodup := hs.nodup
  rw [Multiset.coe_nil, zero_add, Multiset.map_add] at hnodup
  have hshape := Multiset.nodup_of_le (Multiset.le_add_right _ _) hnodup
  rw [Base.shape, Base.hole, Base.rest, add_zero, Multiset.map_add, cells_addrs,
    Multiset.map_singleton, Base.fst_top, Multiset.singleton_add, Multiset.cons_coe] at hshape
  exact Multiset.coe_nodup.mp hshape

theorem wellFormed (ht : WellShaped cmp t) (hs : Holds h [] (base.shape [] t + F)) :
    WellFormed cmp h (base.over t) t := by
  have hcells : ∀ c ∈ base.shape [] t, h.cells c.1 = some c.2 := fun c hc =>
    hs.cells_of_mem (Multiset.mem_add.mpr (.inl hc))
  obtain ⟨hblack, n, hbalanced⟩ := ht.balanced
  obtain ⟨hred, hblacks⟩ := (CTree.balanced_iff t n).mp hbalanced
  exact ⟨⟨_, hcells (base.top [] (ptr t)) (by simp [Base.shape, Base.hole]), rfl⟩,
    linked_of_cells fun c hc => hcells c (Multiset.mem_add.mpr (.inr hc)), shape_nodup hs,
    List.pairwise_map.mpr ht.sorted, hblack, hred, ⟨n, hblacks⟩, rfl⟩

end Trees

omit [Inhabited V] in
theorem Matches.agrees (hm : Matches cmp w d) : Agrees cmp w d := by
  obtain ⟨ls, hw, hd, hanswers⟩ := hm
  refine ⟨hanswers, fun i => ⟨dict_eq_none hw hd, fun hi => ?_⟩, fun i m s hm hs => ?_⟩
  · by_contra hne
    obtain ⟨m, hm⟩ := Option.ne_none_iff_exists'.mp hne
    obtain ⟨g, F, hf⟩ := hw.focus hm
    obtain ⟨s, hs, -⟩ := exists_dict hd hf.value
    rw [hi] at hs
    cases hs
  · obtain ⟨⟨base, t⟩, F, hf⟩ := hw.focus hm
    obtain ⟨rfl, ht⟩ := hf.rep
    obtain ⟨s', hs', hperm⟩ := exists_dict hd hf.value
    obtain rfl : s = s' := Option.some.inj (hs.symm.trans hs')
    exact ⟨t, wellFormed ht hf.holds, hperm⟩

/-- Maps answer as finite maps do under the same operations, and their trees stay well
formed; there is no other way to fail than to name a map that does not exist. -/
theorem maps_agree (hcmp : StrictWeak cmp) (ops : List (Op K V)) :
    Option.Rel (Agrees cmp) ((machine cmp).exec World.start ops)
      ((Dicts.machine cmp).exec Dicts.start ops) := by
  have hmatches := exec_matches hcmp ops
  generalize (machine cmp).exec World.start ops = w at hmatches
  generalize (Dicts.machine cmp).exec Dicts.start ops = d at hmatches
  cases hmatches with
  | none => exact .none
  | some hm => exact .some hm.agrees

/-- A copy keeps a node that is erased in the first map. -/
def eraseCopied : List (Op ℕ ℕ) :=
  [.create .red, .act 0 (.insert (2, 20)), .act 0 (.insert (1, 10)), .act 0 (.write 3 30),
    .copy .black 0, .act 0 (.erase 2), .act 0 (.count 2), .act 1 (.at' 2), .act 0 .size]

def eraseCopiedDicts : Dicts ℕ ℕ :=
  ⟨[some [(3, 30), (1, 10)], some [(3, 30), (1, 10), (2, 20)]],
    [.done, .inserted (2, 20) true, .inserted (1, 10) true, .done, .done, .done, .size 0,
      .value 20, .size 2]⟩

theorem exec_eraseCopied : (Dicts.machine fun x y : ℕ => decide (x < y)).exec Dicts.start
    eraseCopied = some eraseCopiedDicts := rfl

theorem maps_agree_eraseCopied : ∃ w, (machine fun x y => decide (x < y)).exec World.start
    eraseCopied = some w ∧ Agrees (fun x y => decide (x < y)) w eraseCopiedDicts := by
  have hagree := maps_agree (K := ℕ) .of_linearOrder eraseCopied
  rw [exec_eraseCopied] at hagree
  generalize (machine fun x y : ℕ => decide (x < y)).exec World.start eraseCopied = w at *
  cases hagree with
  | some hagrees => exact ⟨_, rfl, hagrees⟩

end Course.Stl.Map
