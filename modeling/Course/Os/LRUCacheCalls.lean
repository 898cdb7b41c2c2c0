import Mathlib.Data.List.Induction
import Mathlib.Data.List.Pairwise
import Mathlib.Order.Basic
import Course.Lib.Machine
import Course.Os.LRUCache

/-! The LRU cache of Project 8 against its documentation: a list of data, least
recently used first. -/

open Course.Lib

namespace Course.Os.LRUCache

inductive Call (δ : Type)
  | query (key : δ)
  | insert (data : δ)
  | remove (key : δ)
  | clear

section Calls

variable {δ : Type} (data_equal : δ → δ → Bool)

def call (c : LRUCache δ) : Call δ → Option (LRUCache δ × Option δ)
  | .query key => c.query (data_equal · key)
  | .insert data => c.insert data_equal data
  | .remove key => c.remove (data_equal · key)
  | .clear => c.clear.map fun c => (c, none)

/-- The cache, with what the calls so far have returned. -/
def machine : Machine (LRUCache δ × List (Option δ)) (Call δ) where
  step s e := (s.1.call data_equal e).map fun r => (r.1, s.2 ++ [r.2])

/-- What a call does to the data and returns, as `LRU_cache.h` has it. -/
def documented (capacity : ℕ) (ds : List δ) : Call δ → List δ × Option δ
  | .query key => (touch (data_equal · key) ds, ds.find? (data_equal · key))
  | .insert data =>
    if ds.any (data_equal · data) then (ds.eraseP (data_equal · data) ++ [data], none)
    else if ds.length = capacity then (ds.tail ++ [data], ds.head?)
    else (ds ++ [data], none)
  | .remove key => (ds.eraseP (data_equal · key), ds.find? (data_equal · key))
  | .clear => ([], none)

def document (capacity : ℕ) (es : List (Call δ)) : List δ × List (Option δ) :=
  es.foldl (fun s e =>
    let r := documented data_equal capacity s.1 e
    (r.1, s.2 ++ [r.2])) ([], [])

/-- At most `capacity` data, no two of them equivalent. -/
structure Distinct (capacity : ℕ) (ds : List δ) : Prop where
  pairwise : ds.Pairwise fun x y => data_equal x y = false
  length_le : ds.length ≤ capacity

/-- After the calls the ring holds the data of the documentation, and they have
returned what it says. -/
structure Behaves (capacity : ℕ) (es : List (Call δ)) (c : LRUCache δ) : Prop where
  exec : (machine data_equal).exec (create capacity, []) es =
    some (c, (document data_equal capacity es).2)
  holds : c.Holds (document data_equal capacity es).1
  distinct : Distinct data_equal capacity (document data_equal capacity es).1
  capacity_eq : c.capacity = capacity

/-- Data that is inserted over equivalent data is that same data. -/
def Same (ds : List δ) : Call δ → Prop
  | .insert data => ∀ d ∈ ds, data_equal d data = true → d = data
  | _ => True

end Calls

variable {δ : Type} {data_equal : δ → δ → Bool} {c : LRUCache δ} {capacity : ℕ} {ds : List δ}
  {es : List (Call δ)} {e : Call δ} {d d' data : δ}

theorem document_concat (es : List (Call δ)) (e : Call δ) :
    document data_equal capacity (es ++ [e]) =
      ((documented data_equal capacity (document data_equal capacity es).1 e).1,
        (document data_equal capacity es).2 ++
          [(documented data_equal capacity (document data_equal capacity es).1 e).2]) := by
  simp [document]

theorem behaves_nil : Behaves data_equal capacity [] (create capacity : LRUCache δ) where
  exec := rfl
  holds := holds_create capacity
  distinct := ⟨.nil, Nat.zero_le _⟩
  capacity_eq := rfl

section Equivalences

variable (heq : Equivalence fun x y => data_equal x y = true)

include heq

theorem Distinct.symm : Std.Symm fun x y => data_equal x y = false := by
  refine ⟨fun x y h => ?_⟩
  apply Bool.eq_false_iff.mpr
  intro h'
  exact Bool.eq_false_iff.mp h (heq.symm h')

/-- Only one of the data is equivalent to a key. -/
theorem Distinct.eq (h : Distinct data_equal capacity ds) (hd : d ∈ ds) (hd' : d' ∈ ds)
    (hdk : data_equal d data = true) (hdk' : data_equal d' data = true) : d = d' := by
  by_contra hne
  have := Distinct.symm heq
  have hdistinct := h.pairwise.forall hd hd' hne
  rw [heq.trans hdk (heq.symm hdk')] at hdistinct
  cases hdistinct

/-- Where some data is equivalent to the key, the one that a query moves. -/
theorem Distinct.touch_eq (h : Distinct data_equal capacity ds) (hd : d ∈ ds)
    (hdk : data_equal d data = true) :
    touch (data_equal · data) ds = ds.eraseP (data_equal · data) ++ [d] := by
  obtain ⟨d', hfind⟩ : ∃ d', ds.find? (data_equal · data) = some d' :=
    Option.isSome_iff_exists.mp (List.find?_isSome.mpr ⟨d, hd, hdk⟩)
  obtain rfl := h.eq heq hd (List.mem_of_find?_eq_some hfind) hdk (by
    simpa using List.find?_some hfind)
  rw [touch, hfind]
  rfl

theorem Distinct.documented (h : Distinct data_equal capacity ds) (hcap : 1 ≤ capacity)
    (e : Call δ) : Distinct data_equal capacity (documented data_equal capacity ds e).1 := by
  have hsymm := Distinct.symm heq
  have hlen := h.length_le
  cases e with
  | query key =>
    have hperm := touch_perm (data_equal · key) ds
    exact ⟨hperm.symm.pairwise h.pairwise fun hxy => hsymm.symm _ _ hxy,
      hperm.length_eq.trans_le hlen⟩
  | insert data =>
    have hone : ∀ ds' : List δ, ds'.Sublist ds → (∀ x ∈ ds', data_equal x data = false) →
        (ds' ++ [data]).Pairwise fun x y => data_equal x y = false := by
      intro ds' hsub hne
      refine List.pairwise_append.mpr ⟨h.pairwise.sublist hsub, List.pairwise_singleton _ _, ?_⟩
      simpa using hne
    rw [LRUCache.documented]
    split
    · rename_i hany
      obtain ⟨ds₁, d, ds₂, rfl, hfirst, hd⟩ :=
        (forall_not_or_split (data_equal · data) ds).resolve_left fun hnone => by
          obtain ⟨x, hx, hxd⟩ := List.any_eq_true.mp hany
          exact hnone x hx hxd
      have hsub : (ds₁ ++ ds₂).Sublist (ds₁ ++ d :: ds₂) :=
        List.Sublist.append_left (List.sublist_cons_self d ds₂) ds₁
      rw [eraseP_split hfirst hd]
      refine ⟨hone _ hsub fun x hx => ?_, ?_⟩
      · rcases List.mem_append.mp hx with hx | hx
        · exact Bool.eq_false_iff.mpr (hfirst x hx)
        · have hdx := (List.pairwise_cons.mp (List.pairwise_append.mp h.pairwise).2.1).1 x hx
          apply Bool.eq_false_iff.mpr
          intro hxd
          rw [heq.trans hd (heq.symm hxd)] at hdx
          cases hdx
      · simpa [Nat.add_assoc] using hlen
    · rename_i hany
      have hnone : ∀ x ∈ ds, data_equal x data = false := by simpa using hany
      split
      · rename_i hfull
        refine ⟨hone _ (List.tail_sublist ds) fun x hx => hnone x (List.mem_of_mem_tail hx), ?_⟩
        rw [List.length_append, List.length_tail, List.length_singleton]
        omega
      · refine ⟨hone _ (List.Sublist.refl ds) hnone, ?_⟩
        rw [List.length_append, List.length_singleton]
        omega
  | remove key =>
    exact ⟨h.pairwise.sublist List.eraseP_sublist, Nat.le_trans List.length_eraseP_le hlen⟩
  | clear => exact ⟨.nil, Nat.zero_le _⟩

/-- One call does what the documentation says where no data is replaced by
another. -/
theorem Holds.call (h : c.Holds ds) (hds : Distinct data_equal capacity ds)
    (hcapacity : c.capacity = capacity) (hcap : 1 ≤ capacity) (hsame : Same data_equal ds e) :
    ∃ c', c.call data_equal e = some (c', (documented data_equal capacity ds e).2) ∧
      c'.Holds (documented data_equal capacity ds e).1 ∧ c'.capacity = c.capacity := by
  cases e with
  | query key => exact h.query (data_equal · key)
  | insert data =>
    rw [LRUCache.call, LRUCache.documented]
    split
    · rename_i hany
      obtain ⟨d, hd, hdk⟩ := List.any_eq_true.mp hany
      obtain ⟨c', hinsert, hholds, hcap'⟩ := h.insert_found data_equal ⟨d, hd, hdk⟩
      rw [hds.touch_eq heq hd hdk, hsame d hd hdk] at hholds
      exact ⟨c', hinsert, hholds, hcap'⟩
    · rename_i hany
      have hnone : ∀ x ∈ ds, ¬data_equal x data = true := by simpa using hany
      split
      · rename_i hfull
        cases ds with
        | nil =>
          rw [List.length_nil] at hfull
          omega
        | cons d ds => exact h.insert_full data_equal hnone (hfull.trans hcapacity.symm)
      · rename_i hfull
        exact h.insert_room data_equal hnone (hcapacity ▸ hfull)
  | remove key => exact h.remove (data_equal · key)
  | clear =>
    obtain ⟨c', hclear, hholds, hcap'⟩ := h.clear
    exact ⟨c', by simp [LRUCache.call, hclear, LRUCache.documented], hholds, hcap'⟩

/-- Data that replaces other data is not what the cache has stored. -/
theorem Holds.same_of_call (h : c.Holds ds) (hds : Distinct data_equal capacity ds)
    {c' : LRUCache δ} {r : Option δ} (hcall : c.call data_equal e = some (c', r))
    (h' : c'.Holds (documented data_equal capacity ds e).1) : Same data_equal ds e := by
  cases e with
  | insert data =>
    intro d hd hdk
    obtain ⟨c'', hinsert, hholds, -⟩ := h.insert_found data_equal ⟨d, hd, hdk⟩
    rw [LRUCache.call, hinsert, Option.some.injEq, Prod.mk.injEq] at hcall
    obtain ⟨rfl, -⟩ := hcall
    have hany : ds.any (data_equal · data) = true := List.any_eq_true.mpr ⟨d, hd, hdk⟩
    rw [LRUCache.documented, if_pos hany] at h'
    rw [hds.touch_eq heq hd hdk] at hholds
    exact Option.some.inj (hholds.data_prev.symm.trans h'.data_prev)
  | query key => trivial
  | remove key => trivial
  | clear => trivial

/-- The next call, after calls that were as documented. -/
theorem Behaves.concat_iff (h : Behaves data_equal capacity es c) (hcap : 1 ≤ capacity)
    (e : Call δ) : (∃ c', Behaves data_equal capacity (es ++ [e]) c') ↔
      Same data_equal (document data_equal capacity es).1 e := by
  have hexec : ∀ c' rs, (machine data_equal).exec (create capacity, []) (es ++ [e]) =
      some (c', rs) ↔ ∃ r, c.call data_equal e = some (c', r) ∧
        rs = (document data_equal capacity es).2 ++ [r] := by
    intro c' rs
    rw [Machine.exec_concat, h.exec, Option.bind_some]
    cases hcall : c.call data_equal e with
    | none => simp [machine, hcall]
    | some r => simp [machine, hcall, eq_comm, Prod.ext_iff]
  constructor
  · rintro ⟨c', h'⟩
    obtain ⟨r, hcall, -⟩ := (hexec _ _).mp h'.exec
    have hholds := h'.holds
    rw [document_concat] at hholds
    exact h.holds.same_of_call heq h.distinct hcall hholds
  · intro hsame
    obtain ⟨c', hcall, hholds, hcap'⟩ := h.holds.call heq h.distinct h.capacity_eq hcap hsame
    refine ⟨c', (hexec _ _).mpr ⟨_, hcall, by rw [document_concat]⟩, ?_, ?_,
      hcap'.trans h.capacity_eq⟩
    · rw [document_concat]
      exact hholds
    · rw [document_concat]
      exact h.distinct.documented heq hcap e

/-- The cache behaves as documented in all states of a run exactly if no step
inserts data that is equivalent to other stored data. -/
theorem behaves_iff (hcap : 1 ≤ capacity) (es : List (Call δ)) :
    (∀ pre, pre <+: es → ∃ c, Behaves data_equal capacity pre c) ↔
      ∀ pre e post, es = pre ++ e :: post →
        Same data_equal (document data_equal capacity pre).1 e := by
  constructor
  · rintro h pre e post rfl
    obtain ⟨c, hc⟩ := h pre (List.prefix_append _ _)
    exact (hc.concat_iff heq hcap e).mp (h (pre ++ [e]) ⟨post, by simp⟩)
  · intro h pre
    induction pre using List.reverseRecOn with
    | nil => exact fun _ => ⟨_, behaves_nil⟩
    | append_singleton pre e ih =>
      rintro ⟨post, rfl⟩
      obtain ⟨c, hc⟩ := ih ⟨e :: post, by simp⟩
      exact (hc.concat_iff heq hcap e).mpr (h pre e post (by simp))

end Equivalences

/-- Two data of one key. -/
def sameKey (x y : ℕ × ℕ) : Bool := x.1 = y.1

theorem sameKey_equivalence : Equivalence fun x y => sameKey x y = true where
  refl := by simp [sameKey]
  symm := by simp [sameKey, eq_comm]
  trans := by
    simp only [sameKey, decide_eq_true_eq]
    exact fun hxy hyz => hxy.trans hyz

theorem behaves_iff_sameKey :
    (∀ pre, pre <+: [.insert (1, 5), .insert (1, 7)] → ∃ c, Behaves sameKey 2 pre c) ↔
      ∀ pre e post, [.insert (1, 5), .insert (1, 7)] = pre ++ e :: post →
        Same sameKey (document sameKey 2 pre).1 e :=
  behaves_iff sameKey_equivalence (by decide) _

/-- The second insertion leaves the first data in the cache. -/
theorem not_behaves_sameKey : ¬∀ (data_equal : ℕ × ℕ → ℕ × ℕ → Bool) (capacity : ℕ)
    (es : List (Call (ℕ × ℕ))), Equivalence (fun x y => data_equal x y = true) → 1 ≤ capacity →
    ∃ c, Behaves data_equal capacity es c := by
  intro hall
  obtain ⟨c, hc⟩ := hall sameKey 2 [.insert (1, 5)] sameKey_equivalence (by decide)
  have hsame := (hc.concat_iff sameKey_equivalence (by decide) (.insert (1, 7))).mp
    (hall sameKey 2 _ sameKey_equivalence (by decide))
  exact absurd (hsame (1, 5) (by decide) (by decide)) (by decide)

end Course.Os.LRUCache
