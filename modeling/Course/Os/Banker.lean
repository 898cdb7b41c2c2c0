import Mathlib.Algebra.BigOperators.Fin
import Mathlib.Algebra.Order.Group.Int
import Mathlib.Algebra.Order.Pi
import Mathlib.Data.Fintype.BigOperators
import Mathlib.Data.Int.ConditionallyCompleteOrder
import Mathlib.Order.ConditionallyCompleteLattice.Basic
import Course.Lib.Machine
import Course.Lib.SafeSequence

/-! The banker of Project 6: the four global tables, the `RQ` and `RL` commands
of the main loop, and the safety check with its repeated scans. -/

open Course.Lib

namespace Course.Os.Banker

/-- The globals of `banker.c` for `n` customers and `m` resources. -/
structure State (n m : ℕ) where
  available : Fin m → ℤ
  maximum : Fin n → Fin m → ℤ
  allocation : Fin n → Fin m → ℤ
  need : Fin n → Fin m → ℤ

variable {n m : ℕ}

instance decidableLEVector : DecidableLE (Fin m → ℤ) :=
  fun x y => inferInstanceAs (Decidable (∀ j, x j ≤ y j))

instance decidableLEMatrix : DecidableLE (Fin n → Fin m → ℤ) :=
  fun x y => inferInstanceAs (Decidable (∀ i, x i ≤ y i))

def init (available : Fin m → ℤ) (maximum : Fin n → Fin m → ℤ) : State n m where
  available := available
  maximum := maximum
  allocation := fun _ _ => 0
  need := maximum

/-- The locals of `check_safe`. -/
structure Scan (n m : ℕ) where
  work : Fin m → ℤ
  finish : Fin n → Bool
  finishCount : ℕ
  found : Bool

/-- The body of the inner loop, for one customer. -/
def scanCustomer (s : State n m) (k : Scan n m) (i : Fin n) : Scan n m :=
  if k.finish i then k
  else if ∃ j, k.work j < s.need i j then k
  else
    { work := fun j => k.work j + s.allocation i j
      finish := Function.update k.finish i true
      finishCount := k.finishCount + 1
      found := true }

def scanAll (s : State n m) (k : Scan n m) : Scan n m :=
  (List.finRange n).foldl (scanCustomer s) { k with found := false }

/-- The `while` loop; every round but the last finishes a customer, so `n + 1`
rounds of fuel are enough (`checkSafe_spec`). -/
def scanLoop (s : State n m) : ℕ → Scan n m → Option Bool
  | 0, _ => none
  | fuel + 1, k =>
    if k.finishCount < n then
      let k' := scanAll s k
      if k'.found then scanLoop s fuel k' else some false
    else some true

def startScan (s : State n m) : Scan n m where
  work := s.available
  finish := fun _ => false
  finishCount := 0
  found := false

def checkSafe (s : State n m) : Option Bool := scanLoop s (n + 1) (startScan s)

/-- The three statements executed for each resource when `customer` obtains
`delta` (a negative `delta` gives back). -/
def transfer (s : State n m) (customer : Fin n) (delta : Fin m → ℤ) : State n m where
  available := s.available - delta
  maximum := s.maximum
  allocation := Function.update s.allocation customer (s.allocation customer + delta)
  need := Function.update s.need customer (s.need customer - delta)

def requestResources (s : State n m) (customer : Fin n) (request : Fin m → ℤ) :
    Option (State n m) :=
  if ∃ j, s.need customer j < request j then some s
  else if ∃ j, s.available j < request j then some s
  else
    let granted := transfer s customer request
    (checkSafe granted).map fun safe =>
      if safe then granted else transfer granted customer (-request)

def releaseResources (s : State n m) (customer : Fin n) (release : Fin m → ℤ) : State n m :=
  if ∃ j, s.allocation customer j < release j then s
  else transfer s customer (-release)

def checkFinish (s : State n m) (customer : Fin n) : State n m :=
  if ∃ j, s.need customer j ≠ 0 then s
  else
    { available := s.available + s.allocation customer
      maximum := Function.update s.maximum customer 0
      allocation := Function.update s.allocation customer 0
      need := Function.update s.need customer 0 }

/-- A parsed command line; the customer number is whatever `atoi` returned. -/
inductive Command (m : ℕ)
  | RQ (customer : ℤ) (request : Fin m → ℤ)
  | RL (customer : ℤ) (release : Fin m → ℤ)
  | status

/-- The range check on a customer number. -/
def customerOf (customer : ℤ) : Option (Fin n) :=
  if h : 0 ≤ customer ∧ customer < n then some ⟨customer.toNat, by omega⟩ else none

/-- One round of the command loop of `main`. -/
def command (s : State n m) : Command m → Option (State n m)
  | .RQ customer request =>
    match customerOf customer with
    | none => some s
    | some c =>
      if ∃ j, request j < 0 ∨ s.need c j < request j then some s
      else (requestResources s c request).map fun t => checkFinish t c
  | .RL customer release =>
    match customerOf customer with
    | none => some s
    | some c =>
      if ∃ j, release j < 0 ∨ s.allocation c j < release j then some s
      else some (releaseResources s c release)
  | .status => some s

def machine (n m : ℕ) : Machine (State n m) (Command m) where
  step := command

/-- Some order of the customers lets each obtain its whole need from what is
available and from what the customers before it return. -/
def State.Safe (s : State n m) : Prop :=
  SafeSequence.Safe s.need s.allocation s.available

/-! ### The safety check -/

/-- The customers finished so far, in the order in which the scans found them. -/
structure Scanned (s : State n m) (k : Scan n m) (is : List (Fin n)) : Prop where
  nodup : is.Nodup
  finish : ∀ i, k.finish i = true ↔ i ∈ is
  count : k.finishCount = is.length
  work : k.work = s.available + (is.map s.allocation).sum
  serves : SafeSequence.Serves s.need s.allocation s.available is

theorem Scanned.start (s : State n m) : Scanned s (startScan s) [] :=
  ⟨by simp, by simp [startScan], rfl, by simp [startScan], trivial⟩

theorem Scanned.scanCustomer {s : State n m} {k : Scan n m} (h : Scanned s k is) (i : Fin n) :
    ∃ js, Scanned s (scanCustomer s k i) js := by
  unfold Banker.scanCustomer
  split
  · exact ⟨is, h⟩
  split
  · exact ⟨is, h⟩
  rename_i hfin henough
  have hi : i ∉ is := fun hi => hfin ((h.finish i).mpr hi)
  push Not at henough
  refine ⟨is ++ [i], ?_, ?_, ?_, ?_, ?_⟩
  · refine List.nodup_append.mpr ⟨h.nodup, List.nodup_singleton i, fun a ha b hb hab => ?_⟩
    rw [List.mem_singleton] at hb
    exact hi (hb ▸ hab ▸ ha)
  · intro j
    by_cases hj : j = i <;> simp [hj, h.finish]
  · simp [h.count]
  · funext j
    simp [h.work, add_assoc]
  · rw [SafeSequence.serves_append, ← h.work]
    exact ⟨h.serves, henough, trivial⟩

theorem Scanned.foldl {s : State n m} {k : Scan n m} (h : Scanned s k is) (l : List (Fin n)) :
    ∃ js, Scanned s (l.foldl (Banker.scanCustomer s) k) js := by
  induction l generalizing k is with
  | nil => exact ⟨is, h⟩
  | cons i l ih =>
    obtain ⟨js, hjs⟩ := h.scanCustomer i
    exact ih hjs

theorem Scanned.scanAll {s : State n m} {k : Scan n m} (h : Scanned s k is) :
    ∃ js, Scanned s (scanAll s k) js :=
  Scanned.foldl (k := { k with found := false }) ⟨h.nodup, h.finish, h.count, h.work, h.serves⟩ _

theorem scanCustomer_progress (s : State n m) (k : Scan n m) (i : Fin n) :
    k.finishCount ≤ (scanCustomer s k i).finishCount ∧
      ((scanCustomer s k i).found = true →
        k.found = true ∨ k.finishCount < (scanCustomer s k i).finishCount) := by
  unfold scanCustomer
  split
  · exact ⟨le_rfl, .inl⟩
  split
  · exact ⟨le_rfl, .inl⟩
  · exact ⟨Nat.le_succ _, fun _ => .inr (Nat.lt_succ_self _)⟩

theorem foldl_progress (s : State n m) (l : List (Fin n)) (k : Scan n m) :
    k.finishCount ≤ (l.foldl (scanCustomer s) k).finishCount ∧
      ((l.foldl (scanCustomer s) k).found = true →
        k.found = true ∨ k.finishCount < (l.foldl (scanCustomer s) k).finishCount) := by
  induction l generalizing k with
  | nil => exact ⟨le_rfl, .inl⟩
  | cons i l ih =>
    obtain ⟨hle, hfound⟩ := scanCustomer_progress s k i
    obtain ⟨hle', hfound'⟩ := ih (scanCustomer s k i)
    refine ⟨hle.trans hle', fun h => ?_⟩
    rcases hfound' h with h | h
    · exact (hfound h).imp_right fun h => h.trans_le hle'
    · exact .inr (hle.trans_lt h)

/-- A scan that found a customer has finished at least one more. -/
theorem scanAll_progress {s : State n m} {k : Scan n m} (h : (scanAll s k).found = true) :
    k.finishCount < (scanAll s k).finishCount :=
  ((foldl_progress s (List.finRange n) { k with found := false }).2 h).resolve_left (by simp)

theorem Scanned.length_le {s : State n m} {k : Scan n m} (h : Scanned s k is) :
    is.length ≤ n := by
  simpa using h.nodup.length_le_card

/-- Every customer is finished once the counter reaches `n`. -/
theorem Scanned.safe {s : State n m} {k : Scan n m} (h : Scanned s k is)
    (hcount : ¬k.finishCount < n) : s.Safe := by
  have hlen : is.length = n := Nat.le_antisymm h.length_le (h.count ▸ Nat.le_of_not_lt hcount)
  have hcard : is.toFinset.card = Fintype.card (Fin n) := by
    rw [List.toFinset_card_of_nodup h.nodup, hlen, Fintype.card_fin]
  refine ⟨is, h.nodup, fun i => ?_, h.serves⟩
  have huniv := Finset.eq_univ_of_card _ hcard
  exact List.mem_toFinset.mp (huniv ▸ Finset.mem_univ i)

theorem scanCustomer_of_not_found {s : State n m} {k : Scan n m} {i : Fin n}
    (h : (scanCustomer s k i).found = false) :
    scanCustomer s k i = k ∧ (k.finish i = true ∨ ¬s.need i ≤ k.work) := by
  unfold scanCustomer at h ⊢
  split
  · rename_i hfin
    exact ⟨rfl, .inl hfin⟩
  split
  · rename_i hshort
    obtain ⟨j, hj⟩ := hshort
    exact ⟨rfl, .inr fun hle => absurd (hle j) (not_le_of_gt hj)⟩
  · rename_i hfin henough
    rw [if_neg hfin, if_neg henough] at h
    cases h

/-- A scan that finds no customer has not changed anything. -/
theorem foldl_of_not_found {s : State n m} {k : Scan n m} {l : List (Fin n)}
    (h : (l.foldl (scanCustomer s) k).found = false) :
    l.foldl (scanCustomer s) k = k ∧ ∀ i ∈ l, k.finish i = true ∨ ¬s.need i ≤ k.work := by
  induction l generalizing k with
  | nil => exact ⟨rfl, by simp⟩
  | cons i l ih =>
    obtain ⟨heq, hl⟩ := ih h
    rw [List.foldl_cons, heq] at h
    obtain ⟨hsame, hi⟩ := scanCustomer_of_not_found h
    rw [hsame] at heq hl
    refine ⟨by rw [List.foldl_cons, hsame, heq], fun j hj => ?_⟩
    rcases List.mem_cons.mp hj with rfl | hj
    · exact hi
    · exact hl j hj

/-- A scan that finds no customer although one is left shows that no order is safe. -/
theorem Scanned.not_safe {s : State n m} {k : Scan n m} (h : Scanned s k is)
    (hheld : 0 ≤ s.allocation) (hcount : k.finishCount < n)
    (hfound : (Banker.scanAll s k).found = false) : ¬s.Safe := by
  intro hsafe
  have hrest : ∃ i, i ∉ is := by
    by_contra hall
    push Not at hall
    have hlen : Fintype.card (Fin n) ≤ is.length :=
      (Finset.card_le_card fun i _ => List.mem_toFinset.mpr (hall i)).trans
        is.toFinset_card_le
    rw [Fintype.card_fin, ← h.count] at hlen
    exact absurd hlen (not_le_of_gt hcount)
  obtain ⟨i, hi, hneed⟩ := hsafe.exists_need_le hheld hrest
  rw [← h.work] at hneed
  rcases (foldl_of_not_found hfound).2 i (List.mem_finRange i) with hfin | hshort
  · exact hi ((h.finish i).mp hfin)
  · exact hshort hneed

/-- The answer is right, and with it the greedy scans miss no safe order. -/
theorem scanLoop_spec {s : State n m} {k : Scan n m} (h : Scanned s k is) {fuel : ℕ}
    (hfuel : n < fuel + k.finishCount) :
    ∃ b, scanLoop s fuel k = some b ∧ (b = true → s.Safe) ∧
      (0 ≤ s.allocation → s.Safe → b = true) := by
  induction fuel generalizing k is with
  | zero =>
    have := h.length_le
    have := h.count
    omega
  | succ fuel ih =>
    by_cases hcount : k.finishCount < n
    · cases hfound : (Banker.scanAll s k).found with
      | true =>
        obtain ⟨js, hjs⟩ := h.scanAll
        have := scanAll_progress hfound
        simpa [scanLoop, hcount, hfound] using ih hjs (by omega)
      | false =>
        refine ⟨false, by simp [scanLoop, hcount, hfound], by simp, fun hheld hsafe => ?_⟩
        exact absurd hsafe (h.not_safe hheld hcount hfound)
    · exact ⟨true, by simp [scanLoop, hcount], fun _ => h.safe hcount, fun _ _ => rfl⟩

/-- The safety check ends, and a positive answer is right. -/
theorem checkSafe_spec (s : State n m) :
    ∃ b, checkSafe s = some b ∧ (b = true → s.Safe) ∧ (0 ≤ s.allocation → s.Safe → b = true) :=
  scanLoop_spec (Scanned.start s) (Nat.lt_succ_self n)

/-- Where nobody holds a negative amount, a negative answer is right too. -/
theorem checkSafe_iff {s : State n m} (hheld : 0 ≤ s.allocation) :
    ∃ b, checkSafe s = some b ∧ (b = true ↔ s.Safe) :=
  let ⟨b, hb, hsafe, hcomplete⟩ := checkSafe_spec s
  ⟨b, hb, hsafe, hcomplete hheld⟩

/-- The customers finish in the order 1, 2, 0, in two scans. -/
theorem checkSafe_iff_backwards :
    ∃ b, checkSafe (n := 3) (m := 1) ⟨![-1], 0, ![![1], ![2], ![0]], ![![3], ![-1], ![1]]⟩ =
        some b ∧
      (b = true ↔ (⟨![-1], 0, ![![1], ![2], ![0]], ![![3], ![-1], ![1]]⟩ : State 3 1).Safe) :=
  checkSafe_iff (by decide)

/-! ### The invariant -/

/-- What holds between any two commands, `total` being the resources the
program was started with. -/
structure Inv (total : Fin m → ℤ) (s : State n m) : Prop where
  conserved : s.available + ∑ i, s.allocation i = total
  claimed : s.allocation + s.need = s.maximum
  available_nonneg : 0 ≤ s.available
  allocation_nonneg : 0 ≤ s.allocation
  need_nonneg : 0 ≤ s.need
  safe : s.Safe

theorem Inv.maximum_nonneg {total : Fin m → ℤ} {s : State n m} (h : Inv total s) :
    0 ≤ s.maximum :=
  h.claimed ▸ add_nonneg h.allocation_nonneg h.need_nonneg

theorem init_inv {available : Fin m → ℤ} {maximum : Fin n → Fin m → ℤ} (ha : 0 ≤ available)
    (hm : 0 ≤ maximum) (hs : (init available maximum).Safe) :
    Inv available (init available maximum) where
  conserved := by funext j; simp [init]
  claimed := by funext i j; simp [init]
  available_nonneg := ha
  allocation_nonneg := le_refl 0
  need_nonneg := hm
  safe := hs

/-- Replacing one entry of a sum. -/
theorem sum_update (f : Fin n → Fin m → ℤ) (c : Fin n) (x : Fin m → ℤ) :
    ∑ i, Function.update f c x i = ∑ i, f i - f c + x := by
  rw [Finset.sum_update_of_mem (Finset.mem_univ c), ← Finset.sum_erase_eq_sub (Finset.mem_univ c),
    Finset.sdiff_singleton_eq_erase, add_comm]

theorem update_nonneg {f : Fin n → Fin m → ℤ} (hf : 0 ≤ f) {x : Fin m → ℤ} (hx : 0 ≤ x)
    (c : Fin n) : 0 ≤ Function.update f c x := by
  intro i
  by_cases hi : i = c
  · subst hi; simpa using hx
  · simpa [hi] using hf i

theorem Inv.transfer {total : Fin m → ℤ} {s : State n m} (h : Inv total s) {c : Fin n}
    {delta : Fin m → ℤ} (hav : delta ≤ s.available) (hal : -delta ≤ s.allocation c)
    (hne : delta ≤ s.need c) (hs : (transfer s c delta).Safe) : Inv total (transfer s c delta) where
  conserved := by
    rw [← h.conserved]
    simp only [Banker.transfer, sum_update]
    abel
  claimed := by
    have hclaimed := congrFun h.claimed
    simp only [Banker.transfer]
    funext i
    rw [← hclaimed i]
    by_cases hi : i = c
    · subst hi
      simp only [Pi.add_apply, Function.update_self]
      abel
    · simp [hi]
  available_nonneg := sub_nonneg.mpr hav
  allocation_nonneg := update_nonneg h.allocation_nonneg (neg_le_iff_add_nonneg.mp hal) c
  need_nonneg := update_nonneg h.need_nonneg (sub_nonneg.mpr hne) c
  safe := hs

theorem transfer_neg (s : State n m) (c : Fin n) (delta : Fin m → ℤ) :
    transfer (transfer s c delta) c (-delta) = s := by
  simp [transfer]

theorem Inv.requestResources {total : Fin m → ℤ} {s : State n m} (h : Inv total s) (c : Fin n)
    {request : Fin m → ℤ} (hr : 0 ≤ request) :
    ∃ t, requestResources s c request = some t ∧ Inv total t := by
  unfold Banker.requestResources
  split
  · exact ⟨s, rfl, h⟩
  split
  · exact ⟨s, rfl, h⟩
  rename_i hneed havail
  push Not at hneed havail
  obtain ⟨b, hb, hsafe, -⟩ := checkSafe_spec (Banker.transfer s c request)
  refine ⟨_, by simp only [hb]; rfl, ?_⟩
  cases b with
  | true =>
    have hal : -request ≤ s.allocation c :=
      (neg_nonpos.mpr hr).trans (h.allocation_nonneg c)
    exact h.transfer havail hal hneed (hsafe rfl)
  | false =>
    -- a denied request is rolled back
    simpa [transfer_neg] using h

theorem Inv.releaseResources {total : Fin m → ℤ} {s : State n m} (h : Inv total s) (c : Fin n)
    {release : Fin m → ℤ} (hr : 0 ≤ release) : Inv total (releaseResources s c release) := by
  unfold Banker.releaseResources
  split
  · exact h
  rename_i halloc
  push Not at halloc
  have hneg : -release ≤ 0 := neg_nonpos.mpr hr
  have halloc : release ≤ s.allocation c := halloc
  refine h.transfer (hneg.trans h.available_nonneg) (by simpa using halloc)
    (hneg.trans (h.need_nonneg c)) ?_
  simpa [State.Safe, Banker.transfer, sub_eq_add_neg] using h.safe.release c hr

theorem Inv.checkFinish {total : Fin m → ℤ} {s : State n m} (h : Inv total s) (c : Fin n) :
    Inv total (checkFinish s c) := by
  unfold Banker.checkFinish
  split
  · exact h
  rename_i hneed
  push Not at hneed
  have hneed : s.need c = 0 := funext hneed
  have hsame : Function.update s.need c 0 = s.need := by rw [← hneed, Function.update_eq_self]
  refine ⟨?_, ?_, add_nonneg h.available_nonneg (h.allocation_nonneg c),
    update_nonneg h.allocation_nonneg le_rfl c, update_nonneg h.need_nonneg le_rfl c, ?_⟩
  · rw [← h.conserved]
    simp only [sum_update]
    abel
  · funext i
    by_cases hi : i = c <;> simp [hi, ← h.claimed]
  · simp only [State.Safe, hsame]
    exact h.safe.finish c hneed (h.allocation_nonneg c)

theorem Inv.command {total : Fin m → ℤ} {s : State n m} (h : Inv total s) (cmd : Command m) :
    ∃ t, command s cmd = some t ∧ Inv total t := by
  cases cmd with
  | RQ customer request =>
    simp only [Banker.command]
    split
    · exact ⟨s, rfl, h⟩
    rename_i c _
    split
    · exact ⟨s, rfl, h⟩
    rename_i hvalid
    push Not at hvalid
    obtain ⟨t, ht, hinv⟩ := h.requestResources c fun j => (hvalid j).1
    exact ⟨Banker.checkFinish t c, by simp [ht], hinv.checkFinish c⟩
  | RL customer release =>
    simp only [Banker.command]
    split
    · exact ⟨s, rfl, h⟩
    rename_i c _
    split
    · exact ⟨s, rfl, h⟩
    rename_i hvalid
    push Not at hvalid
    exact ⟨_, rfl, h.releaseResources c fun j => (hvalid j).1⟩
  | status => exact ⟨s, rfl, h⟩

/-- From a safe start every sequence of commands is carried out, and every
state it reaches keeps the books and stays safe. -/
theorem banker_exec_inv {available : Fin m → ℤ} {maximum : Fin n → Fin m → ℤ}
    (ha : 0 ≤ available) (hm : 0 ≤ maximum) (hs : (init available maximum).Safe)
    (cmds : List (Command m)) :
    ∃ t, (machine n m).exec (init available maximum) cmds = some t ∧
      Inv available t ∧ 0 ≤ t.maximum :=
  let ⟨t, ht, hinv⟩ := Machine.exec_total (fun _ cmd h => h.command cmd) (init_inv ha hm hs) cmds
  ⟨t, ht, hinv, hinv.maximum_nonneg⟩

/-- The matrix of `input.txt`. -/
def inputMaximum : Fin 5 → Fin 4 → ℤ :=
  ![![6, 4, 7, 3], ![4, 2, 3, 2], ![2, 5, 3, 3], ![6, 3, 3, 2], ![5, 6, 7, 5]]

theorem inputMaximum_safe : (init ![7, 7, 7, 7] inputMaximum).Safe :=
  ⟨List.finRange 5, by decide, by decide, by decide⟩

theorem banker_exec_inv_input :
    ∃ t, (machine 5 4).exec (init ![7, 7, 7, 7] inputMaximum)
        [.RQ 0 ![6, 4, 7, 3], .RQ 4 ![1, 1, 0, 0], .RL 4 ![1, 0, 0, 0], .RQ 9 0] = some t ∧
      Inv ![7, 7, 7, 7] t ∧ 0 ≤ t.maximum :=
  banker_exec_inv (by decide) (by decide) inputMaximum_safe _

end Course.Os.Banker
