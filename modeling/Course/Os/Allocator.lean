import Mathlib.Data.BitVec
import Mathlib.Data.Nat.Bitwise
import Course.Lib.Machine
import Course.Os.Freelist

/-! The allocator of Project 7: the list of allocated blocks by address, the
free list, and the `RQ` and `RL` commands of the main loop. -/

open Course.Lib

namespace Course.Os

structure AllocInfo where
  name : String
  address : ℤ
  size : ℕ

def AllocInfo.block (info : AllocInfo) : Block := ⟨info.address, info.size⟩

/-! ### The list of allocated blocks -/

abbrev Alloclist := List AllocInfo

namespace Alloclist

/-- The walk of `alloclist_alloc` behind the head of the list. -/
def insertAfter (info : AllocInfo) : Alloclist → Alloclist
  | [] => [info]
  | curr :: rest =>
    if curr.address < info.address then curr :: insertAfter info rest else info :: curr :: rest

def alloc (info : AllocInfo) : Alloclist → Alloclist
  | [] => [info]
  | head :: rest =>
    if info.address < head.address then info :: head :: rest else head :: insertAfter info rest

/-- What the two searches return when the name is not there. -/
def notFound : AllocInfo where
  name := ""
  address := -1
  size := 0

def free (name : String) : Alloclist → Alloclist × AllocInfo
  | [] => ([], notFound)
  | node :: rest =>
    if node.name = name then (rest, node)
    else
      let (rest, info) := free name rest
      (node :: rest, info)

def find (name : String) : Alloclist → AllocInfo
  | [] => notFound
  | node :: rest => if node.name = name then node else find name rest

def address (name : String) (as : Alloclist) : ℤ := (find name as).address

/-- The list in the order of its addresses. -/
def Sorted (as : Alloclist) : Prop := as.Pairwise fun i j => i.address < j.address

variable {as : Alloclist} {info : AllocInfo} {name : String}

theorem insertAfter_perm (as : Alloclist) : (insertAfter info as).Perm (info :: as) := by
  induction as with
  | nil => exact List.Perm.refl _
  | cons curr rest ih =>
    rw [insertAfter]
    split
    · exact (ih.cons curr).trans (List.Perm.swap info curr rest)
    · exact List.Perm.refl _

theorem alloc_perm (as : Alloclist) : (alloc info as).Perm (info :: as) := by
  cases as with
  | nil => exact List.Perm.refl _
  | cons head rest =>
    rw [alloc]
    split
    · exact List.Perm.refl _
    · exact ((insertAfter_perm rest).cons head).trans (List.Perm.swap info head rest)

theorem Sorted.insertAfter (h : Sorted as) (hne : ∀ i ∈ as, i.address ≠ info.address) :
    Sorted (insertAfter info as) := by
  induction as with
  | nil => exact List.pairwise_singleton _ _
  | cons curr rest ih =>
    obtain ⟨hcurr, hrest⟩ := List.pairwise_cons.mp h
    rw [Alloclist.insertAfter]
    split
    · next hlt =>
      refine List.pairwise_cons.mpr ⟨fun i hi => ?_, ih hrest fun i hi => hne i (by simp [hi])⟩
      obtain rfl | hi := List.mem_cons.mp ((insertAfter_perm rest).mem_iff.mp hi)
      · exact hlt
      · exact hcurr i hi
    · next hge =>
      have hlt : info.address < curr.address :=
        lt_of_le_of_ne (not_lt.mp hge) (hne curr (by simp)).symm
      refine List.pairwise_cons.mpr ⟨fun i hi => ?_, h⟩
      obtain rfl | hi := List.mem_cons.mp hi
      · exact hlt
      · exact hlt.trans (hcurr i hi)

theorem Sorted.alloc (h : Sorted as) (hne : ∀ i ∈ as, i.address ≠ info.address) :
    Sorted (alloc info as) := by
  cases as with
  | nil => exact List.pairwise_singleton _ _
  | cons head rest =>
    obtain ⟨hhead, hrest⟩ := List.pairwise_cons.mp h
    rw [Alloclist.alloc]
    split
    · next hlt =>
      refine List.pairwise_cons.mpr ⟨fun i hi => ?_, h⟩
      obtain rfl | hi := List.mem_cons.mp hi
      · exact hlt
      · exact hlt.trans (hhead i hi)
    · next hge =>
      have hlt : head.address < info.address :=
        lt_of_le_of_ne (not_lt.mp hge) (hne head (by simp))
      refine List.pairwise_cons.mpr ⟨fun i hi => ?_,
        Sorted.insertAfter hrest fun i hi => hne i (by simp [hi])⟩
      obtain rfl | hi := List.mem_cons.mp ((insertAfter_perm rest).mem_iff.mp hi)
      · exact hlt
      · exact hhead i hi

/-- The searches stop at the same block, which `free` takes out. -/
theorem find_spec (name : String) (as : Alloclist) :
    free name as = (as, notFound) ∧ find name as = notFound ∨
      ∃ as₁ as₂, as = as₁ ++ find name as :: as₂ ∧ free name as = (as₁ ++ as₂, find name as) := by
  induction as with
  | nil => exact .inl ⟨rfl, rfl⟩
  | cons node rest ih =>
    by_cases hname : node.name = name
    · exact .inr ⟨[], rest, by simp [find, hname], by simp [find, free, hname]⟩
    · obtain ⟨hfree, hfind⟩ | ⟨as₁, as₂, has, hfree⟩ := ih
      · exact .inl ⟨by simp [free, hname, hfree], by simp [find, hname, hfind]⟩
      · refine .inr ⟨node :: as₁, as₂, ?_, ?_⟩
        · simpa [find, hname] using has
        · simp [find, free, hname, hfree]

end Alloclist

/-! ### The allocator -/

structure Allocator where
  size : ℕ
  pageSize : BitVec 64
  alloclist : Alloclist
  freelist : Freelist

namespace Allocator

def create (scribble : ℕ → FreelistNode → FreelistNode) (size : ℕ) (pageSize : BitVec 64) :
    Allocator where
  size := size
  pageSize := pageSize
  alloclist := []
  freelist := .create scribble 0 size

def internalRoundup (a : Allocator) (size : BitVec 64) : BitVec 64 :=
  (size + a.pageSize - 1) &&& ~~~(a.pageSize - 1)

def alloc (a : Allocator) (name : String) (size : BitVec 64) (policy : Freelist.Policy) :
    Option Allocator := do
  let roundedSize := (a.internalRoundup size).toNat
  let (freelist, address) ← policy.run a.freelist roundedSize
  if address = -1 then some { a with freelist := freelist }
  else
    some
      { a with
        freelist := freelist
        alloclist := a.alloclist.alloc { name := name, address := address, size := roundedSize } }

def free (a : Allocator) (name : String) : Option Allocator := do
  let (alloclist, info) := a.alloclist.free name
  if info.address ≠ -1 then
    let freelist ← a.freelist.release info.address info.size
    some { a with alloclist := alloclist, freelist := freelist }
  else some { a with alloclist := alloclist }

/-- A parsed command line; `size` is what `atoi` returned. -/
inductive Command
  | RQ (name : String) (size : BitVec 32) (policy : Freelist.Policy)
  | RL (name : String)

/-- One round of the loop of `command_line_interface`. -/
def command (a : Allocator) : Command → Option Allocator
  | .RQ name size policy =>
    if a.alloclist.address name ≠ -1 then some a
    else if size.toInt ≤ 0 then some a
    else a.alloc name (size.signExtend 64) policy
  | .RL name => if a.alloclist.address name = -1 then some a else a.free name

def machine : Machine Allocator Command where
  step := command

/-! ### Rounding -/

/-- The mask keeps the bits from `k` on. -/
theorem and_mask (x : ℕ) (hk : k ≤ 64) (hx : x < 2 ^ 64) :
    x &&& (2 ^ 64 - 2 ^ k) = x / 2 ^ k * 2 ^ k := by
  have hmask : 2 ^ 64 - 2 ^ k = 2 ^ 64 - (2 ^ k - 1 + 1) := by
    rw [Nat.sub_add_cancel Nat.one_le_two_pow]
  refine Nat.eq_of_testBit_eq fun i => ?_
  have hle : 2 ^ k ≤ 2 ^ 64 := Nat.pow_le_pow_right (by decide) hk
  have hpos : 0 < 2 ^ k := Nat.two_pow_pos k
  rw [Nat.testBit_and, hmask, Nat.testBit_two_pow_sub_succ (by omega), Nat.testBit_two_pow_sub_one,
    Nat.testBit_mul_two_pow, Nat.testBit_div_two_pow]
  by_cases hik : k ≤ i
  · have hlt : ¬i < k := by omega
    by_cases hi : i < 64
    · simp [hik, hlt, hi]
    · have hbit : x.testBit i = false :=
        Nat.testBit_lt_two_pow (hx.trans_le (Nat.pow_le_pow_right (by decide) (by omega)))
      simp [hik, hi, hbit]
  · have hlt : i < k := by omega
    simp [hik, hlt]

theorem internalRoundup_eq {a : Allocator} (hk : k < 64) (hpage : a.pageSize.toNat = 2 ^ k)
    {n : BitVec 64} (hn : n.toNat + 2 ^ k - 1 < 2 ^ 64) :
    (a.internalRoundup n).toNat = (n.toNat + 2 ^ k - 1) / 2 ^ k * 2 ^ k := by
  have hpos : 0 < 2 ^ k := Nat.two_pow_pos k
  have hlt : 2 ^ k < 2 ^ 64 := Nat.pow_lt_pow_right (by decide) hk
  have hone : (1 : BitVec 64).toNat = 1 := rfl
  have hmask : (~~~(a.pageSize - 1)).toNat = 2 ^ 64 - 2 ^ k := by
    rw [BitVec.toNat_not, BitVec.toNat_sub_of_le (by rw [BitVec.le_def, hpage, hone]; omega),
      hpage, hone]
    omega
  have hsum : (n + a.pageSize - 1).toNat = n.toNat + 2 ^ k - 1 := by
    rw [BitVec.toNat_sub, BitVec.toNat_add, hpage, hone]
    omega
  rw [internalRoundup, BitVec.toNat_and, hmask, hsum, and_mask _ hk.le hn]

/-- A positive `int` is not changed by the conversion to `size_t`. -/
theorem signExtend_toNat {size : BitVec 32} (hsize : 0 < size.toInt) :
    ((size.signExtend 64).toNat : ℤ) = size.toInt ∧ size.toInt < 2 ^ 31 := by
  have hint : (size.signExtend 64).toInt = size.toInt := BitVec.toInt_signExtend_of_le (by decide)
  rw [BitVec.toInt_eq_toNat_cond, BitVec.toInt_eq_toNat_cond] at hint
  rw [BitVec.toInt_eq_toNat_cond] at hsize ⊢
  split at hint <;> split at hsize <;> omega

/-- The rounded size is the least one in pages that is large enough. -/
theorem internalRoundup_isLeast {a : Allocator} (hk : k < 64) (hpage : a.pageSize.toNat = 2 ^ k)
    {size : BitVec 32} (hsize : 0 < size.toInt) :
    IsLeast {m : ℕ | size.toInt ≤ m ∧ a.pageSize.toNat ∣ m}
      (a.internalRoundup (size.signExtend 64)).toNat := by
  obtain ⟨hn, hlt⟩ := signExtend_toNat hsize
  have hle : 2 ^ k ≤ 2 ^ 63 := Nat.pow_le_pow_right (by decide) (by omega)
  have hpos : 0 < 2 ^ k := Nat.two_pow_pos k
  rw [internalRoundup_eq hk hpage (by omega), hpage]
  set n := (size.signExtend 64).toNat
  refine ⟨⟨?_, Nat.dvd_mul_left _ _⟩, fun m hm => ?_⟩
  · have hmod := Nat.mod_lt (n + 2 ^ k - 1) hpos
    have hdiv := Nat.div_add_mod' (n + 2 ^ k - 1) (2 ^ k)
    omega
  · obtain ⟨hsizem, q, rfl⟩ := hm
    have hq : (n + 2 ^ k - 1) / 2 ^ k ≤ q := by
      rw [Nat.div_le_iff_le_mul_add_pred hpos]
      omega
    calc (n + 2 ^ k - 1) / 2 ^ k * 2 ^ k ≤ q * 2 ^ k := Nat.mul_le_mul_right _ hq
      _ = 2 ^ k * q := Nat.mul_comm q (2 ^ k)

/-- What `main` passes on is never rounded to nothing. -/
theorem internalRoundup_pos {a : Allocator} (hk : k < 64) (hpage : a.pageSize.toNat = 2 ^ k)
    {size : BitVec 32} (hsize : 0 < size.toInt) :
    0 < (a.internalRoundup (size.signExtend 64)).toNat := by
  have hle := (internalRoundup_isLeast hk hpage hsize).1.1
  omega

/-! ### Runs -/

variable {scribble : ℕ → FreelistNode → FreelistNode} {a a' : Allocator} {l ss : List ℕ} {n : ℕ}

/-- The blocks of both lists tile the `n` bytes. -/
structure Inv (scribble : ℕ → FreelistNode → FreelistNode) (n : ℕ) (a : Allocator)
    (l ss : List ℕ) : Prop where
  scribble : a.freelist.scribble = scribble
  page : ∃ k < 64, a.pageSize.toNat = 2 ^ k
  inStep : a.freelist.InStep l ss
  tiles : Tiles (Set.Ico 0 n) (l.map a.freelist.block ++ a.alloclist.map AllocInfo.block)
  gaps : Gaps (l.map a.freelist.block)
  positive : 0 < n → ∀ b ∈ l.map a.freelist.block, 0 < b.length
  sorted : Alloclist.Sorted a.alloclist
  used : ∀ i ∈ a.alloclist, 0 < i.size

/-- `free` leaves the link in the free block that follows the released one, if
there is such a block. -/
def Intact (a : Allocator) : Command → Prop
  | .RQ .. => True
  | .RL name =>
    let info := Alloclist.find name a.alloclist
    ∀ y, a.freelist.blockAt (info.address + info.size) = some (some y) →
      ∀ m, (a.freelist.scribble y m).next = m.next

theorem inv_create (scribble : ℕ → FreelistNode → FreelistNode) (n : ℕ) {pageSize : BitVec 64}
    (hpage : ∃ k < 64, pageSize.toNat = 2 ^ k) :
    Inv scribble n (create scribble n pageSize) [2] [2] := by
  obtain ⟨hstep, hblocks⟩ := Freelist.create_inStep scribble 0 n
  have hblocks : [2].map (create scribble n pageSize).freelist.block = [⟨0, n⟩] := hblocks
  refine ⟨rfl, hpage, hstep, ?_, ?_, fun hn => ?_, List.Pairwise.nil, by simp [create]⟩
  · rw [hblocks]
    simpa [Block.points, Block.stop, create] using Tiles.singleton ⟨0, n⟩
  · rw [hblocks]
    exact List.pairwise_singleton _ _
  · rw [hblocks]
    simpa using hn

/-- An address of a block that is not empty is one of the `n` bytes. -/
theorem start_nonneg {r : List Block} {b : Block} (h : Tiles (Set.Ico 0 (n : ℤ)) r) (hb : b ∈ r)
    (hpos : 0 < b.length) : 0 ≤ b.start ∧ 0 < n := by
  have hmem : b.start ∈ Set.Ico 0 (n : ℤ) := (h.cover _).mpr ⟨b, hb, Block.start_mem hpos⟩
  obtain ⟨hle, hlt⟩ := Set.mem_Ico.mp hmem
  omega

/-- The front of a free block becomes an allocated block, if one is large enough. -/
theorem Inv.takes (h : Inv scribble n a l ss) (name : String) (policy : Freelist.Policy) {m : ℕ}
    (hm : 0 < m) :
    ((∀ x ∈ l, a.freelist.size x < m) ∧ policy.run a.freelist m = some (a.freelist, -1)) ∨
      ∃ l₁ x l₂ t l' ss', l = l₁ ++ x :: l₂ ∧ m ≤ a.freelist.size x ∧
        policy.Picks (l.map a.freelist.block) m (a.freelist.block x) ∧
        policy.run a.freelist m = some (t, a.freelist.address x) ∧ a.freelist.address x ≠ -1 ∧
        l'.map t.block = l₁.map a.freelist.block ++ (a.freelist.block x).rest m ++
          l₂.map a.freelist.block ∧
        Inv scribble n { a with
          freelist := t
          alloclist := Alloclist.alloc ⟨name, a.freelist.address x, m⟩ a.alloclist } l' ss' := by
  obtain hnone | ⟨x, hx, hle, hpicks, hsome⟩ := h.inStep.policy h.gaps policy hm
  · exact .inl hnone
  · obtain ⟨l₁, l₂, rfl⟩ := List.append_of_mem hx
    obtain ⟨t, l', ss', halloc, hstep, hscribble, hblocks⟩ := h.inStep.alloc m
    let info : AllocInfo := { name := name, address := a.freelist.address x, size := m }
    have htiles : Tiles (Set.Ico 0 (n : ℤ))
        (info.block :: (l'.map t.block ++ a.alloclist.map AllocInfo.block)) := by
      have hold := h.tiles
      rw [List.map_append, List.map_cons, List.append_assoc, List.cons_append] at hold
      rw [hblocks]
      simpa [info, AllocInfo.block] using hold.takeFront hle
    obtain ⟨hstart, hn⟩ := start_nonneg htiles (b := info.block) (by simp) hm
    have hother : ∀ i ∈ a.alloclist, i.address ≠ info.address := fun i hi => by
      have hdisjoint := htiles.disjoint_of_mem (c := i.block) (by
        simp only [List.mem_append, List.mem_map]
        exact .inr ⟨i, hi, rfl⟩)
      exact (Block.start_ne hdisjoint hm (h.used i hi)).symm
    have hperm : (Alloclist.alloc info a.alloclist).Perm (info :: a.alloclist) :=
      Alloclist.alloc_perm a.alloclist
    refine .inr ⟨l₁, x, l₂, t, l', ss', rfl, hle, hpicks, ?_, ?_, hblocks,
      hscribble.trans h.scribble, h.page, hstep, ?_, ?_, fun hn b hb => ?_, h.sorted.alloc hother,
      fun i hi => ?_⟩
    · rw [hsome, halloc]
      rfl
    · intro e
      have hstart : 0 ≤ a.freelist.address x := hstart
      omega
    · refine htiles.perm ?_
      have hmap := (hperm.map AllocInfo.block).append_left (l'.map t.block)
      exact List.perm_middle.symm.trans hmap.symm
    · have hgaps := h.gaps
      rw [List.map_append, List.map_cons] at hgaps
      rw [hblocks]
      exact hgaps.takeFront m
    · have hb : b ∈ l₁.map a.freelist.block ++ (a.freelist.block x).rest m ++
          l₂.map a.freelist.block := hblocks ▸ hb
      have hpos := h.positive hn b
      simp only [List.map_append, List.map_cons, List.mem_append, List.mem_cons] at hb hpos
      obtain (hb | hb) | hb := hb
      · exact hpos (.inl hb)
      · exact (Block.mem_rest hb).2.2
      · exact hpos (.inr (.inr hb))
    · obtain rfl | hi := List.mem_cons.mp (hperm.mem_iff.mp hi)
      · exact hm
      · exact h.used i hi

theorem Inv.alloc (h : Inv scribble n a l ss) (name : String) {size : BitVec 64}
    (policy : Freelist.Policy) (hsize : 0 < (a.internalRoundup size).toNat) :
    ∃ a' l' ss', a.alloc name size policy = some a' ∧ Inv scribble n a' l' ss' := by
  obtain ⟨-, hnone⟩ | ⟨l₁, x, l₂, t, l', ss', -, -, -, hsome, haddress, -, hinv⟩ :=
    h.takes name policy hsize
  · exact ⟨a, l, ss, by simp [Allocator.alloc, hnone], h⟩
  · exact ⟨_, l', ss', by simp [Allocator.alloc, hsome, haddress], hinv⟩

/-- An allocated block goes back to the free ones. -/
theorem Inv.free (h : Inv scribble n a l ss) (hintact : a.Intact (.RL name)) :
    ∃ a' l' ss', a.free name = some a' ∧ Inv scribble n a' l' ss' := by
  obtain ⟨hfree, hfind⟩ | ⟨as₁, as₂, has, hfree⟩ := Alloclist.find_spec name a.alloclist
  · exact ⟨a, l, ss, by simp [Allocator.free, hfree, Alloclist.notFound], h⟩
  · set info := Alloclist.find name a.alloclist with hinfo
    have hmem : info ∈ a.alloclist := by
      rw [has]
      simp
    have hpos := h.used info hmem
    have hperm : (l.map a.freelist.block ++ a.alloclist.map AllocInfo.block).Perm
        (info.block :: (l.map a.freelist.block ++ (as₁ ++ as₂).map AllocInfo.block)) := by
      have hmiddle : (l.map a.freelist.block ++ as₁.map AllocInfo.block ++
          info.block :: as₂.map AllocInfo.block).Perm _ := List.perm_middle
      rw [has]
      simpa using hmiddle
    have htiles := h.tiles.perm hperm
    obtain ⟨hstart, hn⟩ := start_nonneg htiles (b := info.block) (by simp) hpos
    obtain ⟨t, l', ss', hrelease, hstep, hscribble, htiles', hgaps', hpos'⟩ :=
      h.inStep.release htiles h.gaps
        (fun b hb => by
          obtain rfl | hb := List.mem_cons.mp hb
          · exact hpos
          · exact h.positive hn b hb)
        (fun y hy he => hintact y (he ▸ h.inStep.blockAt h.gaps hy))
    refine ⟨{ a with alloclist := as₁ ++ as₂, freelist := t }, l', ss', ?_,
      hscribble.trans h.scribble, h.page, hstep, htiles', hgaps', fun _ => hpos', ?_,
      fun i hi => h.used i ?_⟩
    · have haddress : info.address ≠ -1 := fun e => by
        have hstart : 0 ≤ info.address := hstart
        omega
      simp [Allocator.free, hfree, haddress, hrelease]
    · have hsorted := h.sorted
      rw [has] at hsorted
      exact hsorted.sublist ((List.sublist_cons_self _ _).append_left as₁)
    · rw [has]
      simp only [List.mem_append, List.mem_cons] at hi ⊢
      tauto

theorem Inv.command (h : Inv scribble n a l ss) {c : Command} (hintact : a.Intact c) :
    ∃ a' l' ss', a.command c = some a' ∧ Inv scribble n a' l' ss' := by
  cases c with
  | RQ name size policy =>
    rw [Allocator.command]
    split
    · exact ⟨a, l, ss, rfl, h⟩
    · split
      · exact ⟨a, l, ss, rfl, h⟩
      · next hsize =>
        obtain ⟨k, hk, hpage⟩ := h.page
        exact h.alloc name policy (internalRoundup_pos hk hpage (not_le.mp hsize))
  | RL name =>
    rw [Allocator.command]
    split
    · exact ⟨a, l, ss, rfl, h⟩
    · exact h.free hintact

/-- What the two lists and the two rings say of each other and of the memory. -/
structure Consistent (n : ℕ) (a : Allocator) (l ss : List ℕ) : Prop where
  byAddress : IsRing a.freelist.next a.freelist.prev a.freelist.node l
  bySize : IsRing a.freelist.larger a.freelist.smaller a.freelist.node ss
  same : ss.Perm l
  sizes : ss.Pairwise fun x y => a.freelist.size x ≤ a.freelist.size y
  tiles : Tiles (Set.Ico 0 n) (l.map a.freelist.block ++ a.alloclist.map AllocInfo.block)
  allocated : a.alloclist.Pairwise fun i j => i.address < j.address
  free : l.Pairwise fun x y => a.freelist.address x < a.freelist.address y
  apart : l.Pairwise fun x y => a.freelist.address x + a.freelist.size x ≠ a.freelist.address y

theorem Inv.consistent (h : Inv scribble n a l ss) : a.Consistent n l ss where
  byAddress := h.inStep.byAddress
  bySize := h.inStep.bySize
  same := h.inStep.perm
  sizes := h.inStep.sorted
  tiles := h.tiles
  allocated := h.sorted
  free := (List.pairwise_map.mp h.gaps.sorted).imp fun hxy => hxy
  apart := (List.pairwise_map.mp h.gaps).imp fun hxy => hxy.ne

/-- Every run in which `free` leaves the links it is still asked for keeps the
memory tiled by the two lists, and the next such command is served too. -/
theorem run_consistent (scribble : ℕ → FreelistNode → FreelistNode) (n : ℕ) {pageSize : BitVec 64}
    (hpage : ∃ k < 64, pageSize.toNat = 2 ^ k)
    (hrun : machine.Run Intact (create scribble n pageSize) cs a) :
    (∃ l ss, a.Consistent n l ss) ∧
      ∀ c, a.Intact c → ∃ a' l ss, a.command c = some a' ∧ a'.Consistent n l ss := by
  obtain ⟨l, ss, hinv⟩ := hrun.invariant (I := fun a => ∃ l ss, Inv scribble n a l ss)
    (fun s c t ⟨l, ss, h⟩ hc hs => by
      obtain ⟨t', l', ss', hcommand, hinv⟩ := h.command hc
      obtain rfl := Option.some.inj (hcommand.symm.trans hs)
      exact ⟨l', ss', hinv⟩)
    ⟨[2], [2], inv_create scribble n hpage⟩
  refine ⟨⟨l, ss, hinv.consistent⟩, fun c hc => ?_⟩
  obtain ⟨a', l', ss', hcommand, hinv'⟩ := hinv.command hc
  exact ⟨a', l', ss', hcommand, hinv'.consistent⟩

/-- A block that is taken and given back before a free one, with a `free` that
leaves the node as it was. -/
theorem run_consistent_untouched :
    ∃ a, machine.exec (create (fun _ m => m) 8192 4096) [.RQ "a" 5 .firstFit, .RL "a"] = some a ∧
      ∃ l ss, a.Consistent 8192 l ss := by
  have hcreate := inv_create (fun _ m => m) 8192 (⟨12, by decide, by decide⟩ :
    ∃ k < 64, (4096 : BitVec 64).toNat = 2 ^ k)
  have halloc : Intact (create (fun _ m => m) 8192 4096) (.RQ "a" 5 .firstFit) := trivial
  obtain ⟨a₁, l₁, ss₁, h₁, hinv₁⟩ := hcreate.command halloc
  have hfree : a₁.Intact (.RL "a") := fun y _ m => by rw [hinv₁.scribble]
  obtain ⟨a₂, l₂, ss₂, h₂, hinv₂⟩ := hinv₁.command hfree
  have hrun : machine.Run Intact (create (fun _ m => m) 8192 4096)
      [.RQ "a" 5 .firstFit, .RL "a"] a₂ := .cons halloc h₁ (.cons hfree h₂ .nil)
  exact ⟨a₂, Machine.run_iff_exec.mp (hrun.mono fun _ _ _ => trivial),
    (run_consistent _ 8192 ⟨12, by decide, by decide⟩ hrun).1⟩

/-- With a `free` that clears the node, the same two commands end in a read
through `NULL`. -/
theorem exec_not_consistent :
    ¬∀ (scribble : ℕ → FreelistNode → FreelistNode) (n : ℕ) (pageSize : BitVec 64)
      (cs : List Command), (∃ k < 64, pageSize.toNat = 2 ^ k) →
      ∃ a, machine.exec (create scribble n pageSize) cs = some a ∧
        ∃ l ss, a.Consistent n l ss := by
  intro h
  obtain ⟨a, ha, -⟩ := h (fun _ _ => ⟨0, 0, 0, 0, 0, 0⟩) 8192 4096
    [.RQ "a" 5 .firstFit, .RL "a"] ⟨12, by decide, by decide⟩
  have hnone : (machine.exec (create (fun _ _ => ⟨0, 0, 0, 0, 0, 0⟩) 8192 4096)
      [.RQ "a" 5 .firstFit, .RL "a"]).isNone := by decide
  rw [ha] at hnone
  cases hnone
end Allocator

end Course.Os
