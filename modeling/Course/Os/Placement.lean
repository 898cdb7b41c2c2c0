import Course.Os.Allocator

/-! Which block `allocator_alloc` takes, in every state that the calls of an allocator
lead to. -/

open Course.Lib

namespace Course.Os.Allocator

/-- `allocator_alloc` with the offset in `memory` that it returns; `none` is `NULL`. -/
def allocate (a : Allocator) (name : String) (size : BitVec 64) (policy : Freelist.Policy) :
    Option (Allocator × Option ℤ) := do
  let roundedSize := (a.internalRoundup size).toNat
  let (freelist, address) ← policy.run a.freelist roundedSize
  if address = -1 then some ({ a with freelist := freelist }, none)
  else
    let info : AllocInfo := { name := name, address := address, size := roundedSize }
    some ({ a with freelist := freelist, alloclist := a.alloclist.alloc info }, some address)

theorem allocate_fst (a : Allocator) (name : String) (size : BitVec 64) (policy : Freelist.Policy) :
    (a.allocate name size policy).map Prod.fst = a.alloc name size policy := by
  rw [allocate, alloc]
  cases policy.run a.freelist (a.internalRoundup size).toNat with
  | none => rfl
  | some r =>
    obtain ⟨freelist, address⟩ := r
    by_cases haddress : address = -1 <;> simp [haddress]

/-- The calls of a user; `size` is an `int`. -/
inductive Call
  | alloc (name : String) (size : BitVec 32) (policy : Freelist.Policy)
  | free (name : String)

def calls : Machine Allocator Call where
  step a
    | .alloc name size policy => a.alloc name (size.signExtend 64) policy
    | .free name => a.free name

/-- Only positive sizes are asked for. -/
def Positive : Call → Prop
  | .alloc _ size _ => 0 < size.toInt
  | .free _ => True

/-- Besides, `free` leaves the link in the free block that follows the released one. -/
def Regular (a : Allocator) : Call → Prop
  | .alloc _ size _ => 0 < size.toInt
  | .free name => a.Intact (.RL name)

/-- `m` bytes are taken from the start of the block among the free ones that the policy
is for, if there is one; otherwise nothing changes. -/
structure Placed (a : Allocator) (name : String) (policy : Freelist.Policy) (m : ℕ)
    (free : List Block) (a' : Allocator) (address : Option ℤ) : Prop where
  succeeds : address ≠ none ↔ ∃ b ∈ free, m ≤ b.length
  takes : ∀ p, address = some p → ∃ left b right, free = left ++ b :: right ∧ b.start = p ∧
    m ≤ b.length ∧ policy.Picks free m b ∧
    a'.freelist.blocks = some (left ++ b.rest m ++ right) ∧
    a'.alloclist.Perm (⟨name, p, m⟩ :: a.alloclist)
  fails : address = none → a' = a

/-- The law of placement for the next call of `allocator_alloc`. -/
def Places (a : Allocator) : Prop :=
  ∀ (name : String) (size : BitVec 32) (policy : Freelist.Policy), 0 < size.toInt →
    ∃ m free a' address, IsLeast {m : ℕ | size.toInt ≤ m ∧ a.pageSize.toNat ∣ m} m ∧
      a.freelist.blocks = some free ∧
      a.allocate name (size.signExtend 64) policy = some (a', address) ∧
      a.Placed name policy m free a' address

variable {scribble : ℕ → FreelistNode → FreelistNode} {a a' : Allocator} {l ss : List ℕ} {n : ℕ}

theorem Inv.places (h : Inv scribble n a l ss) : a.Places := by
  intro name size policy hsize
  obtain ⟨k, hk, hpage⟩ := h.page
  have hpos := internalRoundup_pos hk hpage hsize
  have hleast := internalRoundup_isLeast hk hpage hsize
  set m := (a.internalRoundup (size.signExtend 64)).toNat with hm
  obtain ⟨hnone, hrun⟩ | ⟨l₁, x, l₂, t, l', ss', rfl, hle, hpicks, hrun, haddress, hblocks, hinv⟩ :=
    h.takes name policy hpos
  · refine ⟨m, l.map a.freelist.block, a, none, hleast, h.inStep.blocks, ?_, ?_⟩
    · simp [allocate, ← hm, hrun]
    · refine ⟨?_, nofun, fun _ => rfl⟩
      have hsmall : ¬∃ b ∈ l.map a.freelist.block, m ≤ b.length := by
        rintro ⟨b, hb, hle⟩
        obtain ⟨x, hx, rfl⟩ := List.mem_map.mp hb
        exact absurd hle (hnone x hx).not_ge
      exact iff_of_false (fun hne => hne rfl) hsmall
  · let info : AllocInfo := ⟨name, a.freelist.address x, m⟩
    refine ⟨m, _, { a with freelist := t, alloclist := Alloclist.alloc info a.alloclist },
      some (a.freelist.address x), hleast, h.inStep.blocks, ?_, ?_⟩
    · simp [allocate, ← hm, hrun, haddress, info]
    · refine ⟨iff_of_true (by simp) ⟨a.freelist.block x, by simp, hle⟩, ?_, nofun⟩
      rintro p hp
      obtain rfl := Option.some.inj hp
      refine ⟨l₁.map a.freelist.block, a.freelist.block x, l₂.map a.freelist.block, by simp, rfl,
        hle, hpicks, ?_, Alloclist.alloc_perm _⟩
      rw [← hblocks]
      exact hinv.inStep.blocks

theorem Inv.call (h : Inv scribble n a l ss) {c : Call} (hc : a.Regular c) :
    ∃ a' l' ss', calls.step a c = some a' ∧ Inv scribble n a' l' ss' := by
  cases c with
  | alloc name size policy =>
    obtain ⟨k, hk, hpage⟩ := h.page
    exact h.alloc name policy (internalRoundup_pos hk hpage hc)
  | free name => exact h.free hc

/-- In every run in which `free` leaves the links it is still asked for, every call of
`allocator_alloc` obeys the law of placement. -/
theorem run_places (scribble : ℕ → FreelistNode → FreelistNode) (n : ℕ) {pageSize : BitVec 64}
    {cs : List Call} (hpage : ∃ k < 64, pageSize.toNat = 2 ^ k)
    (hrun : calls.Run Regular (create scribble n pageSize) cs a) : a.Places := by
  obtain ⟨l, ss, hinv⟩ := hrun.invariant (I := fun a => ∃ l ss, Inv scribble n a l ss)
    (fun s c t ⟨l, ss, h⟩ hc hs => by
      obtain ⟨t', l', ss', hcall, hinv⟩ := h.call hc
      obtain rfl := Option.some.inj (hcall.symm.trans hs)
      exact ⟨l', ss', hinv⟩)
    ⟨[2], [2], inv_create scribble n hpage⟩
  exact hinv.places

/-- A block that is taken and given back before a free one, with a `free` that
leaves the node as it was. -/
theorem run_places_untouched :
    ∃ a, calls.exec (create (fun _ m => m) 8192 4096) [.alloc "a" 5 .firstFit, .free "a"] = some a ∧
      a.Places := by
  have hcreate := inv_create (fun _ m => m) 8192 (⟨12, by decide, by decide⟩ :
    ∃ k < 64, (4096 : BitVec 64).toNat = 2 ^ k)
  have halloc : Regular (create (fun _ m => m) 8192 4096) (.alloc "a" 5 .firstFit) := by
    rw [Regular]
    decide
  obtain ⟨a₁, l₁, ss₁, h₁, hinv₁⟩ := hcreate.call halloc
  have hfree : a₁.Regular (.free "a") := fun y _ m => by rw [hinv₁.scribble]
  obtain ⟨a₂, l₂, ss₂, h₂, hinv₂⟩ := hinv₁.call hfree
  have hrun : calls.Run Regular (create (fun _ m => m) 8192 4096)
      [.alloc "a" 5 .firstFit, .free "a"] a₂ := .cons halloc h₁ (.cons hfree h₂ .nil)
  exact ⟨a₂, Machine.run_iff_exec.mp (hrun.mono fun _ _ _ => trivial),
    run_places _ 8192 ⟨12, by decide, by decide⟩ hrun⟩

/-- With a `free` that leaves other links in the node, the ring by address loses the
block that is still in the ring by size, and `best_fit` takes 8192 bytes where the list
has a block of 4096 bytes. -/
theorem exec_not_places :
    ¬∀ (scribble : ℕ → FreelistNode → FreelistNode) (n : ℕ) (pageSize : BitVec 64)
      (cs : List Call) (a : Allocator), (∃ k < 64, pageSize.toNat = 2 ^ k) →
      (∀ c ∈ cs, Positive c) → calls.exec (create scribble n pageSize) cs = some a →
      a.Places := by
  intro h
  let scribble : ℕ → FreelistNode → FreelistNode := fun _ m =>
    ⟨8192, 4096, 1, if m.address = 8192 then 1 else 2, 0, 0⟩
  let start := create scribble 8192 4096
  let cs : List Call := [.alloc "a" 5 .firstFit, .free "a"]
  have hsome : (calls.exec start cs).isSome := by decide
  have hlengths : (calls.exec start cs).bind (fun a =>
      a.freelist.blocks.map fun bs => bs.map Block.length) = some [4096] := by decide
  have haddress : (calls.exec start cs).bind (fun a =>
      (a.allocate "b" (BitVec.signExtend 64 8192#32) .bestFit).map Prod.snd) =
        some (some 0) := by decide
  obtain ⟨a, ha⟩ := Option.isSome_iff_exists.mp hsome
  rw [ha, Option.bind_some] at hlengths haddress
  obtain ⟨m, free, a', address, ⟨⟨hm, -⟩, -⟩, hfree, hresult, hplaced⟩ :=
    h scribble 8192 4096 cs a ⟨12, by decide, by decide⟩ (by simp [cs, Positive]) ha
      "b" 8192#32 .bestFit (by decide)
  rw [hfree, Option.map_some] at hlengths
  rw [hresult, Option.map_some] at haddress
  obtain rfl : address = some 0 := Option.some.inj haddress
  obtain ⟨b, hb, hle⟩ := hplaced.succeeds.mp (by simp)
  have hlength : b.length ∈ [4096] := Option.some.inj hlengths ▸ List.mem_map_of_mem hb
  have hsize : (8192#32).toInt = 8192 := by decide
  simp only [List.mem_singleton] at hlength
  omega

end Course.Os.Allocator
