import Course.Os.VirtualMemory

/-! Runs of reads and writes of the virtual memory: the tables stay consistent,
and as long as no dirty frame is given away the bytes are those of one flat
memory. -/

open Course.Lib

namespace Course.Os.VirtualMemory

variable {vm vm' : VirtualMemory} {frameCount tlbCapacity page f : ℕ} {pages : List ℕ}

inductive Request
  | read (address : BitVec 64)
  | write (address : BitVec 64) (value : Int8)

def Request.address : Request → BitVec 64
  | .read address => address
  | .write address _ => address

def serve (vm : VirtualMemory) : Request → Option VirtualMemory
  | .read address => (vm.read address).map Prod.fst
  | .write address value => vm.write address value

def machine : Machine VirtualMemory Request where
  step := serve

theorem pageOf_eq (a : BitVec 64) : pageOf a = a.toNat / 256 % 256 := by
  have hmask : (0xFF00#64).toNat = (2 ^ 8 - 1) <<< 8 := by decide
  rw [pageOf, BitVec.toNat_ushiftRight, BitVec.toNat_and]
  show (a.toNat &&& (0xFF00#64).toNat) >>> 8 = _
  rw [Nat.shiftRight_and_distrib, hmask, Nat.shiftLeft_shiftRight, Nat.and_two_pow_sub_one_eq_mod,
    Nat.shiftRight_eq_div_pow]

theorem offsetOf_eq (a : BitVec 64) : offsetOf a = a.toNat % 256 := by
  have hmask : (0x00FF#64).toNat = 2 ^ 8 - 1 := by decide
  rw [offsetOf, BitVec.toNat_and]
  show a.toNat &&& (0x00FF#64).toNat = _
  rw [hmask, Nat.and_two_pow_sub_one_eq_mod]

theorem pageOf_lt (a : BitVec 64) : pageOf a < 256 := by
  rw [pageOf_eq]
  exact Nat.mod_lt _ (by decide)

theorem offsetOf_lt (a : BitVec 64) : offsetOf a < 256 := by
  rw [offsetOf_eq]
  exact Nat.mod_lt _ (by decide)

/-- A 16-bit address is its page and its offset. -/
theorem pageOf_offsetOf (h : a.toNat < 2 ^ 16) : pageOf a * 256 + offsetOf a = a.toNat := by
  rw [pageOf_eq, offsetOf_eq]
  omega

theorem Inv.getPhysicalAddress (h : vm.Inv frameCount tlbCapacity pages) (hcount : 1 ≤ frameCount)
    (a : BitVec 64) :
    ∃ vm' f, vm.getPhysicalAddress a = some (vm', f * 256 + offsetOf a) ∧
      vm'.Inv frameCount tlbCapacity (vm.reordered frameCount (pageOf a) pages) ∧
      f < frameCount ∧ vm.Access vm' (pageOf a) f := by
  obtain ⟨slots, htlb⟩ := h.tlb
  have h₁ := h.withCaches h.cache rfl (List.Perm.refl _) htlb rfl h.maps vm.pageFaults
    (vm.totalAccesses + 1)
  obtain ⟨vm', f, hframe, hinv, hf, haccess⟩ := h₁.frameOf hcount (pageOf_lt a)
  refine ⟨vm', f, ?_, hinv, hf, haccess.congr rfl rfl rfl rfl⟩
  simp [VirtualMemory.getPhysicalAddress, hframe, hinv.pageSize]

/-- New bytes and new dirty bits in the same frames. -/
theorem Inv.withMemory {m : PhysicalMemory} (h : vm.Inv frameCount tlbCapacity pages)
    (hsize : m.memorySize = vm.physicalMemory.memorySize)
    (hframes : ∀ f, ∃ dirty, m.frames f = { vm.physicalMemory.frames f with dirty := dirty }) :
    { vm with physicalMemory := m }.Inv frameCount tlbCapacity pages where
  pageSize := h.pageSize
  memorySize := hsize.trans h.memorySize
  readOnly := h.readOnly
  capacity := h.capacity
  cache := h.cache
  nodup := h.nodup
  mem_iff := h.mem_iff
  pageNumber := h.pageNumber
  frame_inj := h.frame_inj
  frames := fun f => by
    obtain ⟨dirty, hf⟩ := hframes f
    simpa [hf] using h.frames f
  tlb := h.tlb
  tlbCapacity_eq := h.tlbCapacity_eq
  tlbCapacity_pos := h.tlbCapacity_pos
  maps := h.maps
  frame_lt := h.frame_lt
  frame_valid := fun f => by
    obtain ⟨dirty, hf⟩ := hframes f
    simpa [hf] using h.frame_valid f
  length_le := h.length_le

theorem div_mod_page {o : ℕ} (f : ℕ) (ho : o < 256) :
    (f * 256 + o) / 256 = f ∧ (f * 256 + o) % 256 = o := by omega

theorem Inv.read (h : vm.Inv frameCount tlbCapacity pages) (hcount : 1 ≤ frameCount)
    (a : BitVec 64) :
    ∃ vm' f, vm.read a = some (vm', vm'.physicalMemory.memory (f * 256 + offsetOf a)) ∧
      vm'.Inv frameCount tlbCapacity (vm.reordered frameCount (pageOf a) pages) ∧
      vm.Access vm' (pageOf a) f := by
  obtain ⟨vm', f, haddress, hinv, -, haccess⟩ := h.getPhysicalAddress hcount a
  refine ⟨vm', f, ?_, hinv, haccess⟩
  obtain ⟨hdiv, hmod⟩ := div_mod_page f (offsetOf_lt a)
  simp [VirtualMemory.read, haddress, hinv.pageSize, hdiv, hmod, PhysicalMemory.read,
    PhysicalMemory.getFrameAddress, (hinv.frames f).2]

theorem Inv.write (h : vm.Inv frameCount tlbCapacity pages) (hcount : 1 ≤ frameCount)
    (a : BitVec 64) (value : Int8) :
    ∃ vm' f, vm.write a value =
        some { vm' with physicalMemory := vm'.physicalMemory.write f (offsetOf a) value } ∧
      vm'.Inv frameCount tlbCapacity (vm.reordered frameCount (pageOf a) pages) ∧
      vm.Access vm' (pageOf a) f ∧
      { vm' with physicalMemory := vm'.physicalMemory.write f (offsetOf a) value }.Inv
        frameCount tlbCapacity (vm.reordered frameCount (pageOf a) pages) := by
  obtain ⟨vm', f, haddress, hinv, -, haccess⟩ := h.getPhysicalAddress hcount a
  obtain ⟨hdiv, hmod⟩ := div_mod_page f (offsetOf_lt a)
  refine ⟨vm', f, ?_, hinv, haccess, hinv.withMemory rfl fun g => ?_⟩
  · simp [VirtualMemory.write, haddress, hinv.pageSize, hdiv, hmod]
  · by_cases hg : g = f
    · exact ⟨true, by simp [PhysicalMemory.write, PhysicalMemory.setFrame, hg]⟩
    · exact ⟨(vm'.physicalMemory.frames g).dirty,
        by simp [PhysicalMemory.write, PhysicalMemory.setFrame, hg]⟩

theorem Inv.serve (h : vm.Inv frameCount tlbCapacity pages) (hcount : 1 ≤ frameCount)
    (r : Request) :
    ∃ vm' f, vm.serve r = some vm' ∧
      vm'.Inv frameCount tlbCapacity (vm.reordered frameCount (pageOf r.address) pages) ∧
      ∃ vm₁, vm.Access vm₁ (pageOf r.address) f ∧ vm'.pageTable = vm₁.pageTable := by
  cases r with
  | read a =>
    obtain ⟨vm', f, hread, hinv, haccess⟩ := h.read hcount a
    exact ⟨vm', f, by simp [VirtualMemory.serve, hread], hinv, vm', haccess, rfl⟩
  | write a value =>
    obtain ⟨vm', f, hwrite, -, haccess, hinv⟩ := h.write hcount a value
    exact ⟨_, f, hwrite, hinv, vm', haccess, rfl⟩

/-- What the page table, the two LRU lists and the TLB say of each other. -/
structure Consistent (vm : VirtualMemory) (frameCount tlbCapacity : ℕ) : Prop where
  pageCache : ∃ pages, vm.pageCache.Holds pages ∧ pages.Nodup ∧
    ∀ p, p ∈ pages ↔ p < 256 ∧ (vm.pageTable p).valid
  frame_lt : ∀ p < 256, (vm.pageTable p).valid → (vm.pageTable p).frameNumber < frameCount
  frame_inj : ∀ p < 256, ∀ q < 256, (vm.pageTable p).valid → (vm.pageTable q).valid →
    (vm.pageTable p).frameNumber = (vm.pageTable q).frameNumber → p = q
  tlb : ∃ slots, vm.TLB.cache.Holds slots ∧ slots.Nodup ∧ slots.length ≤ tlbCapacity ∧
    (∀ i, i ∈ slots ↔ i < tlbCapacity ∧ (vm.TLB.entries i).valid) ∧
    ∀ i ∈ slots, ∀ j ∈ slots,
      (vm.TLB.entries i).pageNumber = (vm.TLB.entries j).pageNumber → i = j
  maps : ∀ i < tlbCapacity, (vm.TLB.entries i).valid →
    (vm.TLB.entries i).pageNumber < 256 ∧
      (vm.pageTable (vm.TLB.entries i).pageNumber).valid ∧
      (vm.pageTable (vm.TLB.entries i).pageNumber).frameNumber = (vm.TLB.entries i).frameNumber

theorem Inv.consistent (h : vm.Inv frameCount tlbCapacity pages) :
    vm.Consistent frameCount tlbCapacity where
  pageCache := ⟨pages, h.cache, h.nodup, h.mem_iff⟩
  frame_lt := fun p hp hvalid =>
    (h.frame_lt p ((h.mem_iff p).mpr ⟨hp, hvalid⟩)).trans_le h.length_le
  frame_inj := fun p hp q hq hpv hqv =>
    h.frame_inj p ((h.mem_iff p).mpr ⟨hp, hpv⟩) q ((h.mem_iff q).mpr ⟨hq, hqv⟩)
  tlb := by
    obtain ⟨slots, htlb⟩ := h.tlb
    rw [← h.tlbCapacity_eq]
    exact ⟨slots, htlb.cache, htlb.nodup, htlb.length_le, htlb.mem_iff, htlb.injOn⟩
  maps := fun i hi hvalid => by
    rw [← h.tlbCapacity_eq] at hi
    obtain ⟨hp, hf⟩ := h.maps _ _ ⟨i, hi, hvalid, rfl, rfl⟩
    exact ⟨h.page_lt hp, ((h.mem_iff _).mp hp).2, hf⟩

/-- Every run of reads and writes ends, having found a slot and a frame each
time it needed one, with consistent tables. -/
theorem exec_consistent (hcount : 1 ≤ frameCount) (htlb : 1 ≤ tlbCapacity)
    (memory content : ℕ → Int8) (rs : List Request) :
    ∃ vm, machine.exec (create 256 tlbCapacity (frameCount * 256) memory content) rs = some vm ∧
      vm.Consistent frameCount tlbCapacity := by
  obtain ⟨vm, hvm, pages, hinv⟩ := machine.exec_total
    (I := fun vm => ∃ pages, vm.Inv frameCount tlbCapacity pages)
    (fun vm r ⟨pages, h⟩ => by
      obtain ⟨vm', f, hserve, hinv, -⟩ := h.serve hcount r
      exact ⟨vm', hserve, _, hinv⟩)
    ⟨[], inv_create htlb memory content⟩ rs
  exact ⟨vm, hvm, hinv.consistent⟩

/-- Three pages through two frames and a TLB of one entry. -/
theorem exec_consistent_evicting :
    ∃ vm, machine.exec (create 256 1 (2 * 256) (fun _ => 0) (fun _ => 1))
        [.read 0x0000, .write 0x0105 7, .read 0x0200, .read 0x0003] = some vm ∧
      vm.Consistent 2 1 :=
  exec_consistent (by decide) (by decide) _ _ _

/-! ### The bytes -/

/-- The byte of the virtual memory at an offset in a page: in its frame, or only
in the backing store. -/
def byteAt (vm : VirtualMemory) (page offset : ℕ) : Int8 :=
  if (vm.pageTable page).valid then
    vm.physicalMemory.memory ((vm.pageTable page).frameNumber * 256 + offset)
  else vm.backingStore.content (page * 256 + offset)

/-- Bringing in `page` gives away a frame with unsaved bytes. -/
def EvictsDirty (vm : VirtualMemory) (page : ℕ) : Prop :=
  (vm.pageTable page).valid = false ∧ ∃ v, vm.victim = some v ∧
    (vm.physicalMemory.frames (vm.pageTable v).frameNumber).dirty

instance decidableEvictsDirty (vm : VirtualMemory) (page : ℕ) : Decidable (vm.EvictsDirty page) :=
  decidable_of_iff ((vm.pageTable page).valid = false ∧ vm.victim.any fun v =>
    (vm.physicalMemory.frames (vm.pageTable v).frameNumber).dirty) (by
      simp only [EvictsDirty, Option.any_eq_true])

/-- The frames that are not dirty agree with the backing store. -/
def Clean (vm : VirtualMemory) : Prop :=
  ∀ p < 256, (vm.pageTable p).valid →
    (vm.physicalMemory.frames (vm.pageTable p).frameNumber).dirty = false → ∀ o < 256,
      vm.physicalMemory.memory ((vm.pageTable p).frameNumber * 256 + o) =
        vm.backingStore.content (p * 256 + o)

namespace Access

variable {q o : ℕ}

theorem valid (ha : vm.Access vm' page f) :
    (vm'.pageTable page).valid ∧ (vm'.pageTable page).frameNumber = f := by
  cases ha with
  | resident hvalid hframe htable => exact htable ▸ ⟨hvalid, hframe⟩
  | fault _ _ hvalid hframe => exact ⟨hvalid, hframe⟩

/-- A page other than the one brought in and the one evicted keeps its entry,
and its bytes where it has a frame. -/
theorem kept (ha : vm.Access vm' page f) (hvalid : (vm.pageTable page).valid = false)
    (hq : q < 256) (hne : q ≠ page) (hvictim : vm.victim ≠ some q) :
    vm'.pageTable q = vm.pageTable q ∧ ((vm.pageTable q).valid →
      (vm.pageTable q).frameNumber ≠ f ∧ ∀ o < 256,
        vm'.physicalMemory.memory ((vm.pageTable q).frameNumber * 256 + o) =
          vm.physicalMemory.memory ((vm.pageTable q).frameNumber * 256 + o)) := by
  cases ha with
  | resident hvalid' => simp [hvalid'] at hvalid
  | fault _ hfree _ _ hkept _ hmemory =>
    refine ⟨hkept q hne hvictim, fun hqv => ?_⟩
    have hqf : (vm.pageTable q).frameNumber ≠ f := fun e => hvictim ((hfree q hq hqv).mp e)
    refine ⟨hqf, fun o ho => ?_⟩
    rw [hmemory, if_neg (by omega)]

theorem clean (ha : vm.Access vm' page f) (hclean : vm.Clean) : vm'.Clean := by
  intro p hp hvalid hdirty o ho
  cases ha with
  | resident _ _ htable hmemory hcontent =>
    rw [htable] at hvalid hdirty ⊢
    rw [hmemory] at hdirty ⊢
    rw [hcontent]
    exact hclean p hp hvalid hdirty o ho
  | fault hinvalid hfree hvalid' hframe hkept hevicted hmemory hcontent hcleanf hframes =>
    by_cases hpage : p = page
    · subst hpage
      rw [hframe, hmemory, if_pos (by omega), hcontent, Nat.add_sub_cancel_left]
    · by_cases hvictim : vm.victim = some p
      · simp [hevicted p hpage hvictim] at hvalid
      · have hkept' := (fault hinvalid hfree hvalid' hframe hkept hevicted hmemory hcontent hcleanf
          hframes : vm.Access vm' page f).kept hinvalid hp hpage hvictim
        rw [hkept'.1] at hvalid hdirty ⊢
        obtain ⟨hne, hbytes⟩ := hkept'.2 hvalid
        rw [hframes _ hne] at hdirty
        rw [hbytes o ho, hcontent]
        exact hclean p hp hvalid hdirty o ho

theorem byteAt_page (ha : vm.Access vm' page f) (ho : o < 256) :
    vm'.byteAt page o = vm.byteAt page o := by
  cases ha with
  | resident _ _ htable hmemory hcontent => simp only [byteAt, htable, hmemory, hcontent]
  | fault hinvalid _ hvalid hframe _ _ hmemory =>
    rw [byteAt, if_pos hvalid, byteAt, if_neg (by simp [hinvalid]), hframe, hmemory,
      if_pos (by omega), Nat.add_sub_cancel_left]

/-- No byte changes on the way in and out of the frames, unless a dirty frame
was given away. -/
theorem byteAt_eq (ha : vm.Access vm' page f) (hclean : vm.Clean) (hdirty : ¬vm.EvictsDirty page)
    (hvictim : ∀ v, vm.victim = some v → (vm.pageTable v).valid) (hq : q < 256) (ho : o < 256) :
    vm'.byteAt q o = vm.byteAt q o := by
  have hpageByte := ha.byteAt_page ho
  cases ha with
  | resident _ _ htable hmemory hcontent => simp only [byteAt, htable, hmemory, hcontent]
  | fault hinvalid hfree hvalid hframe hkept hevicted hmemory hcontent hcleanf hframes =>
    by_cases hpage : q = page
    · exact hpage ▸ hpageByte
    · by_cases hv : vm.victim = some q
      · have hqv := hvictim q hv
        have hqd : (vm.physicalMemory.frames (vm.pageTable q).frameNumber).dirty = false := by
          by_contra hd
          exact hdirty ⟨hinvalid, q, hv, by simpa using hd⟩
        rw [byteAt, if_neg (by simp [hevicted q hpage hv]), byteAt, if_pos hqv, hcontent,
          hclean q hq hqv hqd o ho]
      · have hkept' := (fault hinvalid hfree hvalid hframe hkept hevicted hmemory hcontent hcleanf
          hframes : vm.Access vm' page f).kept hinvalid hq hpage hv
        rw [byteAt, byteAt, hkept'.1, hcontent]
        split
        · next hqv => exact (hkept'.2 hqv).2 o ho
        · rfl

end Access

/-- The flat memory that `serve` is meant to be: one byte for each address. -/
def store (bytes : BitVec 64 → Int8) : Request → BitVec 64 → Int8
  | .read _ => bytes
  | .write address value => Function.update bytes address value

/-- The byte last written to `a` by `rs`, or else the one of the backing store. -/
def lastWritten (content : ℕ → Int8) (rs : List Request) (a : BitVec 64) : Int8 :=
  rs.foldl store (fun b => content b.toNat) a

/-- The virtual memory shows the flat memory `bytes`. -/
structure Shows (frameCount tlbCapacity : ℕ) (vm : VirtualMemory) (bytes : BitVec 64 → Int8) :
    Prop where
  inv : ∃ pages, vm.Inv frameCount tlbCapacity pages
  clean : vm.Clean
  byteAt : ∀ a : BitVec 64, a.toNat < 2 ^ 16 → vm.byteAt (pageOf a) (offsetOf a) = bytes a

theorem Inv.victim_valid (h : vm.Inv frameCount tlbCapacity pages) (hv : vm.victim = some v) :
    (vm.pageTable v).valid := by
  rw [h.victim_eq] at hv
  split at hv
  · exact ((h.mem_iff v).mp (List.mem_of_mem_head? hv)).2
  · cases hv

theorem byteAt_write (h : vm.Inv frameCount tlbCapacity pages) (hp : page < 256)
    (hvalid : (vm.pageTable page).valid) (value : Int8) {q o o' : ℕ} (hq : q < 256)
    (ho : o < 256) (ho' : o' < 256) :
    byteAt { vm with
      physicalMemory := vm.physicalMemory.write (vm.pageTable page).frameNumber o value } q o' =
      if q = page ∧ o' = o then value else vm.byteAt q o' := by
  have hmem : ∀ r < 256, (vm.pageTable r).valid → r ∈ pages := fun r hr hrv =>
    (h.mem_iff r).mpr ⟨hr, hrv⟩
  by_cases hqp : q = page
  · subst hqp
    by_cases hoo : o' = o
    · simp [byteAt, hvalid, PhysicalMemory.write, PhysicalMemory.setFrame,
        PhysicalMemory.getFrameAddress, (h.frames _).2, hoo]
    · simp [byteAt, hvalid, PhysicalMemory.write, PhysicalMemory.setFrame,
        PhysicalMemory.getFrameAddress, (h.frames _).2, hoo]
  · by_cases hqv : (vm.pageTable q).valid
    · have hne : (vm.pageTable q).frameNumber ≠ (vm.pageTable page).frameNumber := fun e =>
        hqp (h.frame_inj q (hmem q hq hqv) page (hmem page hp hvalid) e)
      have haddr : (vm.pageTable q).frameNumber * 256 + o' ≠
          (vm.pageTable page).frameNumber * 256 + o := by omega
      simp [byteAt, hqv, hqp, PhysicalMemory.write, PhysicalMemory.setFrame,
        PhysicalMemory.getFrameAddress, (h.frames _).2, haddr]
    · simp [byteAt, hqv, hqp]

theorem clean_write (h : vm.Inv frameCount tlbCapacity pages) (hclean : vm.Clean)
    (hp : page < 256) (hvalid : (vm.pageTable page).valid) (value : Int8) (ho : o < 256) :
    Clean { vm with
      physicalMemory := vm.physicalMemory.write (vm.pageTable page).frameNumber o value } := by
  intro q hq hqv hqd o' ho'
  have hqf : (vm.pageTable q).frameNumber ≠ (vm.pageTable page).frameNumber := fun e => by
    simp [PhysicalMemory.write, PhysicalMemory.setFrame, e] at hqd
  have hqp : q ≠ page := fun e => hqf (e ▸ rfl)
  have hbyte := byteAt_write h hp hvalid value hq ho ho'
  rw [if_neg (by simp [hqp])] at hbyte
  rw [byteAt, if_pos hqv, byteAt, if_pos hqv] at hbyte
  refine hbyte.trans (hclean q hq hqv ?_ o' ho')
  simpa [PhysicalMemory.write, PhysicalMemory.setFrame, hqf] using hqd

theorem Shows.access (h : Shows frameCount tlbCapacity vm bytes)
    (hinv : vm'.Inv frameCount tlbCapacity pages) (ha : vm.Access vm' page f)
    (hdirty : ¬vm.EvictsDirty page) : Shows frameCount tlbCapacity vm' bytes := by
  obtain ⟨pages₀, h₀⟩ := h.inv
  refine ⟨⟨pages, hinv⟩, ha.clean h.clean, fun a ha' => ?_⟩
  rw [ha.byteAt_eq h.clean hdirty (fun v => h₀.victim_valid) (pageOf_lt a) (offsetOf_lt a)]
  exact h.byteAt a ha'

/-- The requests for which the flat memory is kept. -/
def Keeps (vm : VirtualMemory) (r : Request) : Prop :=
  r.address.toNat < 2 ^ 16 ∧ ¬vm.EvictsDirty (pageOf r.address)

instance decidableKeeps (vm : VirtualMemory) (r : Request) : Decidable (vm.Keeps r) :=
  inferInstanceAs (Decidable (_ ∧ _))

theorem Shows.serve (hcount : 1 ≤ frameCount) (h : Shows frameCount tlbCapacity vm bytes)
    (hr : vm.Keeps r) (hs : vm.serve r = some vm') :
    Shows frameCount tlbCapacity vm' (store bytes r) := by
  obtain ⟨pages, hinv⟩ := h.inv
  obtain ⟨haddress, hdirty⟩ := hr
  cases r with
  | read a =>
    obtain ⟨vm₁, f, hread, hinv₁, haccess⟩ := hinv.read hcount a
    obtain rfl : vm₁ = vm' := by simpa [VirtualMemory.serve, hread] using hs
    exact h.access hinv₁ haccess hdirty
  | write a value =>
    obtain ⟨vm₁, f, hwrite, hinv₁, haccess, hinv₂⟩ := hinv.write hcount a value
    obtain rfl := Option.some.inj (hwrite.symm.trans hs)
    have h₁ := h.access hinv₁ haccess hdirty
    obtain ⟨hvalid, rfl⟩ := haccess.valid
    refine ⟨⟨_, hinv₂⟩,
      clean_write hinv₁ h₁.clean (pageOf_lt a) hvalid value (offsetOf_lt a), fun b hb => ?_⟩
    rw [byteAt_write hinv₁ (pageOf_lt a) hvalid value (pageOf_lt b) (offsetOf_lt a)
      (offsetOf_lt b), h₁.byteAt b hb]
    have hiff : pageOf b = pageOf a ∧ offsetOf b = offsetOf a ↔ b = a := by
      refine ⟨fun ⟨hpage, hoffset⟩ => ?_, fun e => e ▸ ⟨rfl, rfl⟩⟩
      apply BitVec.eq_of_toNat_eq
      rw [← pageOf_offsetOf hb, hpage, hoffset]
      exact pageOf_offsetOf haddress
    simp only [hiff, store, Function.update_apply]

/-- A run that gives away no dirty frame leaves every address with the byte last
written to it. -/
theorem read_lastWritten (hcount : 1 ≤ frameCount) (htlb : 1 ≤ tlbCapacity)
    (memory content : ℕ → Int8)
    (hrun : machine.Run Keeps (create 256 tlbCapacity (frameCount * 256) memory content) rs vm)
    (a : BitVec 64) (ha : a.toNat < 2 ^ 16) :
    ∃ vm', vm.read a = some (vm', lastWritten content rs a) := by
  have hstart : Shows frameCount tlbCapacity
      (create 256 tlbCapacity (frameCount * 256) memory content) (fun b => content b.toNat) := by
    refine ⟨⟨[], inv_create htlb memory content⟩, fun p _ hvalid => ?_, fun b hb => ?_⟩
    · simp [create] at hvalid
    · simp [byteAt, create, File.fopenRb, pageOf_offsetOf hb]
  have hshows := hrun.simulates (R := Shows frameCount tlbCapacity) (f := store)
    (fun _ _ _ _ h hr hs => h.serve hcount hr hs) hstart
  obtain ⟨pages, hinv⟩ := hshows.inv
  obtain ⟨vm', f, hread, hinv', haccess⟩ := hinv.read hcount a
  obtain ⟨hvalid, rfl⟩ := haccess.valid
  refine ⟨vm', ?_⟩
  have hbyte := (haccess.byteAt_page (offsetOf_lt a)).trans (hshows.byteAt a ha)
  rw [byteAt, if_pos hvalid] at hbyte
  rw [hread, hbyte]
  rfl

/-- A second and a third page share the second frame, and are read again. -/
def shared : List Request :=
  [.write 0x0003 7, .read 0x0100, .read 0x0003, .read 0x0200, .read 0x0003, .read 0x0100]

/-- The bytes are the same after clean frames were given away. -/
theorem read_lastWritten_twoFrames :
    ∃ vm, machine.exec (create 256 1 (2 * 256) (fun _ => 0) (fun i => .ofNat (i / 256))) shared =
        some vm ∧ vm.pageFaults = 4 ∧ (∃ vm', vm.read 0x0003 = some (vm', 7)) ∧
      ∃ vm', vm.read 0x0100 = some (vm', 1) := by
  let vm₀ := create 256 1 (2 * 256) (fun _ => 0) (fun i => .ofNat (i / 256))
  let vm := (machine.execWhile Keeps vm₀ shared).get (by decide +kernel)
  have hrun : machine.Run Keeps vm₀ shared vm :=
    Machine.run_iff_execWhile.mpr (Option.some_get _).symm
  refine ⟨vm, Machine.run_iff_exec.mp (hrun.mono fun _ _ _ => trivial), by decide +kernel, ?_, ?_⟩
  · exact read_lastWritten (by decide : 1 ≤ 2) (by decide) _ _ hrun 0x0003 (by decide)
  · exact read_lastWritten (by decide : 1 ≤ 2) (by decide) _ _ hrun 0x0100 (by decide)

/-- With one frame, the byte is lost when the second page needs that frame. -/
theorem read_ne_lastWritten :
    ¬∀ (frameCount tlbCapacity : ℕ) (memory content : ℕ → Int8) (rs : List Request)
      (vm vm' : VirtualMemory) (a : BitVec 64) (value : Int8), 1 ≤ frameCount → 1 ≤ tlbCapacity →
      (∀ r ∈ rs, r.address.toNat < 2 ^ 16) → a.toNat < 2 ^ 16 →
      machine.exec (create 256 tlbCapacity (frameCount * 256) memory content) rs = some vm →
      vm.read a = some (vm', value) → value = lastWritten content rs a := by
  intro h
  let vm₀ := create 256 1 (1 * 256) (fun _ => 0) (fun _ => 0)
  let vm₂ := (machine.exec vm₀ [.write 0x0000 7, .read 0x0100]).get (by decide)
  let r := (vm₂.read 0x0000).get (by decide)
  have hr := h 1 1 (fun _ => 0) (fun _ => 0) [.write 0x0000 7, .read 0x0100] vm₂ r.1 0x0000 r.2
    (by decide) (by decide) (by decide) (by decide) (Option.some_get _).symm
    (Option.some_get _).symm
  have hne : r.2 ≠ lastWritten (fun _ => 0) [.write 0x0000 7, .read 0x0100] 0x0000 := by decide
  exact hne hr

end Course.Os.VirtualMemory
