import Mathlib.Data.BitVec
import Course.Lib.Machine
import Course.Os.TLB
import Course.Os.PhysicalMemory

/-! The virtual memory of Project 8: the page table, its LRU list of resident
pages, the TLB, the frames and the backing store. -/

open Course.Lib

namespace Course.Os

structure PageTableEntry where
  pageNumber : ℕ
  frameNumber : ℕ
  valid : Bool

/-- `pageCache` holds the addresses `&page_table[i]`, as `i`; the log is left
out. -/
structure VirtualMemory where
  pageSize : ℕ
  pageTable : ℕ → PageTableEntry
  pageCache : LRUCache ℕ
  TLB : TLB
  physicalMemory : PhysicalMemory
  backingStore : File
  pageFaults : ℕ
  totalAccesses : ℕ

namespace VirtualMemory

def create (pageSize TLBCapacity physicalMemoryCapacity : ℕ) (memory content : ℕ → Int8) :
    VirtualMemory where
  pageSize := pageSize
  pageTable := fun i => { pageNumber := i, frameNumber := sizeMax, valid := false }
  pageCache := .create (physicalMemoryCapacity / pageSize)
  TLB := .create TLBCapacity
  physicalMemory := .create memory physicalMemoryCapacity pageSize
  backingStore := .fopenRb content
  pageFaults := 0
  totalAccesses := 0

def pageOf (address : BitVec 64) : ℕ := ((address &&& 0xFF00) >>> 8).toNat

def offsetOf (address : BitVec 64) : ℕ := (address &&& 0x00FF).toNat

/-- `page_table_entry_equal` with a key whose page number is `page`. -/
def pageEqual (vm : VirtualMemory) (page i : ℕ) : Bool := (vm.pageTable i).pageNumber = page

/-- The frame number of the `int` that `TLB_query` returned. -/
def sizeOfInt (i : ℤ) : ℕ := (i % 2 ^ 64).toNat

/-- Saves the frame `f` of page `i` before it is given away. -/
def writeBack (vm : VirtualMemory) (i f : ℕ) : VirtualMemory :=
  let m := vm.physicalMemory
  let store := vm.backingStore.fseek ((vm.pageTable i).pageNumber * vm.pageSize)
  { vm with
    backingStore :=
      store.fwrite m.memory (m.getFrameAddress (m.frames f).frameNumber) vm.pageSize
    physicalMemory := m.setFrame f (m.frames f).valid false }

def saveFrame (vm : VirtualMemory) (i f : ℕ) : VirtualMemory :=
  if (vm.physicalMemory.frames f).dirty then vm.writeBack i f else vm

/-- Takes page `i` out of all four tables and frees its frame. -/
def evict (vm : VirtualMemory) (i : ℕ) : Option (VirtualMemory × ℕ) := do
  let f := (vm.pageTable i).frameNumber
  let vm := vm.saveFrame i f
  let page := (vm.pageTable i).pageNumber
  let (pageCache, _) ← vm.pageCache.remove (vm.pageEqual page)
  let (tlb, _) ← vm.TLB.remove page
  some
    ({ vm with
      pageCache := pageCache
      TLB := tlb
      pageTable := Function.update vm.pageTable i
        { vm.pageTable i with frameNumber := sizeMax, valid := false } }, f)

/-- The frame for a new page; `none` where the source goes on with `NULL`. -/
def frameToInsert (vm : VirtualMemory) : Option (VirtualMemory × ℕ) :=
  if vm.pageCache.full then do
    let i ← vm.pageCache.leastRecentlyUsed
    vm.evict i
  else do
    let f ← (List.range (vm.physicalMemory.memorySize / vm.pageSize)).find?
      fun i => !(vm.physicalMemory.frames i).valid
    some (vm, f)

/-- Reads `page` into the frame `f`. -/
def load (vm : VirtualMemory) (page f : ℕ) : VirtualMemory :=
  let m := vm.physicalMemory
  let (memory, store) := (vm.backingStore.fseek (page * vm.pageSize)).fread m.memory
    (m.getFrameAddress (m.frames f).frameNumber) vm.pageSize
  { vm with
    backingStore := store
    physicalMemory := { m with memory := memory }.setFrame f true false
    pageTable := Function.update vm.pageTable page
      { vm.pageTable page with frameNumber := (m.frames f).frameNumber, valid := true } }

def pageFault (vm : VirtualMemory) (page : ℕ) : Option (VirtualMemory × ℕ) := do
  let (vm, f) ← frameToInsert { vm with pageFaults := vm.pageFaults + 1 }
  let vm := vm.load page f
  let (pageCache, _) ←
    vm.pageCache.insert (fun x y => vm.pageEqual (vm.pageTable y).pageNumber x) page
  let tlb ← vm.TLB.insert page (vm.physicalMemory.frames f).frameNumber
  some ({ vm with pageCache := pageCache, TLB := tlb }, (vm.physicalMemory.frames f).frameNumber)

/-- The frame number of a page, after bringing it in where it is not resident. -/
def frameOf (vm : VirtualMemory) (page : ℕ) : Option (VirtualMemory × ℕ) := do
  let (tlb, queryFrame) ← vm.TLB.query page
  let vm := { vm with TLB := tlb }
  if queryFrame ≠ -1 then some (vm, sizeOfInt queryFrame)
  else
    let (pageCache, queryFrame) ← vm.pageCache.query (vm.pageEqual page)
    let vm := { vm with pageCache := pageCache }
    match queryFrame with
    | some i =>
      let tlb ← vm.TLB.insert page (vm.pageTable i).frameNumber
      some ({ vm with TLB := tlb }, (vm.pageTable i).frameNumber)
    | none => vm.pageFault page

def getPhysicalAddress (vm : VirtualMemory) (address : BitVec 64) :
    Option (VirtualMemory × ℕ) := do
  let (vm, frame) ←
    frameOf { vm with totalAccesses := vm.totalAccesses + 1 } (pageOf address)
  some (vm, frame * vm.pageSize + offsetOf address)

def read (vm : VirtualMemory) (address : BitVec 64) : Option (VirtualMemory × Int8) := do
  let (vm, physicalAddress) ← vm.getPhysicalAddress address
  let frameNumber := physicalAddress / vm.pageSize
  let offset := physicalAddress % vm.pageSize
  some (vm, vm.physicalMemory.read frameNumber offset)

def write (vm : VirtualMemory) (address : BitVec 64) (value : Int8) : Option VirtualMemory := do
  let (vm, physicalAddress) ← vm.getPhysicalAddress address
  let frameNumber := physicalAddress / vm.pageSize
  let offset := physicalAddress % vm.pageSize
  some { vm with physicalMemory := vm.physicalMemory.write frameNumber offset value }

/-! ### Consistency of the four tables -/

variable {vm vm' : VirtualMemory} {frameCount tlbCapacity page f g : ℕ} {pages : List ℕ}

/-- The tables agree on `pages`, the resident pages in the order of the LRU
list; which frames are in use is left open. -/
structure Tables (vm : VirtualMemory) (frameCount tlbCapacity : ℕ) (pages : List ℕ) : Prop where
  pageSize : vm.pageSize = 256
  memorySize : vm.physicalMemory.memorySize = frameCount * 256
  readOnly : vm.backingStore.writable = false
  capacity : vm.pageCache.capacity = frameCount
  cache : vm.pageCache.Holds pages
  nodup : pages.Nodup
  mem_iff : ∀ p, p ∈ pages ↔ p < 256 ∧ (vm.pageTable p).valid
  pageNumber : ∀ p, (vm.pageTable p).pageNumber = p
  frame_inj : ∀ p ∈ pages, ∀ q ∈ pages,
    (vm.pageTable p).frameNumber = (vm.pageTable q).frameNumber → p = q
  frames : ∀ f, (vm.physicalMemory.frames f).frameNumber = f ∧
    (vm.physicalMemory.frames f).address = f * 256
  tlb : ∃ slots, vm.TLB.Inv slots
  tlbCapacity_eq : vm.TLB.capacity = tlbCapacity
  tlbCapacity_pos : 1 ≤ tlbCapacity
  maps : ∀ p f, vm.TLB.Maps p f → p ∈ pages ∧ (vm.pageTable p).frameNumber = f

/-- The frames in use are the first ones, one for each resident page. -/
structure Inv (vm : VirtualMemory) (frameCount tlbCapacity : ℕ) (pages : List ℕ) : Prop
    extends Tables vm frameCount tlbCapacity pages where
  frame_lt : ∀ p ∈ pages, (vm.pageTable p).frameNumber < pages.length
  frame_valid : ∀ f, (vm.physicalMemory.frames f).valid = true ↔ f < pages.length
  length_le : pages.length ≤ frameCount

/-- The frame `f` is there for one more page. -/
structure Room (vm : VirtualMemory) (frameCount tlbCapacity : ℕ) (pages : List ℕ) (f : ℕ) : Prop
    extends Tables vm frameCount tlbCapacity pages where
  frame_lt : ∀ p ∈ pages, (vm.pageTable p).frameNumber < pages.length + 1
  frame_ne : ∀ p ∈ pages, (vm.pageTable p).frameNumber ≠ f
  frame_valid : ∀ g, g ≠ f →
    ((vm.physicalMemory.frames g).valid = true ↔ g < pages.length + 1)
  lt : f < pages.length + 1
  length_lt : pages.length < frameCount

/-- The page a fault would evict. -/
def victim (vm : VirtualMemory) : Option ℕ :=
  if vm.pageCache.full then vm.pageCache.leastRecentlyUsed else none

theorem inv_create (htlb : 1 ≤ tlbCapacity) (memory content : ℕ → Int8) :
    (create 256 tlbCapacity (frameCount * 256) memory content).Inv frameCount tlbCapacity [] where
  pageSize := rfl
  memorySize := rfl
  readOnly := rfl
  capacity := Nat.mul_div_cancel frameCount (by decide)
  cache := LRUCache.holds_create _
  nodup := List.nodup_nil
  mem_iff := by simp [create]
  pageNumber := fun _ => rfl
  frame_inj := by simp
  frames := fun _ => ⟨rfl, rfl⟩
  tlb := ⟨[], TLB.Inv.create _⟩
  tlbCapacity_eq := rfl
  tlbCapacity_pos := htlb
  maps := by simp [TLB.Maps, create, TLB.create]
  frame_lt := by simp
  frame_valid := by simp [create, PhysicalMemory.create]
  length_le := Nat.zero_le _

namespace Tables

theorem page_lt (h : vm.Tables frameCount tlbCapacity pages) (hp : p ∈ pages) : p < 256 :=
  ((h.mem_iff p).mp hp).1

theorem pages_length_le (h : vm.Tables frameCount tlbCapacity pages) : pages.length ≤ 256 := by
  have hsub : pages ⊆ List.range 256 := fun p hp => List.mem_range.mpr (h.page_lt hp)
  simpa using (h.nodup.subperm hsub).length_le

/-- The scans of the page list find exactly the page they look for. -/
theorem pageEqual_iff (h : vm.Tables frameCount tlbCapacity pages) (page p : ℕ) :
    vm.pageEqual page p = true ↔ p = page := by
  simp [pageEqual, h.pageNumber]

theorem find?_eq (h : vm.Tables frameCount tlbCapacity pages) (page : ℕ) :
    pages.find? (vm.pageEqual page) = if page ∈ pages then some page else none := by
  split
  · next hmem =>
    obtain ⟨p, hp⟩ := Option.isSome_iff_exists.mp
      (List.find?_isSome.mpr ⟨page, hmem, (h.pageEqual_iff page page).mpr rfl⟩)
    rw [hp, (h.pageEqual_iff page p).mp (List.find?_some hp)]
  · next hmem =>
    exact List.find?_eq_none.mpr fun p hp e => hmem ((h.pageEqual_iff page p).mp e ▸ hp)

end Tables

/-! ### Giving a frame away -/

@[simp] theorem saveFrame_tables (vm : VirtualMemory) (i f : ℕ) :
    (vm.saveFrame i f).pageSize = vm.pageSize ∧ (vm.saveFrame i f).pageTable = vm.pageTable ∧
      (vm.saveFrame i f).pageCache = vm.pageCache ∧ (vm.saveFrame i f).TLB = vm.TLB ∧
      (vm.saveFrame i f).physicalMemory.memory = vm.physicalMemory.memory ∧
      (vm.saveFrame i f).physicalMemory.memorySize = vm.physicalMemory.memorySize := by
  unfold saveFrame
  split <;> exact ⟨rfl, rfl, rfl, rfl, rfl, rfl⟩

theorem saveFrame_frames (vm : VirtualMemory) (i f g : ℕ) :
    ∃ dirty, (vm.saveFrame i f).physicalMemory.frames g =
      { vm.physicalMemory.frames g with dirty := dirty } ∧
        (g ≠ f → dirty = (vm.physicalMemory.frames g).dirty) := by
  unfold saveFrame
  split
  · by_cases hg : g = f
    · exact ⟨false, by simp [writeBack, PhysicalMemory.setFrame, hg], fun h => absurd hg h⟩
    · exact ⟨_, by simp [writeBack, PhysicalMemory.setFrame, hg], fun _ => rfl⟩
  · exact ⟨_, rfl, fun _ => rfl⟩

/-- The write to a stream opened for reading is lost. -/
theorem saveFrame_content (h : vm.backingStore.writable = false) (i f : ℕ) :
    (vm.saveFrame i f).backingStore.writable = false ∧
      (vm.saveFrame i f).backingStore.content = vm.backingStore.content := by
  unfold saveFrame
  split
  · simp [writeBack, File.fseek, File.fwrite, h]
  · exact ⟨h, rfl⟩

theorem Inv.evict (h : vm.Inv frameCount tlbCapacity (v :: pages))
    (hfull : (v :: pages).length = frameCount) :
    ∃ vm', vm.evict v = some (vm', (vm.pageTable v).frameNumber) ∧
      vm'.Room frameCount tlbCapacity pages (vm.pageTable v).frameNumber ∧
      (∀ q, q ≠ v → vm'.pageTable q = vm.pageTable q) ∧
      (vm'.pageTable v).valid = false ∧
      vm'.physicalMemory.memory = vm.physicalMemory.memory ∧
      vm'.backingStore.content = vm.backingStore.content ∧
      ∀ g, g ≠ (vm.pageTable v).frameNumber →
        vm'.physicalMemory.frames g = vm.physicalMemory.frames g := by
  obtain ⟨hv, hnodup⟩ := List.nodup_cons.mp h.nodup
  obtain ⟨slots, htlb⟩ := h.tlb
  set f := (vm.pageTable v).frameNumber with hf
  obtain ⟨pageCache, hremove, hcache, hcap⟩ := h.cache.remove (vm.pageEqual v)
  obtain ⟨tlb, r, slots', htremove, htlb', htcap, hmaps⟩ := htlb.remove v
  rw [List.eraseP_cons_of_pos ((h.pageEqual_iff v v).mpr rfl)] at hcache
  obtain ⟨hreadOnly, hcontent⟩ := saveFrame_content h.readOnly v f
  obtain ⟨hsize, htable, hpc, ht, hmemory, hmsize⟩ := saveFrame_tables vm v f
  have heq : (vm.saveFrame v f).pageEqual v = vm.pageEqual v := by
    funext i
    simp [pageEqual]
  have hframes := saveFrame_frames vm v f
  refine ⟨{ vm.saveFrame v f with
    pageCache := pageCache
    TLB := tlb
    pageTable := Function.update vm.pageTable v
      { vm.pageTable v with frameNumber := sizeMax, valid := false } }, ?_, ?_, ?_, ?_, ?_, ?_, ?_⟩
  · simp [VirtualMemory.evict, ← hf, h.pageNumber, heq, hremove, htremove]
  · have hne : ∀ p ∈ pages, p ≠ v := fun p hp e => hv (e ▸ hp)
    refine { pageSize := hsize.trans h.pageSize, memorySize := hmsize.trans h.memorySize,
             readOnly := hreadOnly, capacity := hcap.trans h.capacity, cache := hcache,
             nodup := hnodup, mem_iff := fun p => ?_, pageNumber := fun p => ?_,
             frame_inj := fun p hp q hq e => ?_, frames := fun g => ?_, tlb := ⟨slots', htlb'⟩,
             tlbCapacity_eq := htcap.trans h.tlbCapacity_eq,
             tlbCapacity_pos := h.tlbCapacity_pos, maps := fun p g hm => ?_,
             frame_lt := fun p hp => ?_, frame_ne := fun p hp e => ?_,
             frame_valid := fun g hg => ?_, lt := h.frame_lt v (by simp),
             length_lt := by rw [← hfull]; exact Nat.lt_succ_self _ }
    · have hmem := h.mem_iff p
      by_cases hp : p = v
      · simpa [hp] using hv
      · simpa [hp] using hmem
    · by_cases hp : p = v
      · simp [hp, h.pageNumber]
      · simp [hp, h.pageNumber]
    · simp only [Function.update_of_ne (hne p hp), Function.update_of_ne (hne q hq)] at e
      exact h.frame_inj p (by simp [hp]) q (by simp [hq]) e
    · obtain ⟨dirty, hg, -⟩ := hframes g
      simpa [hg] using h.frames g
    · obtain ⟨hpv, hm⟩ := hmaps p g hm
      obtain ⟨hp, hg⟩ := h.maps p g hm
      exact ⟨(List.mem_cons.mp hp).resolve_left hpv, by simpa [hpv] using hg⟩
    · simpa [hne p hp] using h.frame_lt p (by simp [hp])
    · simp only [Function.update_of_ne (hne p hp)] at e
      exact hne p hp (h.frame_inj p (by simp [hp]) v (by simp) e)
    · obtain ⟨dirty, hg, -⟩ := hframes g
      simpa [hg] using h.frame_valid g
  · intro q hq
    simp [hq]
  · simp
  · exact hmemory
  · exact hcontent
  · intro g hg
    obtain ⟨dirty, hgf, hd⟩ := hframes g
    simp [hgf, hd hg]

/-- The resident pages once there is room for one more. -/
def spared (frameCount : ℕ) (pages : List ℕ) : List ℕ :=
  if pages.length = frameCount then pages.tail else pages

/-- The search for a frame succeeds, and what it does to the tables. -/
theorem Inv.frameToInsert (h : vm.Inv frameCount tlbCapacity pages) (hcount : 1 ≤ frameCount) :
    ∃ vm' f, vm.frameToInsert = some (vm', f) ∧
      vm'.Room frameCount tlbCapacity (spared frameCount pages) f ∧
      (∀ q ∈ pages, (vm.pageTable q).frameNumber = f ↔ vm.victim = some q) ∧
      (∀ q, vm.victim ≠ some q → vm'.pageTable q = vm.pageTable q) ∧
      (∀ q, vm.victim = some q → (vm'.pageTable q).valid = false) ∧
      vm'.physicalMemory.memory = vm.physicalMemory.memory ∧
      vm'.backingStore.content = vm.backingStore.content ∧
      ∀ g, g ≠ f → vm'.physicalMemory.frames g = vm.physicalMemory.frames g := by
  by_cases hlen : pages.length = frameCount
  · obtain ⟨v, rest, rfl⟩ : ∃ v rest, pages = v :: rest := by
      cases pages with
      | nil => simp only [List.length_nil] at hlen; omega
      | cons v rest => exact ⟨v, rest, rfl⟩
    obtain ⟨vm', hevict, hroom, htable, hinvalid, hmemory, hcontent, hframes⟩ := h.evict hlen
    have hfull : vm.pageCache.full = true := by
      simpa [LRUCache.full, h.cache.size, h.capacity] using hlen
    have hvictim : vm.victim = some v := by simp [victim, hfull, h.cache.leastRecentlyUsed]
    have hlru : vm.pageCache.leastRecentlyUsed = some v := by simp [h.cache.leastRecentlyUsed]
    have hspared : spared frameCount (v :: rest) = rest := if_pos hlen
    rw [hspared]
    refine ⟨vm', _, ?_, hroom, fun q hq => ?_, fun q hq => ?_, fun q hq => ?_, hmemory,
      hcontent, hframes⟩
    · simp [VirtualMemory.frameToInsert, hfull, hlru, hevict]
    · rw [hvictim, Option.some.injEq]
      exact ⟨fun e => (h.frame_inj q hq v (by simp) e).symm, fun e => by rw [e]⟩
    · exact htable q fun e => hq (e ▸ hvictim)
    · obtain rfl : v = q := Option.some.inj (hvictim.symm.trans hq)
      exact hinvalid
  · have hlt : pages.length < frameCount := lt_of_le_of_ne h.length_le hlen
    have hfull : vm.pageCache.full = false := by
      simpa [LRUCache.full, h.cache.size, h.capacity] using hlen
    have hdiv : vm.physicalMemory.memorySize / vm.pageSize = frameCount := by
      rw [h.memorySize, h.pageSize, Nat.mul_div_cancel frameCount (by decide)]
    have hfind : (List.range frameCount).find? (fun i => !(vm.physicalMemory.frames i).valid) =
        some pages.length := by
      refine List.find?_range_eq_some.mpr ⟨?_, List.mem_range.mpr hlt, fun g hg => ?_⟩
      · simpa using (h.frame_valid pages.length).not.mpr (Nat.lt_irrefl _)
      · simpa using (h.frame_valid g).mpr hg
    have hvictim : vm.victim = none := by simp [victim, hfull]
    have hspared : spared frameCount pages = pages := if_neg hlen
    rw [hspared]
    refine ⟨vm, pages.length, ?_, ?_, fun q hq => ?_, fun q hq => rfl, fun q hq => ?_, rfl, rfl,
      fun _ _ => rfl⟩
    · simp [VirtualMemory.frameToInsert, hfull, hdiv, hfind]
    · refine { h.toTables with
        frame_lt := fun p hp => Nat.lt_succ_of_lt (h.frame_lt p hp)
        frame_ne := fun p hp e => ?_
        frame_valid := fun g hg => ?_
        lt := Nat.lt_succ_self _
        length_lt := hlt }
      · have := h.frame_lt p hp
        omega
      · rw [h.frame_valid]
        omega
    · rw [hvictim]
      have := h.frame_lt q hq
      simp only [reduceCtorEq, iff_false]
      omega
    · simp [hvictim] at hq

/-! ### One access -/

/-- What an access to `page`, found in frame `f`, does to the tables and to the
bytes. -/
inductive Access (vm vm' : VirtualMemory) (page f : ℕ) : Prop
  | resident (valid : (vm.pageTable page).valid) (frame : (vm.pageTable page).frameNumber = f)
      (pageTable : vm'.pageTable = vm.pageTable)
      (physicalMemory : vm'.physicalMemory = vm.physicalMemory)
      (content : vm'.backingStore.content = vm.backingStore.content)
  | fault (invalid : (vm.pageTable page).valid = false)
      (victim : ∀ q < 256, (vm.pageTable q).valid →
        ((vm.pageTable q).frameNumber = f ↔ vm.victim = some q))
      (valid : (vm'.pageTable page).valid) (frame : (vm'.pageTable page).frameNumber = f)
      (kept : ∀ q, q ≠ page → vm.victim ≠ some q → vm'.pageTable q = vm.pageTable q)
      (evicted : ∀ q, q ≠ page → vm.victim = some q → (vm'.pageTable q).valid = false)
      (memory : ∀ a, vm'.physicalMemory.memory a =
        if f * 256 ≤ a ∧ a < f * 256 + 256 then
          vm.backingStore.content (page * 256 + (a - f * 256))
        else vm.physicalMemory.memory a)
      (content : vm'.backingStore.content = vm.backingStore.content)
      (clean : (vm'.physicalMemory.frames f).dirty = false)
      (frames : ∀ g, g ≠ f → vm'.physicalMemory.frames g = vm.physicalMemory.frames g)

theorem Access.congr (h : Access vm vm' page f) (htable : vm.pageTable = vm₀.pageTable)
    (hmemory : vm.physicalMemory = vm₀.physicalMemory)
    (hcontent : vm.backingStore.content = vm₀.backingStore.content)
    (hvictim : vm.victim = vm₀.victim) : Access vm₀ vm' page f := by
  cases h with
  | resident valid frame table memory content =>
    exact .resident (htable ▸ valid) (htable ▸ frame) (htable ▸ table) (hmemory ▸ memory)
      (hcontent ▸ content)
  | fault invalid victim valid frame kept evicted memory content clean frames =>
    rw [htable, hvictim] at *
    rw [hmemory, hcontent] at *
    exact .fault invalid victim valid frame kept evicted memory content clean frames

theorem Inv.victim_eq (h : vm.Inv frameCount tlbCapacity pages) :
    vm.victim = if pages.length = frameCount then pages.head? else none := by
  simp [victim, LRUCache.full, h.cache.size, h.capacity, h.cache.leastRecentlyUsed]

/-- New lists of recent use and new counters over the same tables. -/
theorem Inv.withCaches {cache : LRUCache ℕ} {tlb : Os.TLB} {pages' slots : List ℕ}
    (h : vm.Inv frameCount tlbCapacity pages) (hcache : cache.Holds pages')
    (hcap : cache.capacity = vm.pageCache.capacity) (hperm : pages'.Perm pages)
    (htlb : tlb.Inv slots) (htcap : tlb.capacity = vm.TLB.capacity)
    (hmaps : ∀ p f, tlb.Maps p f → p ∈ pages ∧ (vm.pageTable p).frameNumber = f) (m n : ℕ) :
    { vm with pageCache := cache, TLB := tlb, pageFaults := m, totalAccesses := n }.Inv
      frameCount tlbCapacity pages' where
  pageSize := h.pageSize
  memorySize := h.memorySize
  readOnly := h.readOnly
  capacity := hcap.trans h.capacity
  cache := hcache
  nodup := hperm.nodup_iff.mpr h.nodup
  mem_iff := fun p => hperm.mem_iff.trans (h.mem_iff p)
  pageNumber := h.pageNumber
  frame_inj := fun p hp q hq => h.frame_inj p (hperm.mem_iff.mp hp) q (hperm.mem_iff.mp hq)
  frames := h.frames
  tlb := ⟨slots, htlb⟩
  tlbCapacity_eq := htcap.trans h.tlbCapacity_eq
  tlbCapacity_pos := h.tlbCapacity_pos
  maps := fun p f hm => (hmaps p f hm).imp_left hperm.mem_iff.mpr
  frame_lt := fun p hp => hperm.length_eq ▸ h.frame_lt p (hperm.mem_iff.mp hp)
  frame_valid := fun f => hperm.length_eq ▸ h.frame_valid f
  length_le := hperm.length_eq ▸ h.length_le

theorem Room.notMaps (h : vm.Room frameCount tlbCapacity pages f) (hmem : page ∉ pages) (g : ℕ) :
    ¬vm.TLB.Maps page g := fun hm => hmem (h.maps page g hm).1

/-- The page and its frame enter the four tables. -/
theorem Room.load (h : vm.Room frameCount tlbCapacity pages f) (hpage : page < 256)
    (hmem : page ∉ pages) :
    ∃ pageCache tlb, (vm.load page f).pageCache.insert
        (fun x y => (vm.load page f).pageEqual ((vm.load page f).pageTable y).pageNumber x) page =
          some (pageCache, none) ∧
      (vm.load page f).TLB.insert page f = some tlb ∧
      { vm.load page f with pageCache := pageCache, TLB := tlb }.Inv frameCount
        tlbCapacity (pages ++ [page]) := by
  obtain ⟨slots, htlb⟩ := h.tlb
  have hne : ∀ p ∈ pages, p ≠ page := fun p hp e => hmem (e ▸ hp)
  have hnumber : ∀ p, ((vm.load page f).pageTable p).pageNumber = p := fun p => by
    by_cases hp : p = page <;> simp [VirtualMemory.load, hp, h.pageNumber]
  obtain ⟨pageCache, hinsert, hcache, hcap⟩ := h.cache.insert_room (d := page)
    (fun x y =>
      (vm.load page f).pageEqual ((vm.load page f).pageTable y).pageNumber x)
    (fun p hp => by simpa [pageEqual, hnumber] using hne p hp)
    (by rw [h.capacity]; exact h.length_lt.ne)
  obtain ⟨tlb, slots', htinsert, htlb', htcap, hmaps⟩ :=
    htlb.insert (h.tlbCapacity_eq ▸ h.tlbCapacity_pos) (h.notMaps hmem) f
  have hframe : ∀ p ∈ pages, ((vm.load page f).pageTable p) = vm.pageTable p := fun p hp => by
    simp [VirtualMemory.load, hne p hp]
  have hnew : (vm.load page f).pageTable page =
      { pageNumber := page, frameNumber := f, valid := true } := by
    simp [VirtualMemory.load, h.pageNumber, (h.frames f).1]
  refine ⟨pageCache, tlb, hinsert, htinsert, ?_⟩
  refine { pageSize := h.pageSize, memorySize := h.memorySize, readOnly := h.readOnly,
           capacity := hcap.trans h.capacity, cache := hcache, nodup := ?_, mem_iff := fun p => ?_,
           pageNumber := hnumber, frame_inj := fun p hp q hq e => ?_, frames := fun g => ?_,
           tlb := ⟨slots', htlb'⟩, tlbCapacity_eq := htcap.trans h.tlbCapacity_eq,
           tlbCapacity_pos := h.tlbCapacity_pos,
           maps := fun p g hm => ?_, frame_lt := fun p hp => ?_, frame_valid := fun g => ?_,
           length_le := by simpa using Nat.succ_le_of_lt h.length_lt }
  · exact List.nodup_append.mpr ⟨h.nodup, by simp, fun p hp q hq => by simp_all⟩
  · by_cases hp : p = page
    · simp [hp, hnew, hpage]
    · have hp' : (vm.load page f).pageTable p = vm.pageTable p := by
        simp [VirtualMemory.load, hp]
      simp [hp, hp', h.mem_iff]
  · simp only [List.mem_append, List.mem_singleton] at hp hq e
    obtain hp | rfl := hp <;> obtain hq | rfl := hq
    · rw [hframe p hp, hframe q hq] at e
      exact h.frame_inj p hp q hq e
    · rw [hframe p hp, hnew] at e
      exact absurd e (h.frame_ne p hp)
    · rw [hframe q hq, hnew] at e
      exact absurd e.symm (h.frame_ne q hq)
    · rfl
  · by_cases hg : g = f
    · simpa [VirtualMemory.load, PhysicalMemory.setFrame, hg] using h.frames f
    · simpa [VirtualMemory.load, PhysicalMemory.setFrame, hg] using h.frames g
  · obtain ⟨rfl, rfl⟩ | hm := hmaps p g hm
    · simp [hnew]
    · obtain ⟨hp, hg⟩ := h.maps p g hm
      exact ⟨by simp [hp], by simpa [hframe p hp] using hg⟩
  · simp only [List.mem_append, List.mem_singleton, List.length_append, List.length_singleton]
      at hp ⊢
    obtain hp | rfl := hp
    · simpa [hframe p hp] using h.frame_lt p hp
    · simpa [hnew] using h.lt
  · by_cases hg : g = f
    · simpa [VirtualMemory.load, PhysicalMemory.setFrame, hg] using h.lt
    · simpa [VirtualMemory.load, PhysicalMemory.setFrame, hg] using h.frame_valid g hg

theorem Inv.pageFault (h : vm.Inv frameCount tlbCapacity pages) (hcount : 1 ≤ frameCount)
    (hpage : page < 256) (hmem : page ∉ pages) :
    ∃ vm' f, vm.pageFault page = some (vm', f) ∧
      vm'.Inv frameCount tlbCapacity (spared frameCount pages ++ [page]) ∧
      f < frameCount ∧ vm.Access vm' page f := by
  obtain ⟨slots, htlb⟩ := h.tlb
  have h₁ := h.withCaches h.cache rfl (List.Perm.refl _) htlb rfl h.maps (vm.pageFaults + 1)
    vm.totalAccesses
  obtain ⟨vm₂, f, hfind, hroom, hvictim, hkept, hevicted, hmemory, hcontent, hframes⟩ :=
    h₁.frameToInsert hcount
  have hinvalid : (vm.pageTable page).valid = false := by
    simpa [hpage] using (h.mem_iff page).not.mp hmem
  have hinvalid₂ : (vm₂.pageTable page).valid = false := by
    by_cases hv : vm.victim = some page
    · exact hevicted page hv
    · rw [hkept page hv]
      exact hinvalid
  have hnot : page ∉ spared frameCount pages := fun hp => by
    simpa [hinvalid₂] using ((hroom.mem_iff page).mp hp).2
  obtain ⟨cache, tlb, hinsert, htinsert, hinv⟩ := hroom.load hpage hnot
  have hnumber : ((vm₂.load page f).physicalMemory.frames f).frameNumber = f := by
    simpa [VirtualMemory.load, PhysicalMemory.setFrame] using (hroom.frames f).1
  refine ⟨_, f, ?_, hinv, lt_of_lt_of_le hroom.lt hroom.length_lt, ?_⟩
  · simp [VirtualMemory.pageFault, hfind, hinsert, hnumber, htinsert]
  · refine .fault hinvalid (fun q hq hvalid => hvictim q ((h.mem_iff q).mpr ⟨hq, hvalid⟩)) ?_ ?_
      (fun q hq hv => ?_) (fun q hq hv => ?_) (fun a => ?_) hcontent ?_ (fun g hg => ?_)
    · simp [VirtualMemory.load]
    · simpa [VirtualMemory.load] using (hroom.frames f).1
    · simpa [VirtualMemory.load, hq] using hkept q hv
    · simpa [VirtualMemory.load, hq] using hevicted q hv
    · simp [VirtualMemory.load, PhysicalMemory.setFrame, File.fread, File.fseek,
        PhysicalMemory.getFrameAddress, (hroom.frames f).1, (hroom.frames f).2, hroom.pageSize,
        hmemory, hcontent]
    · simp [VirtualMemory.load, PhysicalMemory.setFrame]
    · simpa [VirtualMemory.load, PhysicalMemory.setFrame, hg] using hframes g hg

theorem sizeOfInt_intOfSize (h : f < 256) : sizeOfInt (intOfSize f) = f := by
  rw [intOfSize_eq (by omega), sizeOfInt]
  omega

/-- The TLB has the page. -/
def Hits (vm : VirtualMemory) (page : ℕ) : Prop :=
  ∃ i < vm.TLB.capacity, (vm.TLB.entries i).valid ∧ (vm.TLB.entries i).pageNumber = page

instance decidableHits (vm : VirtualMemory) (page : ℕ) : Decidable (vm.Hits page) :=
  Nat.decidableExistsLT _

theorem hits_iff : vm.Hits page ↔ ∃ f, vm.TLB.Maps page f := by
  simp [Hits, TLB.Maps]

/-- The order of the resident pages after an access: a hit of the TLB leaves it
as it is. -/
def reordered (vm : VirtualMemory) (frameCount page : ℕ) (pages : List ℕ) : List ℕ :=
  if vm.Hits page then pages
  else if page ∈ pages then LRUCache.touch (vm.pageEqual page) pages
  else spared frameCount pages ++ [page]

/-- Every access finds its page a frame, and keeps the tables consistent. -/
theorem Inv.frameOf (h : vm.Inv frameCount tlbCapacity pages) (hcount : 1 ≤ frameCount)
    (hpage : page < 256) :
    ∃ vm' f, vm.frameOf page = some (vm', f) ∧
      vm'.Inv frameCount tlbCapacity (vm.reordered frameCount page pages) ∧
      f < frameCount ∧ vm.Access vm' page f := by
  obtain ⟨slots, htlb⟩ := h.tlb
  obtain ⟨tlb, r, slots', hquery, htlb', hentries, htcap, hr⟩ := htlb.query page
  have hmaps : ∀ p f, tlb.Maps p f → vm.TLB.Maps p f := fun p f hm => by
    simpa only [TLB.Maps, hentries, htcap] using hm
  have h₁ := h.withCaches h.cache rfl (List.Perm.refl _) htlb' htcap
    (fun p f hm => h.maps p f (hmaps p f hm)) vm.pageFaults vm.totalAccesses
  have hbound : ∀ p ∈ pages, (vm.pageTable p).frameNumber < frameCount := fun p hp =>
    (h.frame_lt p hp).trans_le h.length_le
  obtain ⟨hnone, hr⟩ | ⟨f, hf, hr⟩ := hr
  · have hmiss : ¬vm.Hits page := fun hhit => by
      obtain ⟨g, hg⟩ := hits_iff.mp hhit
      exact hnone g hg
    rw [reordered, if_neg hmiss]
    obtain ⟨cache, hcquery, hcache, hcap⟩ := h.cache.query (vm.pageEqual page)
    have h₂ := h₁.withCaches hcache hcap (LRUCache.touch_perm _ _) htlb' rfl h₁.maps
      vm.pageFaults vm.totalAccesses
    rw [h.find?_eq] at hcquery
    by_cases hmem : page ∈ pages
    · rw [if_pos hmem] at hcquery
      obtain ⟨tlb₂, slots₂, htinsert, htlb₂, htcap₂, hmaps₂⟩ := htlb'.insert
        (h₁.tlbCapacity_eq ▸ h.tlbCapacity_pos) (fun g hg => hnone g (hmaps page g hg))
        (vm.pageTable page).frameNumber
      have h₃ := h₂.withCaches hcache rfl (List.Perm.refl _) htlb₂ htcap₂
        (fun q g hg => by
          obtain ⟨rfl, rfl⟩ | hm := hmaps₂ q g hg
          · exact ⟨(LRUCache.touch_perm _ _).mem_iff.mpr hmem, rfl⟩
          · exact h₂.maps q g hm)
        vm.pageFaults vm.totalAccesses
      rw [if_pos hmem]
      refine ⟨_, _, ?_, h₃, hbound page hmem,
        .resident ((h.mem_iff page).mp hmem).2 rfl rfl rfl rfl⟩
      have heq : ({ vm with TLB := tlb } : VirtualMemory).pageEqual page = vm.pageEqual page := rfl
      simp [VirtualMemory.frameOf, hquery, hr, heq, hcquery, htinsert]
    · rw [if_neg hmem] at hcquery
      have htouch : LRUCache.touch (vm.pageEqual page) pages = pages :=
        LRUCache.touch_of_none fun p hp e => hmem ((h.pageEqual_iff page p).mp e ▸ hp)
      obtain ⟨vm', f, hfault, hinv, hf, haccess⟩ := h₂.pageFault hcount hpage
        (fun hp => hmem ((LRUCache.touch_perm _ _).mem_iff.mp hp))
      rw [if_neg hmem]
      rw [htouch] at hinv
      refine ⟨vm', f, ?_, hinv, hf, ?_⟩
      · have heq : ({ vm with TLB := tlb } : VirtualMemory).pageEqual page = vm.pageEqual page :=
          rfl
        simp [VirtualMemory.frameOf, hquery, hr, heq, hcquery, hfault]
      · refine haccess.congr rfl rfl rfl ?_
        rw [h₂.victim_eq, h.victim_eq, htouch]
  · obtain ⟨hp, hpf⟩ := h.maps page f hf
    have hf256 : f < 256 := hpf ▸ (h.frame_lt page hp).trans_le h.pages_length_le
    have hne : r ≠ -1 := by
      rw [hr, intOfSize_eq (by omega)]
      omega
    have hsize : sizeOfInt r = f := hr ▸ sizeOfInt_intOfSize hf256
    rw [reordered, if_pos (hits_iff.mpr ⟨f, hf⟩)]
    refine ⟨_, f, ?_, h₁, hpf ▸ hbound page hp,
      .resident ((h.mem_iff page).mp hp).2 hpf rfl rfl rfl⟩
    simp [VirtualMemory.frameOf, hquery, hne, hsize]

end VirtualMemory

end Course.Os
