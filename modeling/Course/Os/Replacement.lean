import Course.Lib.Recency
import Course.Os.Paging

/-! Page replacement of the virtual memory against the history of all accesses:
the list of resident pages is in the order of last access as long as the TLB
answers for no page but the last one. -/

open Course.Lib

namespace Course.Os.VirtualMemory

variable {vm vm' : VirtualMemory} {frameCount tlbCapacity page : ℕ} {pages history : List ℕ}

/-- `page` is resident, and since its last access all other resident pages were
accessed. -/
def Oldest (vm : VirtualMemory) (history : List ℕ) (page : ℕ) : Prop :=
  (vm.pageTable page).valid ∧ ∃ pre post, history = pre ++ page :: post ∧ page ∉ post ∧
    ∀ q < 256, (vm.pageTable q).valid → q ≠ page → q ∈ post

/-- The access to `page` that leads from `vm` to `vm'` evicts the page whose last
access is the oldest, if it is a fault with all frames in use. -/
def Replaces (frameCount : ℕ) (vm vm' : VirtualMemory) (history : List ℕ) (page : ℕ) : Prop :=
  (vm.pageTable page).valid = false →
    (∀ f < frameCount, (vm.physicalMemory.frames f).valid = true) →
    ∃ v < 256, vm.Oldest history v ∧ ∀ q < 256,
      ((vm'.pageTable q).valid = true ↔ q = page ∨ q ≠ v ∧ (vm.pageTable q).valid = true)

/-- The machine, with the pages accessed so far. -/
def traced : Machine (VirtualMemory × List ℕ) Request where
  step s r := (s.1.serve r).map fun vm => (vm, s.2 ++ [pageOf r.address])

theorem traced_step {s : VirtualMemory × List ℕ} {r : Request} (h : s.1.serve r = some vm') :
    traced.step s r = some (vm', s.2 ++ [pageOf r.address]) := by
  simp [traced, h]

/-- A page that the TLB answers for is the one accessed last. -/
def Repeats (s : VirtualMemory × List ℕ) (r : Request) : Prop :=
  s.1.Hits (pageOf r.address) → s.2.getLast? = some (pageOf r.address)

instance decidableRepeats (s : VirtualMemory × List ℕ) (r : Request) : Decidable (Repeats s r) :=
  inferInstanceAs (Decidable (_ → _))

/-- The resident pages are in the order of their last accesses. -/
structure Ordered (frameCount tlbCapacity : ℕ) (s : VirtualMemory × List ℕ) (pages : List ℕ) :
    Prop where
  inv : s.1.Inv frameCount tlbCapacity pages
  recent : Recent s.2 pages

theorem Inv.touch_eq (h : vm.Inv frameCount tlbCapacity pages) (hmem : page ∈ pages) :
    LRUCache.touch (vm.pageEqual page) pages = pages.erase page ++ [page] := by
  rw [LRUCache.touch, h.find?_eq, if_pos hmem]
  congr 1
  exact LRUCache.eraseP_eq_erase fun p _ => h.pageEqual_iff page p

theorem Inv.reordered_recent (h : vm.Inv frameCount tlbCapacity pages)
    (hrecent : Recent history pages) (hhit : vm.Hits page → history.getLast? = some page) :
    Recent (history ++ [page]) (vm.reordered frameCount page pages) := by
  rw [reordered]
  split
  · rename_i hhits
    obtain ⟨f, hf⟩ := hits_iff.mp hhits
    exact hrecent.again h.nodup (h.maps page f hf).1 (hhit hhits)
  · split
    · rename_i hmem
      rw [h.touch_eq hmem]
      exact (hrecent.sublist List.erase_sublist).use fun hp => (h.nodup.mem_erase_iff.mp hp).1 rfl
    · rename_i hmem
      have hsub : (spared frameCount pages).Sublist pages := by
        rw [spared]
        split
        · exact List.tail_sublist pages
        · exact List.Sublist.refl pages
      exact (hrecent.sublist hsub).use fun hp => hmem (hsub.subset hp)

theorem Ordered.step {s t : VirtualMemory × List ℕ} {r : Request} (hcount : 1 ≤ frameCount)
    (h : ∃ pages, Ordered frameCount tlbCapacity s pages) (hr : Repeats s r)
    (hstep : traced.step s r = some t) : ∃ pages, Ordered frameCount tlbCapacity t pages := by
  obtain ⟨pages, hinv, hrecent⟩ := h
  obtain ⟨vm', f, hserve, hinv', -⟩ := hinv.serve hcount r
  obtain rfl := Option.some.inj ((traced_step hserve).symm.trans hstep)
  exact ⟨_, hinv', hinv.reordered_recent hrecent hr⟩

/-- A fault evicts the first page of the list. -/
theorem Ordered.replaces {s : VirtualMemory × List ℕ} (hcount : 1 ≤ frameCount)
    (h : Ordered frameCount tlbCapacity s pages) (r : Request) :
    ∃ vm', s.1.serve r = some vm' ∧ Replaces frameCount s.1 vm' s.2 (pageOf r.address) := by
  obtain ⟨vm', f, hserve, -, vm₁, haccess, htable⟩ := h.inv.serve hcount r
  refine ⟨vm', hserve, fun hinvalid hfull => ?_⟩
  have hlen : pages.length = frameCount := by
    refine Nat.le_antisymm h.inv.length_le (Nat.le_of_not_lt fun hlt => ?_)
    exact Nat.lt_irrefl _ ((h.inv.frame_valid pages.length).mp (hfull _ hlt))
  cases pages with
  | nil =>
    rw [List.length_nil] at hlen
    omega
  | cons v pages =>
    have hvictim : s.1.victim = some v := by rw [h.inv.victim_eq, if_pos hlen]; rfl
    have hv := (h.inv.mem_iff v).mp (by simp)
    refine ⟨v, hv.1, ⟨hv.2, ?_⟩, fun q hq => ?_⟩
    · obtain ⟨pre, post, hhistory, hnot, hpost⟩ := h.recent.head
      refine ⟨pre, post, hhistory, hnot, fun q hq hqv hne => hpost q ?_⟩
      exact (List.mem_cons.mp ((h.inv.mem_iff q).mpr ⟨hq, hqv⟩)).resolve_left hne
    · cases haccess with
      | resident hvalid => simp [hvalid] at hinvalid
      | fault _ _ hvalid _ hkept hevicted =>
        rw [htable]
        by_cases hpage : q = pageOf r.address
        · simp [hpage, hvalid]
        · by_cases hqv : q = v
          · subst hqv
            simp [hpage, hevicted q hpage hvictim]
          · rw [hkept q hpage fun heq => hqv (Option.some.inj (hvictim.symm.trans heq)).symm]
            simp [hpage, hqv]

/-- In every state of a run in which the TLB answers for no page but the last one,
the next access replaces the page whose last access is the oldest. -/
theorem run_replaces (hcount : 1 ≤ frameCount) (htlb : 1 ≤ tlbCapacity)
    (memory content : ℕ → Int8) {rs : List Request} {s : VirtualMemory × List ℕ}
    (hrun : traced.Run Repeats
      (create 256 tlbCapacity (frameCount * 256) memory content, []) rs s) (r : Request) :
    ∃ vm', s.1.serve r = some vm' ∧ Replaces frameCount s.1 vm' s.2 (pageOf r.address) := by
  obtain ⟨pages, h⟩ := hrun.invariant
    (I := fun s => ∃ pages, Ordered frameCount tlbCapacity s pages)
    (fun _ _ _ h hr hstep => Ordered.step hcount h hr hstep)
    ⟨[], inv_create htlb memory content, .nil []⟩
  exact h.replaces hcount r

/-- Pages 0 and 1 are brought in, page 1 is read again from the TLB. -/
theorem run_replaces_again :
    ∃ s, traced.exec (create 256 2 (2 * 256) (fun _ => 0) (fun _ => 1), [])
        [.read 0x0000, .read 0x0100, .write 0x0103 7] = some s ∧
      ∃ vm', s.1.serve (.read 0x0200) = some vm' ∧ Replaces 2 s.1 vm' s.2 2 := by
  let s₀ : VirtualMemory × List ℕ := (create 256 2 (2 * 256) (fun _ => 0) (fun _ => 1), [])
  let s₁ := (traced.step s₀ (.read 0x0000)).get (by decide)
  let s₂ := (traced.step s₁ (.read 0x0100)).get (by decide)
  let s₃ := (traced.step s₂ (.write 0x0103 7)).get (by decide)
  have h₁ : traced.step s₀ (.read 0x0000) = some s₁ := (Option.some_get _).symm
  have h₂ : traced.step s₁ (.read 0x0100) = some s₂ := (Option.some_get _).symm
  have h₃ : traced.step s₂ (.write 0x0103 7) = some s₃ := (Option.some_get _).symm
  have hrun : traced.Run Repeats s₀ [.read 0x0000, .read 0x0100, .write 0x0103 7] s₃ :=
    .cons (by decide) h₁ (.cons (by decide) h₂ (.cons (by decide) h₃ .nil))
  exact ⟨s₃, Machine.run_iff_exec.mp (hrun.mono fun _ _ _ => trivial),
    run_replaces (by decide : 1 ≤ 2) (by decide) _ _ hrun (.read 0x0200)⟩

theorem Inv.of_serve (h : vm.Inv frameCount tlbCapacity pages) (hcount : 1 ≤ frameCount)
    {r : Request} (hserve : vm.serve r = some vm') :
    vm'.Inv frameCount tlbCapacity (vm.reordered frameCount (pageOf r.address) pages) := by
  obtain ⟨vm₁, f, hserve₁, hinv, -⟩ := h.serve hcount r
  exact Option.some.inj (hserve₁.symm.trans hserve) ▸ hinv

/-- The TLB does not answer for a page that is not resident. -/
theorem Inv.reordered_of_notMem (h : vm.Inv frameCount tlbCapacity pages) (hmem : page ∉ pages) :
    vm.reordered frameCount page pages = spared frameCount pages ++ [page] := by
  have hmiss : ¬vm.Hits page := fun hhit => by
    obtain ⟨f, hf⟩ := hits_iff.mp hhit
    exact hmem (h.maps page f hf).1
  rw [reordered, if_neg hmiss, if_neg hmem]

/-- Page 0 is read again from the TLB, and evicted although page 1 was accessed
before it. -/
theorem not_replaces_hit : ¬∀ (frameCount tlbCapacity : ℕ) (memory content : ℕ → Int8)
    (rs : List Request) (s : VirtualMemory × List ℕ) (r : Request) (vm' : VirtualMemory),
    1 ≤ frameCount → 1 ≤ tlbCapacity →
    traced.exec (create 256 tlbCapacity (frameCount * 256) memory content, []) rs = some s →
    s.1.serve r = some vm' → Replaces frameCount s.1 vm' s.2 (pageOf r.address) := by
  intro hall
  let vm₀ := create 256 2 (2 * 256) (fun _ => 0) (fun _ => 1)
  let vm₁ := (vm₀.serve (.read 0x0000)).get (by decide)
  let vm₂ := (vm₁.serve (.read 0x0100)).get (by decide)
  have h₁ : vm₀.serve (.read 0x0000) = some vm₁ := (Option.some_get _).symm
  have h₂ : vm₁.serve (.read 0x0100) = some vm₂ := (Option.some_get _).symm
  have hhit : vm₂.Hits (pageOf (Request.read 0x0000).address) := by decide
  have hinv₀ : vm₀.Inv 2 2 [] := inv_create (by decide) _ _
  have hinv₁ : vm₁.Inv 2 2 [0] := by
    have hinv := hinv₀.of_serve (by decide) h₁
    rwa [hinv₀.reordered_of_notMem (by decide)] at hinv
  have hinv₂ : vm₂.Inv 2 2 [0, 1] := by
    have hinv := hinv₁.of_serve (by decide) h₂
    rwa [hinv₁.reordered_of_notMem (by decide)] at hinv
  obtain ⟨vm₃, f₃, h₃, hinv₃, -⟩ := hinv₂.serve (by decide) (.read 0x0000)
  have hinv₃ : vm₃.Inv 2 2 [0, 1] := by
    rwa [reordered, if_pos hhit] at hinv₃
  obtain ⟨vm₄, f₄, h₄, hinv₄, -⟩ := hinv₃.serve (by decide) (.read 0x0200)
  have hinv₄ : vm₄.Inv 2 2 [1, 2] := by
    rwa [hinv₃.reordered_of_notMem (by decide)] at hinv₄
  have hexec : traced.exec (vm₀, []) [.read 0x0000, .read 0x0100, .read 0x0000] =
      some (vm₃, [0, 1, 0]) :=
    Machine.run_iff_exec.mp (.cons trivial (traced_step h₁)
      (.cons trivial (traced_step h₂) (.cons trivial (traced_step h₃) .nil)))
  have hvalid : ∀ p < 256, p ∈ [0, 1] → (vm₃.pageTable p).valid = true := fun p hp hmem =>
    ((hinv₃.mem_iff p).mp hmem).2
  obtain ⟨v, hv, ⟨-, pre, post, hhistory, hnot, hpost⟩, hevicted⟩ :=
    hall 2 2 _ _ _ _ _ _ (by decide) (by decide) hexec h₄
      (by
        have hnot : ¬(vm₃.pageTable 2).valid = true := fun hvalid =>
          absurd ((hinv₃.mem_iff 2).mpr ⟨by decide, hvalid⟩) (by decide)
        exact Bool.eq_false_iff.mpr hnot)
      fun f hf => (hinv₃.frame_valid f).mpr hf
  have hv0 : v = 0 := by
    by_contra hne
    have hkept := (hevicted 0 (by decide)).mpr
      (.inr ⟨Ne.symm hne, hvalid 0 (by decide) (by decide)⟩)
    exact absurd ((hinv₄.mem_iff 0).mpr ⟨by decide, hkept⟩) (by decide)
  subst hv0
  have hmem := hpost 1 (by decide) (hvalid 1 (by decide) (by decide)) (by decide)
  -- the last access of page 0 is the last one of all
  obtain ⟨post', z, rfl⟩ := (List.eq_nil_or_concat' post).resolve_left (List.ne_nil_of_mem hmem)
  have hlast : [0, 1] ++ [0] = (pre ++ 0 :: post') ++ [z] := by simpa using hhistory
  have hz := (List.append_inj' hlast rfl).2
  exact hnot (by simp [← List.singleton_inj.mp hz])

end Course.Os.VirtualMemory
