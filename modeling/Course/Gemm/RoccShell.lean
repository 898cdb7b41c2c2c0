import Course.Gemm.Product

/-! The instructions of the shell around the accelerator: the DMA engines reach its memory
one request a cycle, and the address of a request selects the operand it decodes for. -/

namespace Course.Gemm

open Course.Lib

structure ReqPackage where
  addr : ℕ
  optype : Bool
  dataWrittenToOnChipMem : BitVec 32

/-- The registers that `infoISA` sets, and the accelerator. -/
structure RoccInterface where
  matDims : Dims
  gemm : MatrixMultiplication

namespace RoccInterface

variable (cfg : Configs)

/-- The inputs of the accelerator in a cycle in which the arbiter passes `req` on. -/
def gemmInput (d : Dims) (start : Bool) (req : Option ReqPackage) : Input :=
  let addr := (req.map ReqPackage.addr).getD 0
  let writeEnable := (req.map ReqPackage.optype).getD false
  { d with
    start
    dataIn := if writeEnable then (req.map ReqPackage.dataWrittenToOnChipMem).getD 0 |>.setWidth 8
      else 0
    address := addr
    select := if addr < cfg.baseAddressB then cfg.selectA
      else if addr < cfg.baseAddressC then cfg.selectB else cfg.selectC
    writeEnable }

def cycle (s : RoccInterface) (start : Bool) (req : Option ReqPackage) (undef : Undef) :
    RoccInterface :=
  { s with gemm := s.gemm.next cfg (gemmInput cfg s.matDims start req) undef }

/-- `dataReadFromOnChipMem` -/
def dataRead (s : RoccInterface) (req : Option ReqPackage) : BitVec 32 :=
  s.gemm.dataOut cfg (gemmInput cfg s.matDims false req)

def access (s : RoccInterface) (reqs : List (Option ReqPackage × Undef)) : RoccInterface :=
  reqs.foldl (fun s r => s.cycle cfg false r.1 r.2) s

/-- `rs1(63,32)` and `rs1(31,0)` -/
def hi (rs1 : ℕ) : ℕ := rs1 / 2 ^ 32 % 2 ^ 32

def lo (rs1 : ℕ) : ℕ := rs1 % 2 ^ 32

/-- The length that a DMA engine keeps, and its first on-chip address. -/
def reqLen (rs1 : ℕ) : ℕ := hi rs1 % 2 ^ cfg.addrWidth % 2 ^ 16

def reqAddr (rs1 i : ℕ) : ℕ := (lo rs1 % 2 ^ cfg.addrWidth + i) % 2 ^ cfg.addrWidth

def loadReq (rs1 i : ℕ) (w : BitVec 64) : ReqPackage where
  addr := reqAddr cfg rs1 i
  optype := true
  dataWrittenToOnChipMem := w.setWidth 32

def storeReq (rs1 i : ℕ) : ReqPackage where
  addr := reqAddr cfg rs1 i
  optype := false
  dataWrittenToOnChipMem := 0

/-- `infoISA` -/
def Info (rs1 rs2 : ℕ) (s s' : RoccInterface) : Prop :=
  ∃ undefs : List Undef, s' = { s.access cfg (undefs.map fun u => (none, u)) with
    matDims := ⟨hi rs1, lo rs1, lo rs1, rs2 % 2 ^ 32⟩ }

/-- `loadISA`: the words of the buffer in order, with any cycles between them. -/
def Load (rs1 : ℕ) (buffer : ℕ → BitVec 64) (s s' : RoccInterface) : Prop :=
  ∃ reqs : List (Option ReqPackage × Undef),
    reqs.filterMap Prod.fst =
      (List.range (reqLen cfg rs1)).map (fun i => loadReq cfg rs1 i (buffer i)) ∧
    s' = s.access cfg reqs

/-- The cycles from `s_compute` on. -/
def computing (s : RoccInterface) (undef : Undef) (undefs : ℕ → Undef) : ℕ → RoccInterface
  | 0 => s.cycle cfg true none undef
  | n + 1 => (computing s undef undefs n).cycle cfg false none (undefs n)

/-- `computeISA`: `s_wait` lasts while the accelerator is busy. -/
def Compute (s s' : RoccInterface) : Prop :=
  ∃ undef undefs n, (∀ j < n, (s.computing cfg undef undefs j).gemm.busy = true) ∧
    (s.computing cfg undef undefs n).gemm.busy = false ∧ s' = s.computing cfg undef undefs n

/-- `storeISA`: each word is what the memory answers in the cycle after its request. -/
def Store (rs1 : ℕ) (s s' : RoccInterface) (buffer : ℕ → BitVec 64) : Prop :=
  ∃ reqs : List (Option ReqPackage × Undef),
    (∀ r ∈ reqs, ∀ q, r.1 = some q → q.optype = false) ∧ s' = s.access cfg reqs ∧
    ∀ i < reqLen cfg rs1, ∃ before undef next after,
      reqs = before ++ (some (storeReq cfg rs1 i), undef) :: next :: after ∧
      buffer i = ((s.access cfg (before ++ [(some (storeReq cfg rs1 i), undef)])).dataRead cfg
        next.1).setWidth 64

variable {cfg} {s s' : RoccInterface} {mem : ℕ → BitVec 8} {rs1 : ℕ}

/-- Where the byte of an on-chip address is. -/
def chipAddress (cfg : Configs) (d : Dims) (a : ℕ) : ℕ :=
  decodedAddress cfg (gemmInput cfg d false (some ⟨a, false, 0⟩))

theorem decodedAddress_req (d : Dims) (q : ReqPackage) :
    decodedAddress cfg (gemmInput cfg d false (some q)) = chipAddress cfg d q.addr := rfl

/-- Requests are cycles of the accelerator. -/
theorem access_eq (reqs : List (Option ReqPackage × Undef)) :
    s.access cfg reqs = { s with
      gemm := MatrixMultiplication.run cfg s.gemm
        (reqs.map fun r => (gemmInput cfg s.matDims false r.1, r.2)) } := by
  induction reqs generalizing s with
  | nil => rfl
  | cons r reqs ih => exact ih

/-- Bytes that no request writes are left alone. -/
theorem access_frame (reqs : List (Option ReqPackage × Undef)) (hs : s.gemm.Idle mem)
    (hlt : ∀ r ∈ reqs, ∀ q, r.1 = some q → q.optype = true →
      chipAddress cfg s.matDims q.addr < cfg.memSize) :
    ∃ mem', (s.access cfg reqs).gemm.Idle mem' ∧ ∀ x,
      (∀ r ∈ reqs, ∀ q, r.1 = some q → q.optype = true → chipAddress cfg s.matDims q.addr ≠ x) →
      mem' x = mem x := by
  rw [access_eq]
  have isWrite : ∀ r ∈ reqs, (gemmInput cfg s.matDims false r.1).writeEnable = true →
      ∃ q, r.1 = some q ∧ q.optype = true := by
    rintro ⟨_ | q, u⟩ - hw
    · cases hw
    · exact ⟨q, rfl, hw⟩
  have quiet : MatrixMultiplication.Quiet cfg
      (reqs.map fun r => (gemmInput cfg s.matDims false r.1, r.2)) := by
    intro io hio
    obtain ⟨r, hr, rfl⟩ := List.mem_map.mp hio
    refine ⟨rfl, fun hw => ?_⟩
    obtain ⟨q, hq, ho⟩ := isWrite r hr hw
    have := hlt r hr q hq ho
    rw [← decodedAddress_req, ← hq] at this
    exact this
  obtain ⟨mem', hidle, hx⟩ := hs.run_memory quiet
  refine ⟨mem', hidle, fun x hfree => hx x (mem x) (fun io hio hw ha => ?_) (.inr rfl)⟩
  obtain ⟨r, hr, rfl⟩ := List.mem_map.mp hio
  obtain ⟨q, hq, ho⟩ := isWrite r hr hw
  refine absurd ?_ (hfree r hr q hq ho)
  rw [← decodedAddress_req, ← hq]
  exact ha

theorem access_reads (reqs : List (Option ReqPackage × Undef)) (hs : s.gemm.Idle mem)
    (h : ∀ r ∈ reqs, ∀ q, r.1 = some q → q.optype = false) :
    (s.access cfg reqs).gemm.Idle mem := by
  rw [access_eq]
  refine hs.run_reads cfg fun io hio => ?_
  obtain ⟨⟨_ | q, u⟩, hr, rfl⟩ := List.mem_map.mp hio
  · exact ⟨rfl, rfl⟩
  · exact ⟨rfl, h _ hr q rfl⟩

theorem Load.idle {buffer : ℕ → BitVec 64} (h : Load cfg rs1 buffer s s') (hs : s.gemm.Idle mem)
    (hlt : ∀ i < reqLen cfg rs1, chipAddress cfg s.matDims (reqAddr cfg rs1 i) < cfg.memSize) :
    s'.matDims = s.matDims ∧ ∃ mem', s'.gemm.Idle mem' ∧ ∀ x,
      (∀ i < reqLen cfg rs1, chipAddress cfg s.matDims (reqAddr cfg rs1 i) ≠ x) →
      mem' x = mem x := by
  obtain ⟨reqs, hreqs, rfl⟩ := h
  have place : ∀ r ∈ reqs, ∀ q, r.1 = some q →
      ∃ i < reqLen cfg rs1, q.addr = reqAddr cfg rs1 i := by
    intro r hr q hq
    have hm : q ∈ reqs.filterMap Prod.fst := List.mem_filterMap.mpr ⟨r, hr, hq⟩
    rw [hreqs] at hm
    obtain ⟨i, hi, rfl⟩ := List.mem_map.mp hm
    exact ⟨i, List.mem_range.mp hi, rfl⟩
  refine ⟨by rw [access_eq], ?_⟩
  obtain ⟨mem', hidle, hx⟩ := access_frame reqs hs fun r hr q hq _ => by
    obtain ⟨i, hi, ha⟩ := place r hr q hq
    exact ha ▸ hlt i hi
  refine ⟨mem', hidle, fun x hfree => hx x fun r hr q hq _ => ?_⟩
  obtain ⟨i, hi, ha⟩ := place r hr q hq
  exact ha ▸ hfree i hi

variable (cfg s rs1) in
theorem exists_load (buffer : ℕ → BitVec 64) : ∃ s', Load cfg rs1 buffer s s' := by
  refine ⟨_, (List.range (reqLen cfg rs1)).map
    (fun i => (some (loadReq cfg rs1 i (buffer i)), fun _ _ => 0)), ?_, rfl⟩
  rw [List.filterMap_map]
  exact congrFun List.filterMap_eq_map _

/-- The cycles of a computation, as the accelerator sees them. -/
theorem computing_eq (undef : Undef) (undefs : ℕ → Undef) (n : ℕ) :
    s.computing cfg undef undefs n = { s with
      gemm := MatrixMultiplication.cycles cfg
        (s.gemm.next cfg (gemmInput cfg s.matDims true none) undef)
        (fun n => (gemmInput cfg s.matDims false none, undefs n)) n } := by
  induction n with
  | zero => rfl
  | succ n ih => rw [computing, ih]; rfl

theorem computing_idle (L : Layout cfg s.matDims) (hs : s.gemm.Idle mem) (undef : Undef)
    (undefs : ℕ → Undef) :
    ∃ n, (∀ j < n, (s.computing cfg undef undefs j).gemm.busy = true) ∧
      ∃ mem', (s.computing cfg undef undefs n).gemm.Idle mem' ∧
        ∀ x < cfg.baseAddressC, ¬s.matDims.Zone cfg x → mem' x = mem x := by
  have hleads := (hs.leads (gemmInput cfg s.matDims true none) undef L rfl rfl rfl).2
  obtain ⟨n, hbusy, mem', hidle, hdone⟩ :=
    Leads.exists_time
      (MatrixMultiplication.cycles cfg (s.gemm.next cfg (gemmInput cfg s.matDims true none) undef)
        fun n => (gemmInput cfg s.matDims false none, undefs n))
      (MatrixMultiplication.cycles_goes fun n => ⟨rfl, rfl⟩) hleads
  refine ⟨n, fun j hj => ?_, mem', ?_, fun x hx hz => ?_⟩
  · rw [computing_eq]
    exact hbusy j hj
  · rw [computing_eq]
    exact hidle
  · rw [hdone.below x hx, Dims.padded, if_neg hz]

theorem busy_of_idle {t : MatrixMultiplication} (h : t.Idle mem) : t.busy = false := by
  simp [MatrixMultiplication.busy, h.1]

theorem Compute.idle (h : Compute cfg s s') (L : Layout cfg s.matDims) (hs : s.gemm.Idle mem) :
    s'.matDims = s.matDims ∧ ∃ mem', s'.gemm.Idle mem' ∧
      ∀ x < cfg.baseAddressC, ¬s.matDims.Zone cfg x → mem' x = mem x := by
  obtain ⟨undef, undefs, n, hbusy, hdone, rfl⟩ := h
  obtain ⟨n', hbusy', mem', hidle, hx⟩ := computing_idle L hs undef undefs
  -- both are the first time that the accelerator is not busy
  obtain rfl : n = n' := by
    rcases Nat.lt_trichotomy n n' with hlt | heq | hgt
    · simp [hbusy' n hlt] at hdone
    · exact heq
    · have := hbusy n' hgt
      simp [busy_of_idle hidle] at this
  exact ⟨by rw [computing_eq], mem', hidle, hx⟩

theorem exists_compute (L : Layout cfg s.matDims) (hs : s.gemm.Idle mem) :
    ∃ s', Compute cfg s s' := by
  obtain ⟨n, hbusy, mem', hidle, -⟩ := computing_idle L hs (fun _ _ => 0) (fun _ _ _ => 0)
  exact ⟨_, _, _, n, hbusy, busy_of_idle hidle, rfl⟩

theorem Store.words {buffer : ℕ → BitVec 64} (h : Store cfg rs1 s s' buffer)
    (hs : s.gemm.Idle mem) {i : ℕ} (hi : i < reqLen cfg rs1)
    (hlt : chipAddress cfg s.matDims (reqAddr cfg rs1 i) + 3 < cfg.memSize) :
    buffer i = (wordAt mem (chipAddress cfg s.matDims (reqAddr cfg rs1 i))).setWidth 64 := by
  obtain ⟨reqs, hread, -, hwords⟩ := h
  obtain ⟨before, undef, next, after, rfl, hb⟩ := hwords i hi
  have hbefore : (s.access cfg before).gemm.Idle mem := access_reads before hs fun r hr =>
    hread r (List.mem_append_left _ hr)
  have hnext : (gemmInput cfg s.matDims false next.1).writeEnable = false := by
    have := hread next (by simp)
    obtain ⟨_ | q, u⟩ := next
    · rfl
    · exact this q rfl
  rw [hb]
  congr 1
  rw [access_eq] at hbefore
  rw [access_eq, dataRead]
  simp only [List.map_append, MatrixMultiplication.run, List.foldl_append]
  exact hbefore.dataOut rfl rfl hnext hlt

theorem range_split {n i : ℕ} (h : i < n) :
    ∃ l, List.range n = List.range i ++ i :: l := by
  obtain ⟨k, rfl⟩ := Nat.exists_eq_add_of_lt h
  refine ⟨List.map (i + 1 + ·) (List.range k), ?_⟩
  rw [show i + k + 1 = i + 1 + k by omega, List.range_add, List.range_succ, List.append_assoc]
  rfl

variable (cfg s rs1) in
/-- One request a cycle, and a cycle for the last answer. -/
theorem exists_store : ∃ s' buffer, Store cfg rs1 s s' buffer := by
  let req : ℕ → Option ReqPackage × Undef := fun i => (some (storeReq cfg rs1 i), fun _ _ => 0)
  let reqs := (List.range (reqLen cfg rs1)).map req ++ [(none, fun _ _ => 0)]
  have split : ∀ i < reqLen cfg rs1, ∃ next after,
      reqs = (List.range i).map req ++ req i :: next :: after := by
    intro i hi
    obtain ⟨l, hl⟩ := range_split hi
    have hreqs : reqs =
        (List.range i).map req ++ req i :: (l.map req ++ [(none, fun _ _ => 0)]) := by
      simp [reqs, hl]
    cases l with
    | nil => exact ⟨_, _, hreqs⟩
    | cons j l => exact ⟨_, _, hreqs⟩
  have words : ∀ i, ∃ w : BitVec 64, i < reqLen cfg rs1 → ∃ before undef next after,
      reqs = before ++ (some (storeReq cfg rs1 i), undef) :: next :: after ∧
      w = ((s.access cfg (before ++ [(some (storeReq cfg rs1 i), undef)])).dataRead cfg
        next.1).setWidth 64 := by
    intro i
    by_cases hi : i < reqLen cfg rs1
    · obtain ⟨next, after, h⟩ := split i hi
      exact ⟨_, fun _ => ⟨_, _, next, after, h, rfl⟩⟩
    · exact ⟨0, fun h => absurd h hi⟩
  obtain ⟨buffer, hbuffer⟩ := Classical.axiomOfChoice words
  refine ⟨_, buffer, reqs, fun r hr q hq => ?_, rfl, hbuffer⟩
  rcases List.mem_append.mp hr with hr | hr
  · obtain ⟨i, -, rfl⟩ := List.mem_map.mp hr
    cases hq
    rfl
  · obtain rfl := List.mem_singleton.mp hr
    cases hq

end RoccInterface

end Course.Gemm
