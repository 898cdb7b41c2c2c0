import Course.Rdt.Download

/-! The timeouts of the server's tasks, which follow how long the blocks took to
be acknowledged. -/

open Course.Lib

namespace Course.Rdt.Server

variable {κ : Type} {files : Files} {timeout : ℤ}

theorem clamp_mem {v lo hi : ℤ} (h : lo ≤ hi) : lo ≤ clamp v lo hi ∧ clamp v lo hi ≤ hi := by
  unfold clamp
  split
  · exact ⟨le_refl lo, h⟩
  next hlo =>
    split
    · exact ⟨h, le_refl hi⟩
    next hhi => exact ⟨Int.not_lt.mp hlo, Int.not_lt.mp hhi⟩

/-- The averages that a timeout is computed from. -/
structure Task.Paced (t : Task) : Prop where
  average : 0 ≤ t.average
  variance : 0 ≤ t.variance

theorem Task.Paced.congr {t t' : Task} (h : t.Paced) (haverage : t'.average = t.average)
    (hvariance : t'.variance = t.variance) : t'.Paced :=
  ⟨haverage ▸ h.average, hvariance ▸ h.variance⟩

theorem fill_paced (retries : ℕ) (client : κ) (now : ℤ) (n : ℕ) (channel : Channel κ) {t : Task}
    (h : t.Paced) : (fill retries client now n channel t).2.1.Paced := by
  induction n generalizing channel t with
  | zero => exact h
  | succ n ih =>
    rw [fill]
    split
    · generalize t.file.read (min (t.file.position + sBlockSize) t.size - t.file.position) = r
      obtain ⟨bytes, file⟩ := r
      simp only
      split
      · exact h.congr rfl rfl
      · exact ih _ (h.congr rfl rfl)
    · exact h

variable [DecidableEq κ] {s s' : Server κ}

/-- The configured timeout, and the averages of every task. -/
structure Paced (timeout : ℤ) (s : Server κ) : Prop where
  timeout : s.mTimeout = timeout
  tasks : ∀ client t, s.mTasks.lookup client = some t → t.Paced

namespace Paced

theorem new (timeout : ℤ) (retries : ℕ) : (Server.new timeout retries : Server κ).Paced timeout where
  timeout := rfl
  tasks client t ht := by simp [Server.new] at ht

theorem of_subset (h : s.Paced timeout) (htimeout : s'.mTimeout = s.mTimeout)
    (htasks : ∀ client t, s'.mTasks.lookup client = some t → s.mTasks.lookup client = some t) :
    s'.Paced timeout where
  timeout := htimeout.trans h.timeout
  tasks client t ht := h.tasks client t (htasks client t ht)

/-- One task stored in the place of another. -/
theorem store (h : s.Paced timeout) (htimeout : s'.mTimeout = s.mTimeout) {client : κ} {t : Task}
    (htasks : s'.mTasks = s.mTasks.insert client t) (ht : t.Paced) : s'.Paced timeout where
  timeout := htimeout.trans h.timeout
  tasks client' t' ht' := by
    rw [htasks] at ht'
    rcases eq_or_ne client' client with rfl | hne
    · rw [AList.lookup_insert, Option.some.injEq] at ht'
      exact ht' ▸ ht
    · rw [AList.lookup_insert_ne hne] at ht'
      exact h.tasks client' t' ht'

theorem terminate (h : s.Paced timeout) (client : κ) : (s.terminate client).Paced timeout := by
  apply h.of_subset
  · unfold Server.terminate
    split <;> rfl
  · exact fun _ _ ht => lookup_of_terminate ht

theorem work (h : s.Paced timeout) (client : κ) {t : Task} (ht : t.Paced) (now : ℤ) :
    (s.work client t now).1.Paced timeout := by
  unfold Server.work
  split
  · exact h
  · have hfill := fill_paced s.mRetries client now (t.size + 1) s.mChannel ht
    generalize fill s.mRetries client now (t.size + 1) s.mChannel t = r at hfill ⊢
    obtain ⟨channel, t', thrown⟩ := r
    simp only at hfill ⊢
    split
    · exact h.store rfl rfl hfill
    · split
      · have hstore : Paced timeout { s with
            mChannel := channel
            mTasks := s.mTasks.insert client { t' with checksum := t'.checksum.finalize } } :=
          h.store rfl rfl (hfill.congr rfl rfl)
        split
        · exact hstore
        · exact hstore.of_subset rfl fun _ _ ht => ht
      · exact h.store rfl rfl hfill

theorem visit (h : s.Paced timeout) (complete : List κ) (now : ℤ) (client : κ) :
    (Server.visit now (s, complete) client).1.Paced timeout := by
  unfold Server.visit
  split
  · exact h
  next t ht =>
    have hwork := h.work client (h.tasks client t ht) now
    split
    all_goals
      next heq =>
        simp only at heq
        rw [heq] at hwork
        exact hwork.of_subset rfl fun _ _ ht => ht

theorem callback (h : s.Paced timeout) (callback : Channel.Callback κ) :
    (s.callback callback).Paced timeout := by
  cases callback with
  | retry task =>
    change (s.onRetry task).Paced timeout
    unfold onRetry
    split
    · exact h
    next t ht => exact h.store rfl rfl ((h.tasks _ t ht).congr rfl rfl)
  | timeout task => exact (h.terminate task.address).of_subset rfl fun _ _ ht => ht

/-- A task begins with the configured timeout as its average. -/
theorem onGet (h : s.Paced timeout) (htimeout : 1 ≤ timeout) (client : κ) (path : Data) :
    (s.onGet files client path).Paced timeout := by
  have hpos : 0 ≤ s.mTimeout := by rw [h.timeout]; omega
  unfold Server.onGet
  split
  · exact h.of_subset rfl fun _ _ ht => ht
  · simp only
    split
    · exact h.of_subset rfl fun _ _ ht => ht
    · exact h.store rfl rfl ⟨hpos, le_refl 0⟩

theorem onChecksum (h : s.Paced timeout) (client : κ) (path checksum : Data) :
    (s.onChecksum files client path checksum).Paced timeout := by
  have hterminate := h.terminate client
  unfold Server.onChecksum
  simp only
  split
  · exact hterminate.of_subset rfl fun _ _ ht => ht
  · split
    · exact hterminate.of_subset rfl fun _ _ ht => ht
    · split
      · exact hterminate.of_subset rfl fun _ _ ht => ht
      · exact hterminate.of_subset rfl fun _ _ ht => ht

end Paced

/-! ### Acknowledgements -/

/-- The task and the packet that a message updates, if it is an acknowledgement
of an outstanding block. -/
def acknowledgedPacket (s : Server κ) (client : κ) (data : Data) : Option (Task × Packet) :=
  match Protocol.deserialize data with
  | .ok (.acknowledge _ block) =>
    (s.mTasks.lookup client).bind fun task =>
      (task.packets.lookup block.toNat).map fun packet => (task, packet)
  | _ => none

/-- The value and the bounds that `onAcknowledge` gives to `clamp`. -/
structure ClampCall where
  v : ℤ
  lo : ℤ
  hi : ℤ
  deriving DecidableEq

def clampCall (s : Server κ) (t : Task) (elapsed : ℤ) : ClampCall :=
  let average := (t.average * 7 + elapsed).tdiv 8
  let variance := (t.variance * 3 + |average - elapsed|).tdiv 4
  ⟨average + variance * 4, 100, s.mTimeout⟩

variable (files) in
/-- An acknowledgement that updates a task puts another one in its place. -/
theorem onReceive_acknowledgedPacket {client : κ} {data : Data} {t : Task} {packet : Packet}
    (now : ℤ) (h : s.acknowledgedPacket client data = some (t, packet)) :
    ∃ s' t', s.onReceive files client data now = some s' ∧ s'.mTimeout = s.mTimeout ∧
      s'.mTasks = s.mTasks.insert client t' ∧
      t'.average = (t.average * 7 + (now - packet.departure)).tdiv 8 ∧
      t'.variance = (t.variance * 3 + |t'.average - (now - packet.departure)|).tdiv 4 ∧
      ∃ call, s.clampCall t (now - packet.departure) = call ∧
        t'.timeout = clamp call.v call.lo call.hi := by
  unfold acknowledgedPacket at h
  split at h
  next block hdata =>
    obtain ⟨t₁, ht, hpacket⟩ := Option.bind_eq_some_iff.mp h
    obtain ⟨packet₁, hpacket, heq⟩ := Option.map_eq_some_iff.mp hpacket
    cases heq
    simp only [onReceive, hdata, onAcknowledge, ht, hpacket]
    exact ⟨_, _, rfl, rfl, rfl, rfl, rfl, _, rfl, rfl⟩
  · cases h

/-- Time does not run backwards between a departure and its acknowledgement. -/
def Forward (s : Running κ) : Event κ → Prop
  | .receive client data now => ∀ u ∈ s.server.acknowledgedPacket client data, u.2.departure ≤ now
  | .turn _ => True

instance (s : Running κ) : (e : Event κ) → Decidable (Forward s e)
  | .receive client data now =>
    inferInstanceAs
      (Decidable (∀ u ∈ s.server.acknowledgedPacket client data, u.2.departure ≤ now))
  | .turn _ => .isTrue trivial

/-- The update of a task, for any time that has passed: both averages stay what
truncating division leaves not negative. -/
theorem Task.Paced.update {t t' : Task} (h : t.Paced) {elapsed : ℤ} (helapsed : 0 ≤ elapsed)
    (haverage : t'.average = (t.average * 7 + elapsed).tdiv 8)
    (hvariance : t'.variance = (t.variance * 3 + |t'.average - elapsed|).tdiv 4) : t'.Paced := by
  have havg := h.average
  have hvar := h.variance
  have habs := abs_nonneg (t'.average - elapsed)
  constructor
  · rw [haverage]
    exact Int.tdiv_nonneg (by omega) (by omega)
  · rw [hvariance]
    exact Int.tdiv_nonneg (by omega) (by omega)

namespace Paced

theorem acknowledge (h : s.Paced timeout) {client : κ} {data : Data} {now : ℤ} {t : Task}
    {packet : Packet} (hacknowledged : s.acknowledgedPacket client data = some (t, packet))
    (hforward : packet.departure ≤ now) (hs' : s.onReceive files client data now = some s') :
    s'.Paced timeout := by
  obtain ⟨s₁, t', hs₁, htimeout, htasks, haverage, hvariance, -⟩ :=
    onReceive_acknowledgedPacket files now hacknowledged
  rw [hs'] at hs₁
  cases hs₁
  have ht : t.Paced := by
    unfold acknowledgedPacket at hacknowledged
    split at hacknowledged
    · obtain ⟨t₁, ht₁, hpacket⟩ := Option.bind_eq_some_iff.mp hacknowledged
      obtain ⟨packet₁, -, heq⟩ := Option.map_eq_some_iff.mp hpacket
      cases heq
      exact h.tasks client t ht₁
    · cases hacknowledged
  exact h.store htimeout htasks (ht.update (by omega) haverage hvariance)

theorem onReceive (h : s.Paced timeout) (htimeout : 1 ≤ timeout) {client : κ} {data : Data}
    {now : ℤ} (hforward : ∀ u ∈ s.acknowledgedPacket client data, u.2.departure ≤ now)
    (hs' : s.onReceive files client data now = some s') : s'.Paced timeout := by
  cases hacknowledged : s.acknowledgedPacket client data with
  | some u => exact h.acknowledge hacknowledged (hforward u hacknowledged) hs'
  | none =>
    unfold Server.onReceive at hs'
    split at hs'
    · cases hs'
      unfold onQuery
      split
      · exact h.of_subset rfl fun _ _ ht => ht
      · exact h.of_subset rfl fun _ _ ht => ht
    · cases hs'
      exact h.onGet htimeout client _
    next block hdata =>
      cases hs'
      simp only [acknowledgedPacket, hdata] at hacknowledged
      unfold onAcknowledge
      split
      · exact h
      next t ht =>
        split
        · exact h
        next packet hpacket =>
          simp [ht, hpacket] at hacknowledged
    · cases hs'
      exact h.onChecksum client _ _
    · cases hs'
      exact h
    · cases hs'
      exact h.of_subset rfl fun _ _ ht => ht
    · cases hs'

end Paced

theorem Paced.step {r r' : Running κ} (h : r.server.Paced timeout) (htimeout : 1 ≤ timeout)
    {e : Event κ} (hforward : Forward r e) (hstep : r.step files e = some r') :
    r'.server.Paced timeout := by
  cases e with
  | receive client data now =>
    obtain ⟨server, hserver, rfl⟩ := Option.map_eq_some_iff.mp hstep
    exact h.onReceive htimeout hforward hserver
  | turn turn =>
    cases hstep
    cases turn with
    | worker order now =>
      rw [Running.turn]
      split
      · exact worker_rule (K := Server.Paced timeout)
          (fun _ complete client hs => hs.visit complete now client)
          (fun _ client hs => hs.terminate client) h
      · exact h
    | timer handle => exact h.of_subset rfl fun _ _ ht => ht
    | callback i =>
      rw [Running.turn]
      split
      · exact h
      · exact h.callback _

/-- What an update of a task is to be: a call of `clamp` with its bounds in
order, and a timeout and averages in their ranges. -/
structure Task.Regular (mTimeout : ℤ) (call : ClampCall) (t : Task) : Prop where
  bounds : call.lo ≤ call.hi
  timeout : min 100 mTimeout ≤ t.timeout ∧ t.timeout ≤ mTimeout
  average : 0 ≤ t.average
  variance : 0 ≤ t.variance

/-- In every run in which time does not run backwards, every update of a task is
regular if and only if the configured timeout is at least 100 ms. -/
theorem run_regular_iff (files : Files) (timeout : ℤ) (htimeout : 1 ≤ timeout) (retries : ℕ)
    (es : List (Event κ)) (r : Running κ)
    (hrun : Machine.Run (machine files) Forward ⟨new timeout retries, []⟩ es r)
    (client : κ) (data : Data) (now : ℤ) (t : Task) (packet : Packet)
    (hacknowledged : r.server.acknowledgedPacket client data = some (t, packet))
    (hforward : packet.departure ≤ now) :
    ∃ r' t', r.step files (.receive client data now) = some r' ∧
      r'.server.mTasks.lookup client = some t' ∧
      ∃ call, r.server.clampCall t (now - packet.departure) = call ∧
        t'.timeout = clamp call.v call.lo call.hi ∧
        (t'.Regular r.server.mTimeout call ↔ 100 ≤ timeout) := by
  have hpaced : r.server.Paced timeout :=
    hrun.invariant (I := fun r => r.server.Paced timeout)
      (fun _ _ _ hr he hstep => hr.step htimeout he hstep) (Paced.new timeout retries)
  obtain ⟨s', t', hs', -, htasks, -, -, call, rfl, hclamp⟩ :=
    onReceive_acknowledgedPacket files now hacknowledged
  have hlookup : s'.mTasks.lookup client = some t' := by rw [htasks, AList.lookup_insert]
  have ht' : t'.Paced :=
    (hpaced.acknowledge hacknowledged hforward hs').tasks client t' hlookup
  refine ⟨{ r with server := s' }, t', by simp [Running.step, hs'], hlookup, _, rfl, hclamp, ?_⟩
  rw [← hpaced.timeout]
  constructor
  · exact fun h => h.bounds
  · intro h
    obtain ⟨hlo, hhi⟩ := clamp_mem (v := (r.server.clampCall t (now - packet.departure)).v) h
    refine ⟨h, ?_, ht'.average, ht'.variance⟩
    rw [hclamp]
    exact ⟨(min_le_left ..).trans hlo, hhi⟩

/-- A transfer up to its first block. -/
def sentA : List (Event ℕ) :=
  [.receive 1 (Protocol.get System.fileA.1).serialize 0, .turn (.worker [1] 0)]

/-- The block is acknowledged 30 ms later. -/
def ackedA : Data := (Protocol.acknowledge System.fileA.1 0).serialize

theorem run_regular_iff_oneBlock :
    ∃ (r : Running ℕ) (t : Task) (packet : Packet),
      (machine System.twoFiles).execWhile Forward ⟨new 1000 5, []⟩ sentA = some r ∧
        r.server.acknowledgedPacket 1 ackedA = some (t, packet) ∧ packet.departure ≤ 30 ∧
      ∃ r' t', r.step System.twoFiles (.receive 1 ackedA 30) = some r' ∧
        r'.server.mTasks.lookup 1 = some t' ∧
        ∃ call, r.server.clampCall t (30 - packet.departure) = call ∧
          t'.timeout = clamp call.v call.lo call.hi ∧
          (t'.Regular r.server.mTimeout call ↔ (100 : ℤ) ≤ 1000) := by
  let r := ((machine System.twoFiles).execWhile Forward ⟨new 1000 5, []⟩ sentA).get
    (by decide +kernel)
  have hrun : (machine System.twoFiles).execWhile Forward ⟨new 1000 5, []⟩ sentA = some r :=
    (Option.some_get _).symm
  let u := (r.server.acknowledgedPacket 1 ackedA).get (by decide +kernel)
  have hu : r.server.acknowledgedPacket 1 ackedA = some (u.1, u.2) := (Option.some_get _).symm
  have hforward : u.2.departure ≤ 30 := by decide +kernel
  exact ⟨r, u.1, u.2, hrun, hu, hforward, run_regular_iff System.twoFiles 1000 (by decide) 5 sentA r
    (Machine.run_iff_execWhile.mpr hrun) 1 ackedA 30 u.1 u.2 hu hforward⟩

/-- With a timeout of 50 ms the bounds of `clamp` are the wrong way round. -/
theorem exec_not_regular :
    ¬∀ (files : Files) (timeout : ℤ) (retries : ℕ) (es : List (Event ℕ)) (r : Running ℕ),
      1 ≤ timeout → Machine.Run (machine files) Forward ⟨new timeout retries, []⟩ es r →
      ∀ (client : ℕ) (data : Data) (now : ℤ) (t : Task) (packet : Packet),
        r.server.acknowledgedPacket client data = some (t, packet) → packet.departure ≤ now →
        ∀ r' t', r.step files (.receive client data now) = some r' →
          r'.server.mTasks.lookup client = some t' →
          t'.Regular r.server.mTimeout (r.server.clampCall t (now - packet.departure)) := by
  intro h
  let r := ((machine System.twoFiles).execWhile Forward ⟨new 50 5, []⟩ sentA).get (by decide +kernel)
  have hrun : (machine System.twoFiles).execWhile Forward ⟨new 50 5, []⟩ sentA = some r :=
    (Option.some_get _).symm
  let u := (r.server.acknowledgedPacket 1 ackedA).get (by decide +kernel)
  have hu : r.server.acknowledgedPacket 1 ackedA = some (u.1, u.2) := (Option.some_get _).symm
  let r' := (r.step System.twoFiles (.receive 1 ackedA 30)).get (by decide +kernel)
  let t' := (r'.server.mTasks.lookup 1).get (by decide +kernel)
  have hregular := h System.twoFiles 50 5 sentA r (by decide) (Machine.run_iff_execWhile.mpr hrun)
    1 ackedA 30 u.1 u.2 hu (by decide +kernel) r' t' (Option.some_get _).symm
    (Option.some_get _).symm
  have htimeout : r.server.mTimeout = 50 := by decide +kernel
  have hle : (100 : ℤ) ≤ r.server.mTimeout := hregular.bounds
  rw [htimeout] at hle
  exact absurd hle (by decide)

end Course.Rdt.Server
