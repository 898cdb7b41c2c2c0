import Course.Rdt.Bookkeeping

/-! Which task a callback of the channel is about, when several transfers and
queries of one client follow each other. -/

open Course.Lib

namespace Course.Rdt

variable {κ : Type}

/-! ### The channel -/

namespace Channel

/-- Handles not yet given out name no task, and the tries of a task are on the
wire. -/
structure Recorded (c : Channel κ) : Prop where
  fresh : ∀ h, c.mHandle ≤ h → c.mTasks h = none
  sent : ∀ h detail, c.mTasks h = some detail →
    ∀ j < detail.tries, ⟨h, j, detail.task⟩ ∈ c.sent

variable {c : Channel κ}

theorem recorded_new : (new : Channel κ).Recorded where
  fresh _ _ := rfl
  sent _ _ h := by cases h

theorem Recorded.terminate (h : c.Recorded) (handle : ℕ) : (c.terminate handle).Recorded where
  fresh h' hle := by
    rcases eq_or_ne h' handle with rfl | hne
    · exact Function.update_self ..
    · exact (Function.update_of_ne hne ..).trans (h.fresh h' hle)
  sent h' detail hd := by
    rcases eq_or_ne h' handle with rfl | hne
    · rw [terminate_mTasks, Function.update_self] at hd
      cases hd
    · rw [terminate_mTasks, Function.update_of_ne hne] at hd
      exact h.sent h' detail hd

theorem Recorded.send (h : c.Recorded) (task : Task κ) (timeout : ℤ) (retries : ℕ) :
    (c.send task timeout retries).1.Recorded where
  fresh h' hle := by
    rw [send_mHandle] at hle
    rw [send_mTasks, Function.update_of_ne (by omega)]
    exact h.fresh h' (by omega)
  sent h' detail hd j hj := by
    rw [send_mTasks] at hd
    rw [send_sent]
    rcases eq_or_ne h' c.mHandle with rfl | hne
    · rw [Function.update_self] at hd
      cases hd
      obtain rfl : j = 0 := by simpa using hj
      simp
    · rw [Function.update_of_ne hne] at hd
      exact List.mem_append_left _ (h.sent h' detail hd j hj)

theorem Recorded.timer (h : c.Recorded) (handle : ℕ) : (c.timer handle).1.Recorded := by
  obtain heq | ⟨detail, hdetail, -, ⟨-, heq⟩ | ⟨-, heq⟩⟩ := timer_cases c handle
  · rw [heq]
    exact h
  all_goals
    rw [heq]
    refine ⟨fun h' hle => ?_, fun h' d hd j hj => ?_⟩
    · have hne : h' ≠ handle := by
        rintro rfl
        rw [h.fresh h' hle] at hdetail
        cases hdetail
      exact (Function.update_of_ne hne ..).trans (h.fresh h' hle)
    · rcases eq_or_ne h' handle with rfl | hne
      · simp only [Function.update_self, Option.some.injEq] at hd
        subst hd
        first
          | exact h.sent h' detail hdetail j hj
          | rcases Nat.lt_succ_iff_lt_or_eq.mp hj with hj | rfl
            · exact List.mem_append_left _ (h.sent h' detail hdetail j hj)
            · simp
      · simp only [Function.update_of_ne hne] at hd
        first
          | exact h.sent h' d hd j hj
          | exact List.mem_append_left _ (h.sent h' d hd j hj)

end Channel

namespace Server

variable [DecidableEq κ] {files : Files}

/-! ### The packets of a task -/

/-- The same transfers as before, or fewer. -/
structure Follows (s s' : Server κ) : Prop where
  retries : s'.mRetries = s.mRetries
  sent : s.mChannel.sent <+: s'.mChannel.sent
  tasks : ∀ client t', s'.mTasks.lookup client = some t' →
    ∃ t, s.mTasks.lookup client = some t ∧ t'.path = t.path ∧ t'.file.content = t.file.content

/-- What can still be sent again to a client with a task is a packet of that
task. -/
structure Guarded (s : Server κ) : Prop where
  recorded : s.mChannel.Recorded
  behind : ∀ client t, s.mTasks.lookup client = some t →
    ∀ k ∈ t.packets, k * sBlockSize < t.file.position
  live : ∀ h detail, s.mChannel.mTasks h = some detail → detail.retries ≠ 0 → detail.shots ≠ 0 →
    ∀ t, s.mTasks.lookup detail.task.address = some t →
      detail.retries = s.mRetries ∧ ∃ k packet, t.packets.lookup k = some packet ∧
        packet.handle = h ∧ detail.task = t.block detail.task.address k

variable {s s' s'' : Server κ}

theorem Follows.refl (s : Server κ) : Follows s s :=
  ⟨rfl, List.prefix_rfl, fun _ t ht => ⟨t, ht, rfl, rfl⟩⟩

theorem Follows.trans (h : Follows s s') (h' : Follows s' s'') : Follows s s'' where
  retries := h'.retries.trans h.retries
  sent := h.sent.trans h'.sent
  tasks client t'' ht'' := by
    obtain ⟨t', ht', hpath', hcontent'⟩ := h'.tasks client t'' ht''
    obtain ⟨t, ht, hpath, hcontent⟩ := h.tasks client t' ht'
    exact ⟨t, ht, hpath'.trans hpath, hcontent'.trans hcontent⟩

theorem Follows.of_subset (hretries : s'.mRetries = s.mRetries)
    (hsent : s.mChannel.sent <+: s'.mChannel.sent)
    (htasks : ∀ client t, s'.mTasks.lookup client = some t → s.mTasks.lookup client = some t) :
    Follows s s' := ⟨hretries, hsent, fun client t ht => ⟨t, htasks client t ht, rfl, rfl⟩⟩

theorem guarded_new (timeout : ℤ) (retries : ℕ) : (new timeout retries : Server κ).Guarded where
  recorded := Channel.recorded_new
  behind client t ht := by simp [new] at ht
  live h detail hd := by simp [new, Channel.new] at hd

/-- Tasks whose packets are as they were. -/
theorem Guarded.of_tasks (h : s.Guarded) (hchannel : s'.mChannel = s.mChannel)
    (hretries : s'.mRetries = s.mRetries)
    (htasks : ∀ client t', s'.mTasks.lookup client = some t' → ∃ t,
      s.mTasks.lookup client = some t ∧ t'.path = t.path ∧ t'.file = t.file ∧ t'.packets = t.packets) :
    s'.Guarded where
  recorded := hchannel ▸ h.recorded
  behind client t' ht' k hk := by
    obtain ⟨t, ht, -, hfile, hpackets⟩ := htasks client t' ht'
    rw [hfile]
    exact h.behind client t ht k (hpackets ▸ hk)
  live h' detail hd hne hshots t' ht' := by
    rw [hchannel] at hd
    obtain ⟨t, ht, hpath, hfile, hpackets⟩ := htasks _ t' ht'
    obtain ⟨hr, k, packet, hpacket, hhandle, htask⟩ := h.live h' detail hd hne hshots t ht
    refine ⟨hr.trans hretries.symm, k, packet, hpackets ▸ hpacket, hhandle, ?_⟩
    rwa [Task.block, hpath, hfile]

/-- A reply that is sent once, or one to a client without a task. -/
theorem Guarded.send (h : s.Guarded) (task : Channel.Task κ) (timeout : ℤ) (retries : ℕ)
    (hquiet : retries = 0 ∨ task.address ∉ s.mTasks) :
    Guarded { s with mChannel := (s.mChannel.send task timeout retries).1 } where
  recorded := h.recorded.send task timeout retries
  behind := h.behind
  live h' detail hd hne hshots t ht := by
    rw [Channel.send_mTasks] at hd
    rcases eq_or_ne h' s.mChannel.mHandle with rfl | hold
    · rw [Function.update_self] at hd
      cases hd
      rcases hquiet with rfl | hfree
      · exact absurd rfl hne
      · rw [AList.lookup_eq_none.mpr hfree] at ht
        cases ht
    · rw [Function.update_of_ne hold] at hd
      exact h.live h' detail hd hne hshots t ht

theorem Guarded.terminate (h : s.Guarded) (client : κ) : (s.terminate client).Guarded := by
  unfold Server.terminate
  split
  · exact h
  next task htask =>
    -- other clients' tasks are as before, and their packets' timers
    have hfold : ∀ (l : List (Σ _ : ℕ, Packet)) (c : Channel κ), c.Recorded →
        (∀ h' detail, c.mTasks h' = some detail → s.mChannel.mTasks h' = some detail) →
        (l.foldl (fun c p => c.terminate p.2.handle) c).Recorded ∧
          ∀ h' detail, (l.foldl (fun c p => c.terminate p.2.handle) c).mTasks h' = some detail →
            s.mChannel.mTasks h' = some detail := by
      intro l
      induction l with
      | nil => exact fun _ hc hsub => ⟨hc, hsub⟩
      | cons p l ih =>
        intro c hc hsub
        apply ih _ (hc.terminate _)
        intro h' detail hd
        rw [Channel.terminate_mTasks] at hd
        rcases eq_or_ne h' p.2.handle with rfl | hne
        · rw [Function.update_self] at hd
          cases hd
        · rw [Function.update_of_ne hne] at hd
          exact hsub h' detail hd
    obtain ⟨hrecorded, hsub⟩ := hfold task.packets.entries s.mChannel h.recorded fun _ _ hd => hd
    have hlookup : ∀ client' t, (s.mTasks.erase client).lookup client' = some t →
        s.mTasks.lookup client' = some t := by
      intro client' t ht
      rcases eq_or_ne client' client with rfl | hne
      · rw [AList.lookup_erase] at ht
        cases ht
      · rwa [AList.lookup_erase_ne hne] at ht
    exact ⟨hrecorded, fun client' t ht => h.behind client' t (hlookup _ _ ht),
      fun h' detail hd hne hshots t ht =>
        h.live h' detail (hsub h' detail hd) hne hshots t (hlookup _ _ ht)⟩

theorem Guarded.timer (h : s.Guarded) (handle : ℕ) :
    Guarded { s with mChannel := (s.mChannel.timer handle).1 } where
  recorded := h.recorded.timer handle
  behind := h.behind
  live h' detail hd hne hshots t ht := by
    obtain heq | ⟨d, hdetail, hd0, ⟨-, heq⟩ | ⟨-, heq⟩⟩ := Channel.timer_cases s.mChannel handle
    · rw [heq] at hd
      exact h.live h' detail hd hne hshots t ht
    all_goals
      rw [heq] at hd
      rcases eq_or_ne h' handle with rfl | hold
      · simp only [Function.update_self, Option.some.injEq] at hd
        subst hd
        exact h.live h' d hdetail hne hd0 t ht
      · simp only [Function.update_of_ne hold] at hd
        exact h.live h' detail hd hne hshots t ht

/-- The turn of the loop of `work` that sends block `k`. -/
theorem Guarded.block (h : s.Guarded) {client : κ} {t t' : Task} {k : ℕ} {now : ℤ}
    (ht : s.mTasks.lookup client = some t)
    (hchannel : s'.mChannel = (s.mChannel.send (t.block client k) t.timeout s.mRetries).1)
    (hretries : s'.mRetries = s.mRetries) (ht' : s'.mTasks.lookup client = some t')
    (hother : ∀ c, c ≠ client → s'.mTasks.lookup c = s.mTasks.lookup c)
    (hk : t.file.position = k * sBlockSize) (hk' : k * sBlockSize < t'.file.position)
    (hblock : ∀ k, t'.block client k = t.block client k)
    (hpackets : t'.packets = t.packets.insert k ⟨s.mChannel.mHandle, now⟩) : s'.Guarded := by
  have hnew : k ∉ t.packets := fun hmem => absurd (h.behind client t ht k hmem) (by omega)
  refine ⟨hchannel ▸ h.recorded.send .., fun c u hu k' hmem => ?_,
    fun h' detail hd hne hshots u hu => ?_⟩
  · rcases eq_or_ne c client with rfl | hc
    · rw [ht'] at hu
      cases hu
      rw [hpackets, AList.mem_insert] at hmem
      rcases hmem with rfl | hmem
      · exact hk'
      · have := h.behind c t ht k' hmem
        omega
    · exact h.behind c u (hother c hc ▸ hu) k' hmem
  · rw [hchannel, Channel.send_mTasks] at hd
    rcases eq_or_ne h' s.mChannel.mHandle with rfl | hold
    · rw [Function.update_self] at hd
      cases hd
      rw [show (t.block client k).address = client from rfl, ht'] at hu
      cases hu
      refine ⟨hretries.symm, k, ⟨s.mChannel.mHandle, now⟩, ?_, rfl, (hblock k).symm⟩
      rw [hpackets]
      exact AList.lookup_insert _
    · rw [Function.update_of_ne hold] at hd
      rw [hretries]
      rcases eq_or_ne detail.task.address client with hc | hc
      · rw [hc, ht'] at hu
        cases hu
        obtain ⟨hr, k', packet, hpacket, hhandle, htask⟩ :=
          h.live h' detail hd hne hshots t (hc ▸ ht)
        have hk'' : k' ≠ k := by
          rintro rfl
          exact hnew (AList.lookup_isSome.mp (by rw [hpacket]; rfl))
        refine ⟨hr, k', packet, ?_, hhandle, ?_⟩
        · rw [hpackets, AList.lookup_insert_ne hk'', hpacket]
        · rw [hc, hblock, ← hc]
          exact htask
      · rw [hother _ hc] at hu
        exact h.live h' detail hd hne hshots u hu

/-- The acknowledgement of an outstanding packet. -/
theorem Guarded.acknowledge (h : s.Guarded) {client : κ} {t t' : Task} {k : ℕ} {packet : Packet}
    (ht : s.mTasks.lookup client = some t) (hpacket : t.packets.lookup k = some packet)
    (hchannel : s'.mChannel = s.mChannel.terminate packet.handle)
    (hretries : s'.mRetries = s.mRetries) (ht' : s'.mTasks.lookup client = some t')
    (hother : ∀ c, c ≠ client → s'.mTasks.lookup c = s.mTasks.lookup c)
    (hfile : t'.file = t.file) (hpath : t'.path = t.path)
    (hpackets : t'.packets = t.packets.erase k) : s'.Guarded := by
  refine ⟨hchannel ▸ h.recorded.terminate _, fun c u hu k' hmem => ?_,
    fun h' detail hd hne hshots u hu => ?_⟩
  · rcases eq_or_ne c client with rfl | hc
    · rw [ht'] at hu
      cases hu
      rw [hfile]
      rw [hpackets, AList.mem_erase] at hmem
      exact h.behind c t ht k' hmem.2
    · exact h.behind c u (hother c hc ▸ hu) k' hmem
  · rw [hchannel, Channel.terminate_mTasks] at hd
    rcases eq_or_ne h' packet.handle with rfl | hold
    · rw [Function.update_self] at hd
      cases hd
    · rw [Function.update_of_ne hold] at hd
      rw [hretries]
      rcases eq_or_ne detail.task.address client with hc | hc
      · rw [hc, ht'] at hu
        cases hu
        obtain ⟨hr, k', packet', hpacket', hhandle, htask⟩ :=
          h.live h' detail hd hne hshots t (hc ▸ ht)
        have hk' : k' ≠ k := by
          rintro rfl
          rw [hpacket] at hpacket'
          cases hpacket'
          exact hold hhandle.symm
        refine ⟨hr, k', packet', ?_, hhandle, ?_⟩
        · rw [hpackets, AList.lookup_erase_ne hk', hpacket']
        · rw [Task.block, hpath, hfile]
          exact htask
      · rw [hother _ hc] at hu
        exact h.live h' detail hd hne hshots u hu

/-! ### The events of a server -/

theorem Guarded.visit (h : s.Guarded) (hs : s.Sound files Set.univ) (complete : List κ) (now : ℤ)
    (client : κ) :
    (Server.visit now (s, complete) client).1.Guarded ∧
      Follows s (Server.visit now (s, complete) client).1 := by
  unfold Server.visit
  split
  · exact ⟨h, .refl s⟩
  next t ht =>
    obtain heq | ⟨channel, t', cache, done, heq, ⟨hguarded, hsent, hpath, hcontent⟩, -⟩ :=
      work_rule client now (J := fun channel t' =>
          Guarded { s with mChannel := channel, mTasks := s.mTasks.insert client t' } ∧
          s.mChannel.sent <+: channel.sent ∧ t'.path = t.path ∧ t'.file.content = t.file.content)
        (fun channel t' k checksum hsound hJ hroom hk hlt => by
          obtain ⟨hguarded, hsent, hpath, hcontent⟩ := hJ
          have ht' : (s.mTasks.insert client t').lookup client = some t' := AList.lookup_insert _
          have hnew : k ∉ t'.packets := fun hmem =>
            absurd (hguarded.behind client t' ht' k hmem) (by omega)
          have hpos : 0 < sBlockSize := by decide
          simp only [if_neg hnew]
          refine ⟨?_, ?_, hpath, hcontent⟩
          · refine hguarded.block ht' rfl rfl (AList.lookup_insert _) (fun c hc => ?_) hk ?_
              (fun _ => rfl) rfl
            · exact (AList.lookup_insert_ne hc).trans (AList.lookup_insert_ne hc).symm
            · simp only
              omega
          · rw [Channel.send_sent]
            exact hsent.trans (List.prefix_append _ _))
        (fun channel t' checksum hJ => by
          obtain ⟨hguarded, hrest⟩ := hJ
          refine ⟨hguarded.of_tasks rfl rfl fun c u hu => ?_, hrest⟩
          rcases eq_or_ne c client with rfl | hc
          · rw [AList.lookup_insert, Option.some.injEq] at hu
            exact ⟨t', AList.lookup_insert _, hu ▸ rfl, hu ▸ rfl, hu ▸ rfl⟩
          · rw [AList.lookup_insert_ne hc] at hu
            exact ⟨u, (AList.lookup_insert_ne hc).trans hu, rfl, rfl, rfl⟩)
        ⟨by
          refine h.of_tasks rfl rfl fun c u hu => ?_
          rcases eq_or_ne c client with rfl | hc
          · rw [AList.lookup_insert, Option.some.injEq] at hu
            exact ⟨t, ht, hu ▸ rfl, hu ▸ rfl, hu ▸ rfl⟩
          · rw [AList.lookup_insert_ne hc] at hu
            exact ⟨u, hu, rfl, rfl, rfl⟩, List.prefix_rfl, rfl, rfl⟩
        (hs.tasks client t ht)
    · simp only [heq]
      exact ⟨h, .refl s⟩
    · have hfollows : Follows s
          { s with mChannel := channel, mTasks := s.mTasks.insert client t', mMD5Cache := cache } := by
        refine ⟨rfl, hsent, fun c u hu => ?_⟩
        rcases eq_or_ne c client with rfl | hc
        · rw [AList.lookup_insert, Option.some.injEq] at hu
          exact ⟨t, ht, hu ▸ hpath, hu ▸ hcontent⟩
        · rw [AList.lookup_insert_ne hc] at hu
          exact ⟨u, hu, rfl, rfl⟩
      have hworked : Guarded
          { s with mChannel := channel, mTasks := s.mTasks.insert client t', mMD5Cache := cache } :=
        ⟨hguarded.recorded, hguarded.behind, hguarded.live⟩
      simp only [heq]
      cases done with
      | false => exact ⟨hworked, hfollows⟩
      | true => exact ⟨⟨hworked.recorded, hworked.behind, hworked.live⟩,
          hfollows.retries, hfollows.sent, hfollows.tasks⟩

theorem follows_terminate (s : Server κ) (client : κ) : Follows s (s.terminate client) := by
  apply Follows.of_subset
  · unfold Server.terminate
    split <;> rfl
  · rw [terminate_sent]
  · exact fun _ _ ht => lookup_of_terminate ht

theorem Guarded.worker (h : s.Guarded) (hs : s.Sound files Set.univ) (order : List κ) (now : ℤ) :
    (s.worker order now).Guarded ∧ Follows s (s.worker order now) := by
  have hstart : s.Sound files Set.univ ∧ s.Guarded ∧ Follows s s := ⟨hs, h, .refl s⟩
  apply And.right (worker_rule (K := fun s' => s'.Sound files Set.univ ∧ s'.Guarded ∧ Follows s s')
    _ _ hstart)
  · intro s' complete client hs'
    obtain ⟨hsound, hguarded, hfollows⟩ := hs'
    have hvisit := hguarded.visit hsound complete now client
    exact ⟨hsound.visit complete now client, hvisit.1, hfollows.trans hvisit.2⟩
  · intro s' client hs'
    obtain ⟨hsound, hguarded, hfollows⟩ := hs'
    exact ⟨hsound.terminate client, hguarded.terminate client,
      hfollows.trans (follows_terminate s' client)⟩

theorem Guarded.report (h : s.Guarded) (output : Output κ) : (s.report output).Guarded :=
  ⟨h.recorded, h.behind, h.live⟩

theorem follows_report (s : Server κ) (output : Output κ) : Follows s (s.report output) :=
  .of_subset rfl List.prefix_rfl fun _ _ ht => ht

theorem Guarded.reply (h : s.Guarded) (client : κ) (m : Protocol) : (s.reply client m).Guarded :=
  h.send _ 1 0 (.inl rfl)

theorem follows_reply (s : Server κ) (client : κ) (m : Protocol) : Follows s (s.reply client m) := by
  apply Follows.of_subset
  · rfl
  · exact (Quiet.reply s client m).sent
  · exact fun _ _ ht => ht

theorem Guarded.callback (h : s.Guarded) (c : Channel.Callback κ) : (s.callback c).Guarded := by
  cases c with
  | retry task =>
    change (s.onRetry task).Guarded
    unfold onRetry
    split
    · exact h
    next t ht =>
      refine h.of_tasks rfl rfl fun c u hu => ?_
      rcases eq_or_ne c task.address with rfl | hc
      · rw [AList.lookup_insert, Option.some.injEq] at hu
        exact ⟨t, ht, hu ▸ rfl, hu ▸ rfl, hu ▸ rfl⟩
      · rw [AList.lookup_insert_ne hc] at hu
        exact ⟨u, hu, rfl, rfl, rfl⟩
  | timeout task => exact (h.terminate task.address).report _

theorem follows_callback (s : Server κ) (c : Channel.Callback κ) : Follows s (s.callback c) := by
  cases c with
  | retry task =>
    change Follows s (s.onRetry task)
    unfold onRetry
    split
    · exact .refl s
    next t ht =>
      refine ⟨rfl, List.prefix_rfl, fun c u hu => ?_⟩
      rcases eq_or_ne c task.address with rfl | hc
      · rw [AList.lookup_insert, Option.some.injEq] at hu
        exact ⟨t, ht, hu ▸ rfl, hu ▸ rfl⟩
      · rw [AList.lookup_insert_ne hc] at hu
        exact ⟨u, hu, rfl, rfl⟩
  | timeout task => exact (follows_terminate s task.address).trans (follows_report _ _)

/-- A `Get` that begins a transfer. -/
def Opens (files : Files) (s : Server κ) (client : κ) (data : Data) : Prop :=
  match Protocol.deserialize data with
  | .ok (.get path) => files.content path ≠ none ∧ client ∉ s.mTasks
  | _ => False

/-- A `Query` for a file that does not exist. -/
def Misses (files : Files) (data : Data) : Prop :=
  match Protocol.deserialize data with
  | .ok (.query path) => files.content path = none
  | _ => False

theorem Guarded.onGet (h : s.Guarded) {client : κ} {path : Data}
    (hidle : files.content path ≠ none → client ∉ s.mTasks →
      ∀ h detail, s.mChannel.mTasks h = some detail → detail.task.address = client →
        detail.retries = 0 ∨ detail.shots = 0) :
    (s.onGet files client path).Guarded := by
  unfold Server.onGet
  split
  · exact h.reply client _
  next data hdata =>
    have hreply := h.reply client (.start path)
    simp only
    split
    · exact hreply
    next hfree =>
      -- nothing that is sent again goes to the client of the new task
      have hquiet := hidle (by simp [hdata]) hfree
      refine ⟨hreply.recorded, fun c u hu k hk => ?_, fun h' detail hd hne hshots u hu => ?_⟩
      · rcases eq_or_ne c client with rfl | hc
        · have hu' := (AList.lookup_insert s.mTasks).symm.trans hu
          cases hu'
          exact absurd hk (AList.notMem_empty k)
        · exact h.behind c u ((AList.lookup_insert_ne hc).symm.trans hu) k hk
      · rcases eq_or_ne detail.task.address client with hc | hc
        · have hd' : (s.mChannel.send ⟨(Protocol.start path).serialize, client⟩ 1 0).1.mTasks h' =
            some detail := hd
          rw [Channel.send_mTasks] at hd'
          rcases eq_or_ne h' s.mChannel.mHandle with rfl | hold
          · rw [Function.update_self] at hd'
            cases hd'
            exact absurd rfl hne
          · rw [Function.update_of_ne hold] at hd'
            exact ((hquiet h' detail hd' hc).elim hne hshots).elim
        · exact hreply.live h' detail hd hne hshots u ((AList.lookup_insert_ne hc).symm.trans hu)

theorem Guarded.onReceive (h : s.Guarded) {client : κ} {data : Data} {now : ℤ}
    (hopens : s.Opens files client data →
      ∀ h detail, s.mChannel.mTasks h = some detail → detail.task.address = client →
        detail.retries = 0 ∨ detail.shots = 0)
    (hmisses : Misses files data → client ∉ s.mTasks)
    (hs : s.onReceive files client data now = some s') : s'.Guarded := by
  unfold Server.onReceive at hs
  unfold Opens at hopens
  unfold Misses at hmisses
  split at hs
  next path hm =>
    cases hs
    simp only [hm] at hmisses
    unfold Server.onQuery
    split
    next hnone => exact h.send _ _ _ (.inr (hmisses hnone))
    next => exact h.reply client _
  next path hm =>
    cases hs
    simp only [hm] at hopens
    exact h.onGet fun hfile hfree => hopens ⟨hfile, hfree⟩
  next path block hm =>
    cases hs
    unfold Server.onAcknowledge
    split
    · exact h
    next t ht =>
      split
      · exact h
      next packet hpacket =>
        exact h.acknowledge ht hpacket rfl rfl (AList.lookup_insert _)
          (fun c hc => AList.lookup_insert_ne hc) rfl rfl rfl
  next path checksum hm =>
    cases hs
    have hterminate := h.terminate client
    unfold Server.onChecksum
    simp only
    split
    · exact hterminate.reply client _
    · split
      · exact hterminate.reply client _
      · split
        · exact hterminate.report _
        next digest _ =>
          have hinsert : ((s.terminate client).insertDigest path digest).Guarded :=
            ⟨hterminate.recorded, hterminate.behind, hterminate.live⟩
          exact hinsert.reply client _
  · cases hs
    exact h
  · cases hs
    exact h.report _
  · cases hs

/-- The tasks after a message are those of before, but for the one it opens. -/
theorem follows_onReceive {client : κ} {data : Data} {now : ℤ}
    (hs : s.onReceive files client data now = some s') :
    s'.mRetries = s.mRetries ∧ s.mChannel.sent <+: s'.mChannel.sent ∧
      ∀ c t', s'.mTasks.lookup c = some t' →
        (c = client ∧ s.Opens files client data) ∨
        ∃ t, s.mTasks.lookup c = some t ∧ t'.path = t.path ∧ t'.file.content = t.file.content := by
  have hsent := (Quiet.onReceive hs).sent
  unfold Server.onReceive at hs
  unfold Opens
  split at hs
  next path hm =>
    cases hs
    unfold Server.onQuery at hsent ⊢
    split
    · exact ⟨rfl, by simpa only [*] using hsent, fun c t ht => .inr ⟨t, ht, rfl, rfl⟩⟩
    · exact ⟨rfl, by simpa only [*] using hsent, fun c t ht => .inr ⟨t, ht, rfl, rfl⟩⟩
  next path hm =>
    cases hs
    refine ⟨?_, hsent, fun c t ht => ?_⟩
    · unfold Server.onGet
      split
      · rfl
      · simp only
        split <;> rfl
    · unfold Server.onGet at ht
      split at ht
      · exact .inr ⟨t, ht, rfl, rfl⟩
      next content hcontent =>
        simp only at ht
        split at ht
        · exact .inr ⟨t, ht, rfl, rfl⟩
        next hfree =>
          rcases eq_or_ne c client with rfl | hc
          · have hfree' : c ∉ s.mTasks := hfree
            exact .inl ⟨rfl, by simp [hm, hcontent, hfree']⟩
          · exact .inr ⟨t, (AList.lookup_insert_ne hc).symm.trans ht, rfl, rfl⟩
  next path block hm =>
    cases hs
    refine ⟨?_, hsent, fun c u hu => .inr ?_⟩
    · unfold Server.onAcknowledge
      split
      · rfl
      · split <;> rfl
    · unfold Server.onAcknowledge at hu
      split at hu
      · exact ⟨u, hu, rfl, rfl⟩
      next t ht =>
        split at hu
        · exact ⟨u, hu, rfl, rfl⟩
        · rcases eq_or_ne c client with rfl | hc
          · rw [AList.lookup_insert, Option.some.injEq] at hu
            exact ⟨t, ht, hu ▸ rfl, hu ▸ rfl⟩
          · rw [AList.lookup_insert_ne hc] at hu
            exact ⟨u, hu, rfl, rfl⟩
  next path checksum hm =>
    cases hs
    have hterminate := follows_terminate s client
    have hfollows : Follows (s.terminate client) (s.onChecksum files client path checksum) := by
      unfold Server.onChecksum
      simp only
      split
      · exact follows_reply _ client _
      · split
        · exact follows_reply _ client _
        · split
          · exact follows_report _ _
          next digest _ =>
            have hinsert : Follows (s.terminate client)
                ((s.terminate client).insertDigest path digest) :=
              .of_subset rfl List.prefix_rfl fun _ _ ht => ht
            exact hinsert.trans (follows_reply _ client _)
    have hall := hterminate.trans hfollows
    exact ⟨hall.retries, hall.sent, fun c t ht => .inr (hall.tasks c t ht)⟩
  · cases hs
    exact ⟨rfl, hsent, fun c t ht => .inr ⟨t, ht, rfl, rfl⟩⟩
  · cases hs
    exact ⟨rfl, hsent, fun c t ht => .inr ⟨t, ht, rfl, rfl⟩⟩
  · cases hs

/-! ### Runs -/

/-- A running server, with the handles of the outstanding packets of each
client's task that were sent again, and of those that used up their retries. -/
structure Journal (κ : Type) where
  running : Running κ
  retried : κ → List ℕ
  spent : κ → List ℕ

namespace Journal

def new (timeout : ℤ) (retries : ℕ) : Journal κ :=
  ⟨⟨.new timeout retries, []⟩, fun _ => [], fun _ => []⟩

/-- Whether a handle is that of an outstanding packet of the client's task. -/
def outstanding (s : Server κ) (client : κ) (handle : ℕ) : Bool :=
  (s.mTasks.lookup client).any fun t => t.packets.entries.any (·.2.handle = handle)

def note (s : Server κ) (handles : κ → List ℕ) (handle : ℕ) (client : κ) : κ → List ℕ := fun c =>
  if c = client ∧ outstanding s client handle then handle :: handles c else handles c

/-- A client without a task has no packets. -/
def refresh (j : Journal κ) : Journal κ where
  running := j.running
  retried client := if client ∈ j.running.server.mTasks then j.retried client else []
  spent client := if client ∈ j.running.server.mTasks then j.spent client else []

def step (files : Files) (j : Journal κ) : Event κ → Option (Journal κ)
  | .receive client data now =>
    (j.running.server.onReceive files client data now).map fun server =>
      { j.refresh with running := { j.running with server } }
  | .turn turn =>
    let refreshed := { j.refresh with running := j.running.turn turn }
    match turn with
    | .timer handle =>
      match (j.running.server.mChannel.timer handle).2 with
      | some (.retry task) =>
        some { refreshed with
          retried := note j.running.server refreshed.retried handle task.address }
      | some (.timeout task) =>
        some { refreshed with spent := note j.running.server refreshed.spent handle task.address }
      | none => some refreshed
    | _ => some refreshed

def machine (files : Files) : Machine (Journal κ) (Event κ) := ⟨step files⟩

/-- Nothing of the channel can still call back about a client. -/
def Idle (s : Running κ) (client : κ) : Prop :=
  (∀ entry ∈ s.pending, entry.2.task.address ≠ client) ∧
    ∀ h < s.server.mChannel.mHandle, (s.server.mChannel.mTasks h).all fun detail =>
      detail.task.address = client → detail.retries = 0 ∨ detail.shots = 0

/-- A transfer begins when nothing can still call back about its client, and
there is no `Query` for a missing file during a transfer. -/
def Admissible (files : Files) (j : Journal κ) : Event κ → Prop
  | .receive client data _ =>
    (j.running.server.Opens files client data → Idle j.running client) ∧
      (Misses files data → client ∉ j.running.server.mTasks)
  | .turn _ => True

/-- What a callback tells about the task of its client. -/
def Justified (j : Journal κ) (handle : ℕ) (t : Task) : Channel.Callback κ → Prop
  | .retry task => handle ∈ j.retried task.address ∧
    (∃ k, task = t.block task.address k) ∧
    ∃ tries, 1 ≤ tries ∧ ⟨handle, tries, task⟩ ∈ j.running.server.mChannel.sent
  | .timeout task => handle ∈ j.spent task.address ∧
    (∃ k, task = t.block task.address k) ∧
    ∀ tries ≤ j.running.server.mRetries, ⟨handle, tries, task⟩ ∈ j.running.server.mChannel.sent

structure Isolated (files : Files) (j : Journal κ) : Prop where
  sound : j.running.server.Sound files Set.univ
  guarded : j.running.server.Guarded
  pending : ∀ entry ∈ j.running.pending, ∀ t,
    j.running.server.mTasks.lookup entry.2.task.address = some t → j.Justified entry.1 t entry.2

theorem isolated_new (timeout : ℤ) (retries : ℕ) :
    (new timeout retries : Journal κ).Isolated files where
  sound := sound_new timeout retries
  guarded := guarded_new timeout retries
  pending _ h := absurd h List.not_mem_nil

omit [DecidableEq κ] in
/-- What was justified stays so while the task is there. -/
theorem Justified.mono {j j' : Journal κ} {handle : ℕ} {t t' : Task} {c : Channel.Callback κ}
    (h : j.Justified handle t c)
    (hretried : ∀ h ∈ j.retried c.task.address, h ∈ j'.retried c.task.address)
    (hspent : ∀ h ∈ j.spent c.task.address, h ∈ j'.spent c.task.address)
    (hretries : j'.running.server.mRetries = j.running.server.mRetries)
    (hsent : j.running.server.mChannel.sent <+: j'.running.server.mChannel.sent)
    (hpath : t'.path = t.path) (hcontent : t'.file.content = t.file.content) :
    j'.Justified handle t' c := by
  have hblock : ∀ (client : κ) k, t'.block client k = t.block client k := fun client k => by
    simp only [Task.block, hpath, hcontent]
  cases c with
  | retry task =>
    obtain ⟨hhandle, ⟨k, hk⟩, tries, htries, hframe⟩ := h
    exact ⟨hretried _ hhandle, ⟨k, hk.trans (hblock _ k).symm⟩, tries, htries, hsent.subset hframe⟩
  | timeout task =>
    obtain ⟨hhandle, ⟨k, hk⟩, hframes⟩ := h
    refine ⟨hspent _ hhandle, ⟨k, hk.trans (hblock _ k).symm⟩, fun tries htries => ?_⟩
    exact hsent.subset (hframes tries (hretries ▸ htries))

theorem mem_note_of_mem {s : Server κ} {handles : κ → List ℕ} {handle : ℕ} {client c : κ} {h : ℕ}
    (hh : h ∈ handles c) : h ∈ note s handles handle client c := by
  unfold note
  split
  · exact List.mem_cons_of_mem _ hh
  · exact hh

/-- A task that is there in a step keeps its packets' handles. -/
theorem Isolated.pending_refresh {j : Journal κ} (h : j.Isolated files) {running : Running κ}
    {retried spent : κ → List ℕ}
    (hretried : ∀ c, ∀ h ∈ j.refresh.retried c, h ∈ retried c)
    (hspent : ∀ c, ∀ h ∈ j.refresh.spent c, h ∈ spent c)
    (hretries : running.server.mRetries = j.running.server.mRetries)
    (hsent : j.running.server.mChannel.sent <+: running.server.mChannel.sent)
    {entry : ℕ × Channel.Callback κ} (hentry : entry ∈ j.running.pending) {t t' : Task}
    (ht : j.running.server.mTasks.lookup entry.2.task.address = some t)
    (hpath : t'.path = t.path) (hcontent : t'.file.content = t.file.content) :
    Justified ⟨running, retried, spent⟩ entry.1 t' entry.2 := by
  have hmem : entry.2.task.address ∈ j.running.server.mTasks :=
    AList.lookup_isSome.mp (by rw [ht]; rfl)
  refine (h.pending entry hentry t ht).mono (fun h' hh => ?_) (fun h' hh => ?_) hretries hsent
    hpath hcontent
  · exact hretried _ h' (by simpa only [refresh, if_pos hmem] using hh)
  · exact hspent _ h' (by simpa only [refresh, if_pos hmem] using hh)

/-- A step after which the tasks are those of before, or fewer. -/
theorem Isolated.follows {j : Journal κ} (h : j.Isolated files) {running : Running κ}
    (hsound : running.server.Sound files Set.univ) (hguarded : running.server.Guarded)
    (hfollows : Follows j.running.server running.server)
    (hpending : running.pending ⊆ j.running.pending) :
    Isolated files { j.refresh with running } := by
  refine ⟨hsound, hguarded, fun entry hentry t' ht' => ?_⟩
  obtain ⟨t, ht, hpath, hcontent⟩ := hfollows.tasks _ t' ht'
  exact h.pending_refresh (fun _ _ hh => hh) (fun _ _ hh => hh) hfollows.retries hfollows.sent
    (hpending hentry) ht hpath hcontent

theorem Isolated.receive {j : Journal κ} (h : j.Isolated files) {client : κ} {data : Data} {now : ℤ}
    (hopens : j.running.server.Opens files client data → Idle j.running client)
    (hmisses : Misses files data → client ∉ j.running.server.mTasks) {s' : Server κ}
    (hs : j.running.server.onReceive files client data now = some s') :
    Isolated files { j.refresh with running := { j.running with server := s' } } := by
  obtain ⟨hretries, hsent, htasks⟩ := follows_onReceive hs
  refine ⟨h.sound.onReceive (fun _ _ => trivial) hs, ?_, fun entry hentry t' ht' => ?_⟩
  · refine h.guarded.onReceive (fun hopen h' detail hd hc => ?_) hmisses hs
    have hlt : h' < j.running.server.mChannel.mHandle := Nat.lt_of_not_le fun hle => by
      rw [h.guarded.recorded.fresh h' hle] at hd
      cases hd
    have hall := (hopens hopen).2 h' hlt
    rw [hd] at hall
    exact of_decide_eq_true hall hc
  · rcases htasks _ t' ht' with ⟨hc, hopen⟩ | ⟨t, ht, hpath, hcontent⟩
    · exact absurd hc ((hopens hopen).1 entry hentry)
    · exact h.pending_refresh (fun _ _ hh => hh) (fun _ _ hh => hh) hretries hsent hentry ht hpath
        hcontent

theorem outstanding_of_lookup {s : Server κ} {client : κ} {t : Task} {k : ℕ} {packet : Packet}
    (ht : s.mTasks.lookup client = some t) (hpacket : t.packets.lookup k = some packet) :
    outstanding s client packet.handle = true := by
  rw [outstanding, ht, Option.any_some]
  refine List.any_eq_true.mpr ⟨⟨k, packet⟩, AList.mem_lookup_iff.mp hpacket, ?_⟩
  simp

theorem mem_note {s : Server κ} {handles : κ → List ℕ} {handle : ℕ} {client : κ}
    (h : outstanding s client handle = true) : handle ∈ note s handles handle client client := by
  rw [note, if_pos ⟨rfl, h⟩]
  exact List.mem_cons_self

/-- A turn of a timer that starts a callback about a packet. -/
theorem Isolated.timer {j j' : Journal κ} (h : j.Isolated files) {handle : ℕ}
    (hstep : j.step files (.turn (.timer handle)) = some j') : j'.Isolated files := by
  have hguarded := h.guarded.timer handle
  have hsound : Sound files Set.univ
      { j.running.server with mChannel := (j.running.server.mChannel.timer handle).1 } :=
    ⟨h.sound.tasks, h.sound.cache, h.sound.channel.timer handle⟩
  have hsent := Channel.timer_sent_prefix j.running.server.mChannel handle
  have hfollows : Follows j.running.server
      { j.running.server with mChannel := (j.running.server.mChannel.timer handle).1 } :=
    .of_subset rfl hsent fun _ _ ht => ht
  -- the task that a packet about to be noted belongs to
  have hlive : ∀ detail, j.running.server.mChannel.mTasks handle = some detail →
      detail.retries ≠ 0 → detail.shots ≠ 0 → ∀ t,
      j.running.server.mTasks.lookup detail.task.address = some t →
      detail.retries = j.running.server.mRetries ∧
        outstanding j.running.server detail.task.address handle = true ∧
        ∃ k, detail.task = t.block detail.task.address k := by
    intro detail hdetail hretries hshots t ht
    obtain ⟨hr, k, packet, hpacket, rfl, htask⟩ :=
      h.guarded.live handle detail hdetail hretries hshots t ht
    exact ⟨hr, outstanding_of_lookup ht hpacket, k, htask⟩
  rw [step] at hstep
  simp only [Running.turn] at hstep
  obtain heq | ⟨detail, hdetail, hshots, ⟨htries, heq⟩ | ⟨htries, heq⟩⟩ :=
    Channel.timer_cases j.running.server.mChannel handle
  · rw [heq] at hstep hguarded hsound hfollows
    cases hstep
    exact h.follows hsound hguarded hfollows (by simp)
  · rw [heq] at hstep hguarded hsound hfollows hsent
    by_cases hretries : detail.retries = 0
    · simp only [if_neg (not_not.mpr hretries)] at hstep
      cases hstep
      exact h.follows hsound hguarded hfollows (by simp)
    · simp only [if_pos hretries] at hstep
      cases hstep
      refine ⟨hsound, hguarded, fun entry hentry t ht => ?_⟩
      rcases List.mem_append.mp hentry with hold | hnew
      · refine h.pending_refresh (fun _ _ hh => hh) (fun _ _ hh => mem_note_of_mem hh) ?_ ?_ hold ht
          rfl rfl
        · rfl
        · exact hsent
      · obtain rfl : entry = (handle, .timeout detail.task) := by simpa using hnew
        obtain ⟨hr, hout, hblock⟩ := hlive detail hdetail hretries hshots t ht
        refine ⟨mem_note hout, hblock, fun tries hle => ?_⟩
        have hle' : tries ≤ detail.retries := hr ▸ hle
        exact h.guarded.recorded.sent handle detail hdetail tries (by omega)
  · rw [heq] at hstep hguarded hsound hfollows hsent
    by_cases hzero : detail.tries = 0
    · simp only [if_neg (not_not.mpr hzero)] at hstep
      cases hstep
      exact h.follows hsound hguarded hfollows (by simp)
    · simp only [if_pos hzero] at hstep
      cases hstep
      refine ⟨hsound, hguarded, fun entry hentry t ht => ?_⟩
      rcases List.mem_append.mp hentry with hold | hnew
      · refine h.pending_refresh (fun _ _ hh => mem_note_of_mem hh) (fun _ _ hh => hh) ?_ ?_ hold ht
          rfl rfl
        · rfl
        · exact hsent
      · obtain rfl : entry = (handle, .retry detail.task) := by simpa using hnew
        obtain ⟨-, hout, hblock⟩ := hlive detail hdetail (by omega) hshots t ht
        exact ⟨mem_note hout, hblock, detail.tries, Nat.pos_of_ne_zero hzero, by simp⟩

theorem Isolated.step {j j' : Journal κ} {e : Event κ} (h : j.Isolated files)
    (he : j.Admissible files e) (hstep : j.step files e = some j') : j'.Isolated files := by
  cases e with
  | receive client data now =>
    obtain ⟨s', hs, rfl⟩ := Option.map_eq_some_iff.mp hstep
    exact h.receive he.1 he.2 hs
  | turn turn =>
    cases turn with
    | worker order now =>
      cases hstep
      simp only [Running.turn]
      split
      · have hworker := h.guarded.worker h.sound order now
        exact h.follows (h.sound.worker order now) hworker.1 hworker.2 (List.Subset.refl _)
      · exact h.follows h.sound h.guarded (.refl _) (List.Subset.refl _)
    | timer handle => exact h.timer hstep
    | callback i =>
      have hsound := h.sound.turn (.callback i)
      cases hstep
      simp only [Running.turn] at hsound ⊢
      split
      · exact h.follows h.sound h.guarded (.refl _) (List.Subset.refl _)
      next handle callback hcallback =>
        simp only [hcallback] at hsound
        exact h.follows hsound (h.guarded.callback callback) (follows_callback _ callback)
          (List.eraseIdx_subset ..)

/-- What callback `i` does to the task of a client is on account of a packet of
that very task, which was outstanding when its timer started the callback. -/
def Earned (j j' : Journal κ) (i : ℕ) (client : κ) (t : Task) : Prop :=
  (j'.running.server.mTasks.lookup client = none →
    ∃ handle k, j.running.pending[i]? = some (handle, .timeout (t.block client k)) ∧
      handle ∈ j.spent client ∧
      ∀ tries ≤ j.running.server.mRetries,
        ⟨handle, tries, t.block client k⟩ ∈ j.running.server.mChannel.sent) ∧
  ∀ t', j'.running.server.mTasks.lookup client = some t' → t' = t ∨
    (t' = { t with window := max (t.window / 2) 1 } ∧
    ∃ handle k, j.running.pending[i]? = some (handle, .retry (t.block client k)) ∧
      handle ∈ j.retried client ∧
      ∃ tries, 1 ≤ tries ∧ ⟨handle, tries, t.block client k⟩ ∈ j.running.server.mChannel.sent)

theorem Isolated.earned {j j' : Journal κ} (h : j.Isolated files) {i : ℕ}
    (hstep : j.step files (.turn (.callback i)) = some j') {client : κ} {t : Task}
    (ht : j.running.server.mTasks.lookup client = some t) : Earned j j' i client t := by
  cases hstep
  unfold Earned
  simp only [Running.turn]
  split
  · refine ⟨fun hnone => ?_, fun t' ht' => ?_⟩
    · rw [ht] at hnone
      cases hnone
    · rw [ht] at ht'
      cases ht'
      exact .inl rfl
  next handle callback hcallback =>
    have hjustified := h.pending _ (List.mem_of_getElem? hcallback)
    rw [hcallback]
    cases callback with
    | retry task =>
      change ((onRetry _ task).mTasks.lookup client = none → _) ∧
        ∀ t', (onRetry _ task).mTasks.lookup client = some t' → _
      unfold onRetry
      rcases eq_or_ne client task.address with rfl | hne
      · rw [ht]
        obtain ⟨hhandle, ⟨k, hk⟩, hframe⟩ := hjustified t ht
        refine ⟨fun hnone => ?_, fun t' ht' => .inr ?_⟩
        · rw [AList.lookup_insert] at hnone
          cases hnone
        · rw [AList.lookup_insert, Option.some.injEq] at ht'
          exact ⟨ht'.symm, handle, k, by rw [← hk], hhandle, hk ▸ hframe⟩
      · split
        · refine ⟨fun hnone => ?_, fun t' ht' => ?_⟩
          · rw [ht] at hnone
            cases hnone
          · rw [ht] at ht'
            cases ht'
            exact .inl rfl
        · rw [AList.lookup_insert_ne hne, ht]
          exact ⟨fun hnone => (by cases hnone), fun t' ht' => .inl (by cases ht'; rfl)⟩
    | timeout task =>
      change ((terminate _ task.address).mTasks.lookup client = none → _) ∧
        ∀ t', (terminate _ task.address).mTasks.lookup client = some t' → _
      rcases eq_or_ne client task.address with rfl | hne
      · obtain ⟨hhandle, ⟨k, hk⟩, hframes⟩ := hjustified t ht
        rw [lookup_terminate]
        refine ⟨fun _ => ⟨handle, k, by rw [← hk], hhandle, hk ▸ hframes⟩, fun t' ht' => ?_⟩
        cases ht'
      · rw [lookup_terminate_ne _ hne, ht]
        exact ⟨fun hnone => (by cases hnone), fun t' ht' => .inl (by cases ht'; rfl)⟩

/-- In a run in which a transfer begins only when nothing can still call back
about its client, and no missing file is queried during a transfer, a transfer
is ended or slowed down by its own packets only. -/
theorem run_earned (files : Files) (timeout : ℤ) (retries : ℕ) (es : List (Event κ))
    (j j' : Journal κ)
    (hrun : Machine.Run (machine files) (Admissible files) (new timeout retries) es j)
    (i : ℕ) (hstep : j.step files (.turn (.callback i)) = some j') (client : κ) (t : Task)
    (ht : j.running.server.mTasks.lookup client = some t) : Earned j j' i client t := by
  have hisolated : j.Isolated files :=
    hrun.invariant (I := Isolated files) (fun _ _ _ hj he hstep => hj.step he hstep)
      (isolated_new timeout retries)
  exact hisolated.earned hstep ht

instance decidableOpens (files : Files) (s : Server κ) (client : κ) (data : Data) :
    Decidable (s.Opens files client data) := by
  unfold Opens
  split <;> infer_instance

instance decidableMisses (files : Files) (data : Data) : Decidable (Misses files data) := by
  unfold Misses
  split <;> infer_instance

instance decidableIdle (s : Running κ) (client : κ) : Decidable (Idle s client) :=
  inferInstanceAs (Decidable (_ ∧ _))

instance decidableAdmissible (files : Files) (j : Journal κ) : DecidablePred (j.Admissible files)
  | .receive client data _ => inferInstanceAs (Decidable
      ((j.running.server.Opens files client data → Idle j.running client) ∧
        (Misses files data → client ∉ j.running.server.mTasks)))
  | .turn _ => isTrue trivial

/-- The one block of file `A` is never acknowledged. -/
def lostA : List (Event ℕ) :=
  [.receive 1 (Protocol.get System.fileA.1).serialize 0, .turn (.worker [1] 0),
    .turn (.timer 1), .turn (.timer 1)]

theorem run_earned_lost :
    ∃ j j' : Journal ℕ, ∃ t, (machine System.twoFiles).exec (new 1000 1) lostA = some j ∧
      j.step System.twoFiles (.turn (.callback 1)) = some j' ∧
      j.running.server.mTasks.lookup 1 = some t ∧
      j'.running.server.mTasks.lookup 1 = none ∧ Earned j j' 1 1 t := by
  let j := ((machine System.twoFiles).execWhile (Admissible System.twoFiles) (new 1000 1)
    lostA).get (by decide +kernel)
  let j' := (j.step System.twoFiles (.turn (.callback 1))).get (by decide +kernel)
  let t := (j.running.server.mTasks.lookup 1).get (by decide +kernel)
  have hrun : Machine.Run (machine System.twoFiles) (Admissible System.twoFiles) (new 1000 1)
      lostA j := Machine.run_iff_execWhile.mpr (Option.some_get _).symm
  have hstep : j.step System.twoFiles (.turn (.callback 1)) = some j' := (Option.some_get _).symm
  have ht : j.running.server.mTasks.lookup 1 = some t := (Option.some_get _).symm
  have hnone : j'.running.server.mTasks.lookup 1 = none := by
    rw [← Option.not_isSome_iff_eq_none]
    decide +kernel
  exact ⟨j, j', t, Machine.run_iff_exec.mp (hrun.mono fun _ _ _ => trivial), hstep, ht, hnone,
    run_earned System.twoFiles 1000 1 lostA j j' hrun 1 hstep 1 t ht⟩

/-- A missing file is queried before file `A` is asked for. -/
def missedA : List (Event ℕ) :=
  [.receive 1 (Protocol.query [67]).serialize 0,
    .receive 1 (Protocol.get System.fileA.1).serialize 0, .turn (.timer 0), .turn (.timer 0)]

/-- The reply to the query ends the transfer. -/
theorem exec_not_earned :
    ¬∀ (files : Files) (timeout : ℤ) (retries : ℕ) (es : List (Event ℕ)) (j j' : Journal ℕ)
      (i : ℕ) (client : ℕ) (t : Task), (machine files).exec (new timeout retries) es = some j →
      j.step files (.turn (.callback i)) = some j' →
      j.running.server.mTasks.lookup client = some t → Earned j j' i client t := by
  intro h
  let j := ((machine System.twoFiles).exec (new 1000 1) missedA).get (by decide +kernel)
  let j' := (j.step System.twoFiles (.turn (.callback 1))).get (by decide +kernel)
  let t := (j.running.server.mTasks.lookup 1).get (by decide +kernel)
  have hnone : j'.running.server.mTasks.lookup 1 = none := by
    rw [← Option.not_isSome_iff_eq_none]
    decide +kernel
  have hspent : j.spent 1 = [] := by decide +kernel
  have hearned := h System.twoFiles 1000 1 missedA j j' 1 1 t (Option.some_get _).symm
    (Option.some_get _).symm (Option.some_get _).symm
  obtain ⟨handle, k, -, hhandle, -⟩ := hearned.1 hnone
  rw [hspent] at hhandle
  exact List.not_mem_nil hhandle

end Journal

end Server

end Course.Rdt
