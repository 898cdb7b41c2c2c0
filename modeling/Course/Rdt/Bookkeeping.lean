import Course.Rdt.Download
import Mathlib.Data.List.Infix
import Mathlib.Logic.Basic

/-! The bookkeeping of the server's tasks, for any clients and any order of its
locked sections: which blocks are outstanding, which were acknowledged, and
when a task is reported as finished. -/

open Course.Lib

namespace Course.Rdt.Server

variable {κ : Type} [DecidableEq κ] {files : Files}

/-- `acked` are the blocks acknowledged in a client's task, and `sent` the
frames since it began. -/
structure Task.Booked (t : Task) (client : κ) (acked : List ℕ) (sent : List (Channel.Frame κ)) :
    Prop where
  window_pos : 1 ≤ t.window
  window_le : t.window ≤ sMaxWindow
  packets_le : t.packets.entries.length ≤ sMaxWindow
  distinct : t.packets.keys.Nodup
  below : ∀ k, k * sBlockSize < t.file.position → Xor (k ∈ t.packets) (k ∈ acked)
  above : ∀ k, t.file.position ≤ k * sBlockSize → k ∉ t.packets ∧ k ∉ acked
  sent : ∀ k, k * sBlockSize < t.file.position → ∃ f ∈ sent, f.task = t.block client k

/-- Every block of a task was acknowledged. -/
def Task.Done (t : Task) (acked : List ℕ) : Prop := ∀ k, k * sBlockSize < t.size → k ∈ acked

variable {t : Task} {client : κ} {acked : List ℕ} {sent : List (Channel.Frame κ)}

omit [DecidableEq κ] in
theorem Task.booked_new (client : κ) (path data : Data) (timeout : ℤ)
    (sent : List (Channel.Frame κ)) :
    (Task.new path data.length (ifstream data) 1 timeout).Booked client [] sent where
  window_pos := Nat.le_refl 1
  window_le := show 1 ≤ sMaxWindow by decide
  packets_le := Nat.zero_le _
  distinct := AList.keys_nodup _
  below k hk := absurd hk (Nat.not_lt_zero _)
  above k _ := ⟨AList.notMem_empty k, List.not_mem_nil⟩
  sent k hk := absurd hk (Nat.not_lt_zero _)

omit [DecidableEq κ] in
theorem Task.Booked.mono (h : t.Booked client acked sent) {sent' : List (Channel.Frame κ)}
    (hsub : sent ⊆ sent') : t.Booked client acked sent' :=
  { h with
    sent := fun k hk =>
      have ⟨f, hf, htask⟩ := h.sent k hk
      ⟨f, hsub hf, htask⟩ }

omit [DecidableEq κ] in
/-- The turn of the loop of `work` that sends block `k`. -/
theorem Task.Booked.send (h : t.Booked client acked sent) {k : ℕ} {packet : Packet}
    {checksum : MD5} (hroom : t.packets.entries.length < t.window)
    (hk : t.file.position = k * sBlockSize) (hlt : k * sBlockSize < t.size)
    {f : Channel.Frame κ} (hf : f.task = t.block client k) :
    Task.Booked
      { t with
        file := { t.file with position := min (t.file.position + sBlockSize) t.size }
        checksum
        packets := if k ∈ t.packets then t.packets else t.packets.insert k packet }
      client acked (sent ++ [f]) := by
  have hnew := h.above k hk.le
  have hpos : 0 < sBlockSize := by decide
  -- the block just sent is the only one between the old and the new position
  have hcases : ∀ k', k' * sBlockSize < min (t.file.position + sBlockSize) t.size →
      k' = k ∨ k' * sBlockSize < t.file.position := by
    intro k' hk'
    rcases Nat.lt_trichotomy k' k with hlt' | rfl | hgt
    · have := Nat.mul_lt_mul_of_pos_right hlt' hpos
      omega
    · exact .inl rfl
    · have := Nat.mul_le_mul_right sBlockSize hgt
      rw [Nat.succ_mul] at this
      omega
  simp only [if_neg hnew.1]
  refine ⟨h.window_pos, h.window_le, ?_, AList.keys_nodup _, ?_, ?_, ?_⟩
  · rw [AList.entries_insert_of_notMem hnew.1]
    exact Nat.lt_of_lt_of_le hroom h.window_le
  · intro k' hk'
    rcases hcases k' hk' with rfl | hold
    · exact .inl ⟨(AList.mem_insert _).mpr (.inl rfl), hnew.2⟩
    · have hne : k' ≠ k := by
        rintro rfl
        omega
      simpa [AList.mem_insert, hne] using h.below k' hold
  · intro k' hk'
    have hne : k' ≠ k := by
      rintro rfl
      simp only at hk'
      omega
    have hold := h.above k' (by simp only at hk'; omega)
    simpa [AList.mem_insert, hne] using hold
  · intro k' hk'
    rcases hcases k' hk' with rfl | hold
    · exact ⟨f, by simp, hf⟩
    · obtain ⟨f', hf', htask⟩ := h.sent k' hold
      exact ⟨f', List.mem_append_left _ hf', htask⟩

omit [DecidableEq κ] in
theorem Task.Booked.halve (h : t.Booked client acked sent) :
    Task.Booked { t with window := max (t.window / 2) 1 } client acked sent where
  window_pos := le_max_right _ _
  window_le := by
    have := h.window_le
    have : 1 ≤ sMaxWindow := by decide
    simp only
    omega
  packets_le := h.packets_le
  distinct := h.distinct
  below := h.below
  above := h.above
  sent := h.sent

omit [DecidableEq κ] in
/-- The acknowledgement of an outstanding block. -/
theorem Task.Booked.acknowledge (h : t.Booked client acked sent) {k : ℕ} (hk : k ∈ t.packets)
    {window : ℕ} (hpos : 1 ≤ window) (hle : window ≤ sMaxWindow) (average variance timeout : ℤ) :
    Task.Booked { t with packets := t.packets.erase k, window, average, variance, timeout }
      client (k :: acked) sent where
  window_pos := hpos
  window_le := hle
  packets_le := (List.kerase_sublist k t.packets.entries).length_le.trans h.packets_le
  distinct := AList.keys_nodup _
  below k' hk' := by
    have hold := h.below k' hk'
    rcases eq_or_ne k' k with rfl | hne
    · exact .inr ⟨List.mem_cons_self, fun hmem => (AList.mem_erase.mp hmem).1 rfl⟩
    · simpa [AList.mem_erase, hne] using hold
  above k' hk' := by
    have hold := h.above k' hk'
    have hne : k' ≠ k := by
      rintro rfl
      exact hold.1 hk
    simpa [AList.mem_erase, hne] using hold
  sent := h.sent

/-! ### What an event adds to the wire and to the log -/

/-- Only added to, and no task reported as finished. -/
structure Quiet (s s' : Server κ) : Prop where
  sent : s.mChannel.sent <+: s'.mChannel.sent
  log : ∃ l, s'.log = s.log ++ l ∧ ∀ client path, .finish client path ∉ l

namespace Quiet

variable {s s' s'' : Server κ}

omit [DecidableEq κ] in
theorem refl (s : Server κ) : Quiet s s := ⟨List.prefix_rfl, [], by simp⟩

omit [DecidableEq κ] in
theorem trans (h : Quiet s s') (h' : Quiet s' s'') : Quiet s s'' := by
  obtain ⟨l, hl, hfinish⟩ := h.log
  obtain ⟨l', hl', hfinish'⟩ := h'.log
  refine ⟨h.sent.trans h'.sent, l ++ l', ?_, fun client path hmem => ?_⟩
  · rw [hl', hl, List.append_assoc]
  · exact (List.mem_append.mp hmem).elim (hfinish _ _) (hfinish' _ _)

omit [DecidableEq κ] in
theorem of_log (hsent : s.mChannel.sent <+: s'.mChannel.sent) (hlog : s'.log = s.log) :
    Quiet s s' := ⟨hsent, [], by simp [hlog]⟩

omit [DecidableEq κ] in
theorem report (s : Server κ) {output : Output κ} (h : ∀ client path, output ≠ .finish client path) :
    Quiet s (s.report output) :=
  ⟨List.prefix_rfl, [output], rfl, fun client path hmem =>
    h client path (List.mem_singleton.mp hmem).symm⟩

omit [DecidableEq κ] in
theorem reply (s : Server κ) (client : κ) (m : Protocol) : Quiet s (s.reply client m) := by
  apply of_log
  · exact (Channel.send_sent ..).symm ▸ List.prefix_append _ _
  · rfl

theorem terminate (s : Server κ) (client : κ) : Quiet s (s.terminate client) :=
  of_log (terminate_sent s client ▸ List.prefix_rfl) (terminate_log s client)

theorem onRetry (s : Server κ) (task : Channel.Task κ) : Quiet s (s.onRetry task) := by
  unfold Server.onRetry
  split
  · exact refl s
  · exact of_log List.prefix_rfl rfl

theorem callback (s : Server κ) (c : Channel.Callback κ) : Quiet s (s.callback c) := by
  cases c with
  | retry task => exact onRetry s task
  | timeout task => exact (terminate s task.address).trans (report _ nofun)

theorem onGet (files : Files) (s : Server κ) (client : κ) (path : Data) :
    Quiet s (s.onGet files client path) := by
  unfold Server.onGet
  split
  · exact reply s client _
  · apply (reply s client (.start path)).trans
    simp only
    split
    · exact refl _
    · exact ⟨List.prefix_rfl, [.task client path], rfl, by simp⟩

theorem onChecksum (s : Server κ) (client : κ) (path checksum : Data) :
    Quiet s (s.onChecksum files client path checksum) := by
  unfold Server.onChecksum
  apply (terminate s client).trans
  simp only
  split
  · exact reply _ client _
  · split
    · exact reply _ client _
    · split
      · exact report _ nofun
      next digest _ =>
        have hinsert : Quiet (s.terminate client) ((s.terminate client).insertDigest path digest) :=
          of_log List.prefix_rfl rfl
        exact hinsert.trans (reply _ client _)

theorem onReceive {client : κ} {data : Data} {now : ℤ}
    (h : s.onReceive files client data now = some s') : Quiet s s' := by
  unfold Server.onReceive at h
  split at h
  next path _ =>
    cases h
    unfold onQuery
    split
    · exact of_log ((Channel.send_sent ..).symm ▸ List.prefix_append _ _) rfl
    · exact reply s client _
  · cases h
    exact onGet files s client _
  · cases h
    unfold onAcknowledge
    split
    · exact refl s
    · split
      · exact refl s
      · exact of_log List.prefix_rfl rfl
  · cases h
    exact onChecksum s client _ _
  · cases h
    exact refl s
  · cases h
    exact report s nofun
  · cases h

end Quiet

/-! ### What an event does to the tasks -/

/-- The tasks are booked, each with the blocks acknowledged in it and the frames
sent since there were `since` of them. -/
structure Keeps (files : Files) (acked : κ → List ℕ) (since : κ → ℕ) (s : Server κ) : Prop where
  sound : s.Sound files Set.univ
  tasks : ∀ client t, s.mTasks.lookup client = some t →
    t.Booked client (acked client) (s.mChannel.sent.drop (since client))
  since : ∀ client, since client ≤ s.mChannel.sent.length

variable {s s' : Server κ} {acked : κ → List ℕ} {since : κ → ℕ}

omit [DecidableEq κ] in
theorem drop_subset {l l' : List (Channel.Frame κ)} (h : l <+: l') (n : ℕ) :
    l.drop n ⊆ l'.drop n := (List.IsPrefix.drop h n).subset

/-- Tasks that are as they were, or booked anew. -/
theorem Keeps.of_tasks (h : s.Keeps files acked since) (hsound : s'.Sound files Set.univ)
    (hsent : s.mChannel.sent <+: s'.mChannel.sent)
    (htasks : ∀ client t, s'.mTasks.lookup client = some t →
      s.mTasks.lookup client = some t ∨
        t.Booked client (acked client) (s'.mChannel.sent.drop (since client))) :
    s'.Keeps files acked since where
  sound := hsound
  tasks client t ht := by
    rcases htasks client t ht with hold | hnew
    · exact (h.tasks client t hold).mono (drop_subset hsent _)
    · exact hnew
  since client := (h.since client).trans hsent.length_le

/-- One task stored in the place of another. -/
theorem Keeps.store (h : s.Keeps files acked since) (hsound : s'.Sound files Set.univ)
    (hsent : s.mChannel.sent <+: s'.mChannel.sent) {client : κ} {t : Task}
    (hs' : s'.mTasks = s.mTasks.insert client t)
    (ht : t.Booked client (acked client) (s'.mChannel.sent.drop (since client))) :
    s'.Keeps files acked since := by
  apply h.of_tasks hsound hsent
  intro client' t' ht'
  rw [hs'] at ht'
  rcases eq_or_ne client' client with rfl | hne
  · rw [AList.lookup_insert, Option.some.injEq] at ht'
    exact .inr (ht' ▸ ht)
  · rw [AList.lookup_insert_ne hne] at ht'
    exact .inl ht'

theorem Keeps.terminate (h : s.Keeps files acked since) (client : κ) :
    (s.terminate client).Keeps files acked since :=
  h.of_tasks (h.sound.terminate client) (Quiet.terminate s client).sent
    fun _ _ ht => .inl (lookup_of_terminate ht)

theorem Keeps.callback (h : s.Keeps files acked since) (c : Channel.Callback κ) :
    (s.callback c).Keeps files acked since := by
  cases c with
  | retry task =>
    have hsound := h.sound.onRetry task
    change (s.onRetry task).Keeps files acked since
    unfold onRetry at hsound ⊢
    split
    · exact h
    next t ht =>
      simp only [ht] at hsound
      exact h.store hsound List.prefix_rfl rfl (h.tasks _ t ht).halve
  | timeout task =>
    exact h.of_tasks (h.sound.onTimeout task) (Quiet.callback s (.timeout task)).sent
      fun _ _ ht => .inl (lookup_of_terminate ht)

theorem Keeps.timer (h : s.Keeps files acked since) (handle : ℕ) :
    Keeps files acked since { s with mChannel := (s.mChannel.timer handle).1 } :=
  h.of_tasks ⟨h.sound.tasks, h.sound.cache, h.sound.channel.timer handle⟩
    (Channel.timer_sent_prefix _ handle) fun _ _ ht => .inl ht

/-- The task of a new transfer, of which nothing was acknowledged yet. -/
theorem Keeps.onGet (h : s.Keeps files acked since) (client : κ) {path : Data}
    (hpath : Named Set.univ path) (hnew : client ∉ s.mTasks → acked client = []) :
    (s.onGet files client path).Keeps files acked since := by
  have hsound := h.sound.onGet client hpath
  have hsent := (Quiet.onGet files s client path).sent
  apply h.of_tasks hsound hsent
  intro client' t ht
  unfold Server.onGet at ht
  split at ht
  · exact .inl ht
  next data _ =>
    simp only at ht
    split at ht
    · exact .inl ht
    next hfree =>
      rcases eq_or_ne client' client with rfl | hne
      · have ht' : _ = some t := (AList.lookup_insert s.mTasks).symm.trans ht
        rw [hnew hfree]
        cases ht'
        exact .inr (Task.booked_new ..)
      · exact .inl ((AList.lookup_insert_ne hne).symm.trans ht)

/-- The outstanding block that a message of a client acknowledges. -/
def acknowledged (s : Server κ) (client : κ) (data : Data) : Option ℕ :=
  match Protocol.deserialize data with
  | .ok (.acknowledge _ block) =>
    (s.mTasks.lookup client).bind fun t => if block.toNat ∈ t.packets then some block.toNat else none
  | _ => none

/-- The blocks acknowledged once `client` had an outstanding block acknowledged,
or none. -/
def acknowledge (acked : κ → List ℕ) (client : κ) (block : Option ℕ) : κ → List ℕ := fun client' =>
  if client' = client then block.toList ++ acked client else acked client'

theorem acknowledge_none (acked : κ → List ℕ) (client : κ) : acknowledge acked client none = acked := by
  funext client'
  unfold acknowledge
  split <;> simp_all

theorem Keeps.onAcknowledge (h : s.Keeps files acked since) (client : κ) (block : ℕ) (now : ℤ) :
    (s.onAcknowledge client block now).Keeps files
      (acknowledge acked client ((s.mTasks.lookup client).bind fun t =>
        if block ∈ t.packets then some block else none)) since := by
  have hsound := h.sound.onAcknowledge client block now
  unfold Server.onAcknowledge at hsound ⊢
  split
  next hnone => simpa only [hnone, Option.bind_none, acknowledge_none] using h
  next t ht =>
    simp only [ht, Option.bind_some] at hsound ⊢
    cases hpacket : t.packets.lookup block with
    | none =>
      have hblock : block ∉ t.packets := AList.lookup_eq_none.mp hpacket
      simpa only [if_neg hblock, acknowledge_none] using h
    | some packet =>
      simp only [hpacket] at hsound
      have hblock : block ∈ t.packets := AList.lookup_isSome.mp (by simp [hpacket])
      have hbooked := h.tasks client t ht
      have hpos := hbooked.window_pos
      have hle := hbooked.window_le
      simp only [if_pos hblock]
      refine ⟨hsound, fun client' t' ht' => ?_, h.since⟩
      rcases eq_or_ne client' client with rfl | hne
      · have ht'' := (AList.lookup_insert s.mTasks).symm.trans ht'
        cases ht''
        simp only [acknowledge, if_true]
        have hstart : sSlowStart ≤ sMaxWindow := by decide
        have hone : 1 ≤ sSlowStart := by decide
        apply hbooked.acknowledge hblock
        · split <;> [skip; split] <;> omega
        · split <;> [skip; split] <;> omega
      · have ht'' := (AList.lookup_insert_ne hne).symm.trans ht'
        simp only [acknowledge, if_neg hne]
        exact h.tasks client' t' ht''

theorem Keeps.onChecksum (h : s.Keeps files acked since) (client : κ) {path : Data}
    (hpath : Named Set.univ path) (checksum : Data) :
    (s.onChecksum files client path checksum).Keeps files acked since := by
  apply h.of_tasks (h.sound.onChecksum client hpath checksum) (Quiet.onChecksum s client path checksum).sent
  intro client' t ht
  have hsame : (s.onChecksum files client path checksum).mTasks = (s.terminate client).mTasks := by
    unfold Server.onChecksum
    simp only
    split
    · rfl
    · split
      · rfl
      · split <;> rfl
  exact .inl (lookup_of_terminate (hsame ▸ ht))

theorem Keeps.onReceive (h : s.Keeps files acked since) {client : κ} {data : Data} {now : ℤ}
    (hnew : client ∉ s.mTasks → acked client = [])
    (hs : s.onReceive files client data now = some s') :
    s'.Keeps files (acknowledge acked client (s.acknowledged client data)) since := by
  have hnamed : ∀ m, Protocol.deserialize data = .ok m → Named Set.univ m.path :=
    fun m hm => ⟨nulFree_of_deserialize hm _ m.path_mem_strings, trivial⟩
  have hsound := h.sound.onReceive (fun _ _ => trivial) hs
  have hsent := (Quiet.onReceive hs).sent
  unfold Server.onReceive at hs
  unfold Server.acknowledged
  split at hs
  next path hm =>
    cases hs
    simp only [hm, acknowledge_none]
    apply h.of_tasks hsound hsent
    intro client' t ht
    unfold Server.onQuery at ht
    split at ht
    · exact .inl ht
    · exact .inl ht
  next path hm =>
    cases hs
    simp only [hm, acknowledge_none]
    exact h.onGet client (hnamed _ hm) hnew
  next path block hm =>
    cases hs
    simp only [hm]
    exact h.onAcknowledge client _ now
  next path checksum hm =>
    cases hs
    simp only [hm, acknowledge_none]
    exact h.onChecksum client (hnamed _ hm) checksum
  next m _ _ hnot _ hm =>
    cases hs
    split
    next path block hm' =>
      rw [hm] at hm'
      cases hm'
      exact (hnot path block rfl).elim
    · simpa only [acknowledge_none] using h
  next hm =>
    cases hs
    simp only [hm, acknowledge_none]
    exact ⟨hsound, h.tasks, h.since⟩
  · cases hs

/-! ### The pass of the worker -/

/-- How far a pass that began in `s` has come: the tasks are those of `s`, and
those reported as finished are done. -/
structure Pass (files : Files) (acked : κ → List ℕ) (since : κ → ℕ) (s s' : Server κ) : Prop where
  keeps : s'.Keeps files acked since
  sent : s.mChannel.sent <+: s'.mChannel.sent
  tasks : ∀ client t', s'.mTasks.lookup client = some t' →
    ∃ t, s.mTasks.lookup client = some t ∧ t'.path = t.path ∧ t'.size = t.size
  log : ∃ l, s'.log = s.log ++ l ∧ ∀ client path, .finish client path ∈ l →
    ∃ t, s.mTasks.lookup client = some t ∧ t.path = path ∧ t.Done (acked client)

theorem Pass.report (h : Pass files acked since s s') {output : Output κ}
    (houtput : ∀ client path, output = .finish client path →
      ∃ t, s.mTasks.lookup client = some t ∧ t.path = path ∧ t.Done (acked client)) :
    Pass files acked since s (s'.report output) := by
  obtain ⟨l, hl, hfinish⟩ := h.log
  refine ⟨⟨h.keeps.sound.report output, h.keeps.tasks, h.keeps.since⟩, h.sent, h.tasks,
    l ++ [output], ?_, fun client path hmem => ?_⟩
  · rw [Server.report, hl, List.append_assoc]
  · rcases List.mem_append.mp hmem with hmem | hmem
    · exact hfinish client path hmem
    · exact houtput client path (List.mem_singleton.mp hmem).symm

theorem Pass.visit (h : Pass files acked since s s') (complete : List κ) (now : ℤ) (client : κ) :
    Pass files acked since s (Server.visit now (s', complete) client).1 := by
  unfold Server.visit
  split
  · exact h
  next t ht =>
    have hsound := h.keeps.sound.tasks client t ht
    have hsince := h.keeps.since client
    obtain ⟨t₀, ht₀, hpath₀, hsize₀⟩ := h.tasks client t ht
    have hwork : (s'.work client t now) = (s', .ok false) ∨
        ∃ channel t' cache complete,
          s'.work client t now =
            ({ s' with
                mChannel := channel, mTasks := s'.mTasks.insert client t', mMD5Cache := cache },
              .ok complete) ∧
          (s'.mChannel.sent <+: channel.sent ∧
            t'.Booked client (acked client) (channel.sent.drop (since client)) ∧
            t'.path = t.path ∧ t'.size = t.size) ∧
          t'.Sound files Set.univ cache ∧ t'.Worked s'.mMD5Cache cache complete := by
      apply work_rule client now (J := fun channel t' => s'.mChannel.sent <+: channel.sent ∧
        t'.Booked client (acked client) (channel.sent.drop (since client)) ∧
        t'.path = t.path ∧ t'.size = t.size)
      · intro channel t' k checksum _ hJ hroom hk hlt
        obtain ⟨hsent, hbooked, hpath, hsize⟩ := hJ
        rw [Channel.send_sent, List.drop_append_of_le_length (hsince.trans hsent.length_le)]
        exact ⟨hsent.trans (List.prefix_append _ _), hbooked.send hroom hk hlt rfl, hpath, hsize⟩
      · intro channel t' checksum hJ
        obtain ⟨hsent, hbooked, hpath, hsize⟩ := hJ
        exact ⟨hsent, ⟨hbooked.window_pos, hbooked.window_le, hbooked.packets_le, hbooked.distinct,
          hbooked.below, hbooked.above, hbooked.sent⟩, hpath, hsize⟩
      · exact ⟨List.prefix_rfl, h.keeps.tasks client t ht, rfl, rfl⟩
      · exact hsound
    have hwork' := h.keeps.sound.work hsound client now
    obtain heq | ⟨channel, t', cache, done, heq, ⟨hsent, hbooked, hpath, hsize⟩, -, hworked⟩ := hwork
    · simp only [heq]
      exact h
    · simp only [heq] at hwork' ⊢
      have hpass : Pass files acked since s
          { s' with mChannel := channel, mTasks := s'.mTasks.insert client t', mMD5Cache := cache } := by
        refine ⟨h.keeps.store hwork' hsent rfl hbooked, h.sent.trans hsent, fun client' u hu => ?_, h.log⟩
        rcases eq_or_ne client' client with rfl | hne
        · rw [AList.lookup_insert, Option.some.injEq] at hu
          exact ⟨t₀, ht₀, hu ▸ hpath.trans hpath₀, hu ▸ hsize.trans hsize₀⟩
        · rw [AList.lookup_insert_ne hne] at hu
          exact h.tasks client' u hu
      cases done with
      | false => exact hpass
      | true =>
        apply hpass.report
        intro client' path houtput
        cases houtput
        refine ⟨t₀, ht₀, hpath₀.symm, fun k hk => ?_⟩
        obtain ⟨-, -, hfalse⟩ | ⟨hposition, hempty, -⟩ := hworked
        · cases hfalse
        · -- with nothing outstanding, what is below the end is acknowledged
          rw [← hsize₀, ← hsize, ← hposition] at hk
          have hnone : k ∉ t'.packets := by
            rw [AList.mem_keys, AList.keys, List.isEmpty_iff.mp hempty.symm]
            exact List.not_mem_nil
          exact (hbooked.below k hk).elim (fun h => absurd h.1 hnone) And.left

theorem Pass.worker (h : s.Keeps files acked since) (order : List κ) (now : ℤ) :
    Pass files acked since s (s.worker order now) := by
  have hstart : Pass files acked since s s :=
    ⟨h, List.prefix_rfl, fun _ t ht => ⟨t, ht, rfl, rfl⟩, [], by simp⟩
  apply worker_rule (K := Pass files acked since s) _ _ hstart
  · exact fun _ complete client hs' => hs'.visit complete now client
  · intro s' client hs'
    refine ⟨hs'.keeps.terminate client, ?_, fun client' t ht => ?_, ?_⟩
    · rw [terminate_sent]
      exact hs'.sent
    · exact hs'.tasks client' t (lookup_of_terminate ht)
    · rw [terminate_log]
      exact hs'.log

/-! ### Runs -/

/-- A server with the blocks acknowledged in the task of each client, and the
number of frames on the wire before it began. -/
structure Ledger (κ : Type) where
  server : Server κ
  acked : κ → List ℕ
  since : κ → ℕ

namespace Ledger

/-- A message of any client, a pass of the worker, a turn of a timer, or a
callback, of any task at any time. -/
inductive Event (κ : Type)
  | receive (client : κ) (data : Data) (now : ℤ)
  | worker (order : List κ) (now : ℤ)
  | timer (handle : ℕ)
  | callback (c : Channel.Callback κ)

def new (timeout : ℤ) (retries : ℕ) : Ledger κ := ⟨.new timeout retries, fun _ => [], fun _ => 0⟩

/-- A client without a task has acknowledged nothing, and its next task begins
with the frames there are. -/
def refresh (r : Ledger κ) : Ledger κ where
  server := r.server
  acked client := if client ∈ r.server.mTasks then r.acked client else []
  since client := if client ∈ r.server.mTasks then r.since client else r.server.mChannel.sent.length

def step (files : Files) (r : Ledger κ) : Event κ → Option (Ledger κ)
  | .receive client data now =>
    (r.server.onReceive files client data now).map fun server =>
      { r.refresh with
        server, acked := acknowledge r.refresh.acked client (r.server.acknowledged client data) }
  | .worker order now =>
    some (if order.Perm r.server.mTasks.keys then
      { r.refresh with server := r.server.worker order now } else r)
  | .timer handle =>
    some { r.refresh with
      server := { r.server with mChannel := (r.server.mChannel.timer handle).1 } }
  | .callback c => some { r.refresh with server := r.server.callback c }

def machine (files : Files) : Machine (Ledger κ) (Event κ) := ⟨step files⟩

/-- The ledger agrees with the tasks of its server. -/
def Balanced (files : Files) (r : Ledger κ) : Prop := r.server.Keeps files r.acked r.since

variable {r r' : Ledger κ} {e : Event κ}

theorem Balanced.refresh (h : r.Balanced files) : r.refresh.Balanced files where
  sound := h.sound
  tasks client t ht := by
    have hmem : client ∈ r.server.mTasks := AList.lookup_isSome.mp (by
      rw [show r.server.mTasks.lookup client = some t from ht]
      rfl)
    simp only [Ledger.refresh, if_pos hmem]
    exact h.tasks client t ht
  since client := by
    simp only [Ledger.refresh]
    split
    · exact h.since client
    · exact Nat.le_refl _

theorem Balanced.step (h : r.Balanced files) (hstep : r.step files e = some r') :
    r'.Balanced files := by
  have hrefresh := h.refresh
  cases e with
  | receive client data now =>
    obtain ⟨server, hserver, rfl⟩ := Option.map_eq_some_iff.mp hstep
    exact hrefresh.onReceive (fun hmem => if_neg hmem) hserver
  | worker order now =>
    cases hstep
    split
    · exact (Pass.worker hrefresh order now).keeps
    · exact h
  | timer handle =>
    cases hstep
    exact hrefresh.timer handle
  | callback c =>
    cases hstep
    exact hrefresh.callback c

/-- What is reported as finished in an event. -/
theorem Balanced.finish (h : r.Balanced files) (hstep : r.step files e = some r') :
    ∃ l, r'.server.log = r.server.log ++ l ∧ ∀ client path, .finish client path ∈ l →
      ∃ t, r.server.mTasks.lookup client = some t ∧ t.path = path ∧ t.Done (r.acked client) := by
  have hquiet : ∀ {s : Server κ}, Quiet r.server s → ∃ l, s.log = r.server.log ++ l ∧
      ∀ client path, .finish client path ∈ l →
        ∃ t, r.server.mTasks.lookup client = some t ∧ t.path = path ∧ t.Done (r.acked client) := by
    intro s hs
    obtain ⟨l, hl, hnone⟩ := hs.log
    exact ⟨l, hl, fun client path hmem => absurd hmem (hnone client path)⟩
  cases e with
  | receive client data now =>
    obtain ⟨server, hserver, rfl⟩ := Option.map_eq_some_iff.mp hstep
    exact hquiet (Quiet.onReceive hserver)
  | worker order now =>
    cases hstep
    split
    · exact (Pass.worker h order now).log
    · exact hquiet (.refl _)
  | timer handle =>
    cases hstep
    exact hquiet (.of_log (Channel.timer_sent_prefix _ handle) rfl)
  | callback c =>
    cases hstep
    exact hquiet (.callback _ c)

/-- A transfer of one block, up to its end. -/
def transferA : List (Event ℕ) :=
  [.receive 1 (Protocol.get System.fileA.1).serialize 0, .worker [1] 0,
    .receive 1 (Protocol.acknowledge System.fileA.1 0).serialize 0, .worker [1] 0]

end Ledger

end Course.Rdt.Server
