import Course.Rdt.Bookkeeping

/-! The digests that the server keeps, and its verdicts on checksums, while the
files on the disk are replaced between transfers. -/

open Course.Lib

namespace Course.Rdt

variable {κ : Type} [DecidableEq κ] {files : Files}

namespace Server

/-- A cache whose new digests are those of the files as they are now. -/
def Remembers (files : Files) (cache cache' : Data → Option Data) : Prop :=
  ∀ path, cache' path = cache path ∨
    cache path = none ∧ ∃ c, files.content path = some c ∧ cache' path = some (md5 c)

variable {cache cache' cache'' : Data → Option Data}

theorem Remembers.refl (cache : Data → Option Data) : Remembers files cache cache := fun _ => .inl rfl

theorem Remembers.ne_none (h : Remembers files cache cache') {path : Data}
    (hpath : cache path ≠ none) : cache' path ≠ none := by
  obtain heq | ⟨hnone, -⟩ := h path
  · rwa [heq]
  · exact absurd hnone hpath

theorem Remembers.trans (h : Remembers files cache cache') (h' : Remembers files cache' cache'') :
    Remembers files cache cache'' := by
  intro path
  obtain heq' | ⟨hnone', c, hc, heq'⟩ := h' path
  · rw [heq']
    exact h path
  · obtain heq | ⟨hnone, c', -, heq⟩ := h path
    · exact .inr ⟨heq ▸ hnone', c, hc, heq'⟩
    · rw [heq] at hnone'
      cases hnone'

theorem remembers_update {path digest : Data}
    (hdigest : cache path = none → ∃ c, files.content path = some c ∧ digest = md5 c) :
    Remembers files cache (Function.update cache path (some ((cache path).getD digest))) := by
  intro path'
  rcases eq_or_ne path' path with rfl | hne
  · rw [Function.update_self]
    cases hcache : cache path' with
    | none =>
      obtain ⟨c, hc, rfl⟩ := hdigest hcache
      exact .inr ⟨rfl, c, hc, rfl⟩
    | some old => exact .inl rfl
  · exact .inl (Function.update_of_ne hne ..)

/-- The tasks are of the files as they are now, and the digest of a file is kept
once all its blocks are sent. -/
structure Current (files : Files) (s : Server κ) : Prop where
  tasks : ∀ client t, s.mTasks.lookup client = some t → t.Sound files Set.univ s.mMD5Cache
  ended : ∀ client t, s.mTasks.lookup client = some t → t.size ≠ 0 → t.file.position = t.size →
    s.mMD5Cache t.path ≠ none

variable {s s' : Server κ}

theorem current_new (timeout : ℤ) (retries : ℕ) : (new timeout retries : Server κ).Current files where
  tasks client t ht := by simp [new] at ht
  ended client t ht := by simp [new] at ht

theorem Current.of_subset (h : s.Current files) (hcache : Remembers files s.mMD5Cache s'.mMD5Cache)
    (htasks : ∀ client t, s'.mTasks.lookup client = some t → s.mTasks.lookup client = some t) :
    s'.Current files where
  tasks client t ht := (h.tasks client t (htasks client t ht)).mono fun _ => hcache.ne_none
  ended client t ht hsize hend := hcache.ne_none (h.ended client t (htasks client t ht) hsize hend)

/-- One task stored in the place of another. -/
theorem Current.store (h : s.Current files) (hcache : Remembers files s.mMD5Cache s'.mMD5Cache)
    {client : κ} {t : Task} (hs' : s'.mTasks = s.mTasks.insert client t)
    (ht : t.Sound files Set.univ s'.mMD5Cache)
    (hended : t.size ≠ 0 → t.file.position = t.size → s'.mMD5Cache t.path ≠ none) :
    s'.Current files := by
  refine ⟨fun client' t' ht' => ?_, fun client' t' ht' hsize hend => ?_⟩
  all_goals
    rw [hs'] at ht'
    rcases eq_or_ne client' client with rfl | hne
    · rw [AList.lookup_insert, Option.some.injEq] at ht'
      subst ht'
      first
        | exact ht
        | exact hended hsize hend
    · rw [AList.lookup_insert_ne hne] at ht'
      first
        | exact (h.tasks client' t' ht').mono fun _ => hcache.ne_none
        | exact hcache.ne_none (h.ended client' t' ht' hsize hend)

theorem Current.terminate (h : s.Current files) (client : κ) : (s.terminate client).Current files := by
  apply h.of_subset
  · rw [terminate_mMD5Cache]
    exact .refl _
  · exact fun _ _ ht => lookup_of_terminate ht

/-- A task whose schedule has changed. -/
theorem Current.reschedule (h : s.Current files) {client : κ} {t : Task}
    (ht : s.mTasks.lookup client = some t) (hcache : s'.mMD5Cache = s.mMD5Cache)
    {packets : AList fun _ : ℕ => Packet} {window : ℕ} {average variance timeout : ℤ}
    (hs' : s'.mTasks =
      s.mTasks.insert client { t with packets, window, average, variance, timeout }) :
    s'.Current files := by
  apply h.store _ hs'
  · exact hcache ▸ (h.tasks client t ht).reschedule packets window average variance timeout
  · exact hcache ▸ h.ended client t ht
  · exact hcache ▸ .refl _

theorem Current.callback (h : s.Current files) (c : Channel.Callback κ) :
    (s.callback c).Current files ∧ Remembers files s.mMD5Cache (s.callback c).mMD5Cache := by
  cases c with
  | retry task =>
    change (s.onRetry task).Current files ∧ Remembers files s.mMD5Cache (s.onRetry task).mMD5Cache
    unfold onRetry
    split
    · exact ⟨h, .refl _⟩
    next t ht => exact ⟨h.reschedule ht rfl rfl, .refl _⟩
  | timeout task =>
    have hterminate := h.terminate task.address
    refine ⟨⟨hterminate.tasks, hterminate.ended⟩, ?_⟩
    change Remembers files s.mMD5Cache (s.terminate task.address).mMD5Cache
    rw [terminate_mMD5Cache]
    exact .refl _

theorem Current.onGet (h : s.Current files) (client : κ) {path : Data}
    (hpath : Named Set.univ path) :
    (s.onGet files client path).Current files ∧
      Remembers files s.mMD5Cache (s.onGet files client path).mMD5Cache := by
  unfold Server.onGet
  split
  · exact ⟨⟨h.tasks, h.ended⟩, .refl _⟩
  next data hdata =>
    simp only
    split
    · exact ⟨⟨h.tasks, h.ended⟩, .refl _⟩
    · refine ⟨h.store (.refl _) rfl (Task.new_sound hpath hdata ..) fun hsize hend => ?_, .refl _⟩
      exact absurd hend.symm hsize

theorem Current.onChecksum (h : s.Current files) (client : κ) (path checksum : Data) :
    (s.onChecksum files client path checksum).Current files ∧
      Remembers files s.mMD5Cache (s.onChecksum files client path checksum).mMD5Cache := by
  have hterminate := h.terminate client
  unfold Server.onChecksum
  simp only [computeStream_eq]
  rw [← terminate_mMD5Cache s client]
  split
  · exact ⟨⟨hterminate.tasks, hterminate.ended⟩, .refl _⟩
  · split
    · exact ⟨⟨hterminate.tasks, hterminate.ended⟩, .refl _⟩
    next data hdata =>
      have hmem : Remembers files (s.terminate client).mMD5Cache
          ((s.terminate client).insertDigest path (md5 data)).mMD5Cache :=
        remembers_update fun _ => ⟨data, hdata, rfl⟩
      have hinsert : ((s.terminate client).insertDigest path (md5 data)).Current files :=
        hterminate.of_subset hmem fun _ _ ht => ht
      exact ⟨⟨hinsert.tasks, hinsert.ended⟩, hmem⟩

theorem Current.onReceive (h : s.Current files) {client : κ} {data : Data} {now : ℤ}
    (hs : s.onReceive files client data now = some s') :
    s'.Current files ∧ Remembers files s.mMD5Cache s'.mMD5Cache := by
  have hnamed : ∀ m, Protocol.deserialize data = .ok m → Named Set.univ m.path :=
    fun m hm => ⟨nulFree_of_deserialize hm _ m.path_mem_strings, trivial⟩
  unfold Server.onReceive at hs
  split at hs
  · cases hs
    unfold Server.onQuery
    split
    · exact ⟨⟨h.tasks, h.ended⟩, .refl _⟩
    · exact ⟨⟨h.tasks, h.ended⟩, .refl _⟩
  next path hm =>
    cases hs
    exact h.onGet client (hnamed _ hm)
  · cases hs
    unfold Server.onAcknowledge
    split
    · exact ⟨h, .refl _⟩
    next t ht =>
      split
      · exact ⟨h, .refl _⟩
      · exact ⟨h.reschedule ht rfl rfl, .refl _⟩
  · cases hs
    exact h.onChecksum client _ _
  · cases hs
    exact ⟨h, .refl _⟩
  · cases hs
    exact ⟨⟨h.tasks, h.ended⟩, .refl _⟩
  · cases hs

/-! ### The pass of the worker -/

/-- How far a pass that began in `s` has come: the digests of the files whose
tasks it reported as finished are kept. -/
structure Finishes (files : Files) (s s' : Server κ) : Prop where
  current : s'.Current files
  cache : Remembers files s.mMD5Cache s'.mMD5Cache
  log : ∃ l, s'.log = s.log ++ l ∧ ∀ client path, .finish client path ∈ l →
    0 ∉ path ∧ files.content path ≠ none ∧ s'.mMD5Cache path ≠ none

theorem Finishes.report (h : Finishes files s s') {output : Output κ}
    (houtput : ∀ client path, output = .finish client path →
      0 ∉ path ∧ files.content path ≠ none ∧ s'.mMD5Cache path ≠ none) :
    Finishes files s (s'.report output) := by
  obtain ⟨l, hl, hfinish⟩ := h.log
  refine ⟨⟨h.current.tasks, h.current.ended⟩, h.cache, l ++ [output], ?_, fun client path hmem => ?_⟩
  · rw [Server.report, hl, List.append_assoc]
  · rcases List.mem_append.mp hmem with hmem | hmem
    · exact hfinish client path hmem
    · exact houtput client path (List.mem_singleton.mp hmem).symm

theorem Finishes.visit (h : Finishes files s s') (complete : List κ) (now : ℤ) (client : κ) :
    Finishes files s (Server.visit now (s', complete) client).1 := by
  unfold Server.visit
  split
  · exact h
  next t ht =>
    obtain heq | ⟨channel, t', cache, done, heq, hpath, hsound, hworked⟩ :=
      work_rule client now (J := fun _ t' => t'.path = t.path)
        (fun _ _ _ _ _ hpath _ _ _ => hpath) (fun _ _ _ hpath => hpath) rfl
        (h.current.tasks client t ht)
    · simp only [heq]
      exact h
    · have hcache : Remembers files s'.mMD5Cache cache := by
        obtain ⟨-, rfl, -⟩ | ⟨-, -, digest, rfl, hdigest⟩ := hworked
        · exact .refl _
        · exact remembers_update fun hnone => ⟨_, hsound.content, hdigest hnone⟩
      have hended : t'.file.position = t'.size → cache t'.path ≠ none := by
        intro hend
        obtain ⟨hne, -⟩ | ⟨-, -, digest, rfl, -⟩ := hworked
        · exact absurd hend hne
        · rw [Function.update_self]
          exact Option.some_ne_none _
      obtain ⟨l, hl, hfinish⟩ := h.log
      have hstored : Finishes files s
          { s' with mChannel := channel, mTasks := s'.mTasks.insert client t', mMD5Cache := cache } := by
        refine ⟨h.current.store hcache rfl hsound fun _ => hended, h.cache.trans hcache, l, hl,
          fun c path hmem => ?_⟩
        obtain ⟨hnul, hcontent, hold⟩ := hfinish c path hmem
        exact ⟨hnul, hcontent, hcache.ne_none hold⟩
      simp only [heq]
      cases done with
      | false => exact hstored
      | true =>
        apply hstored.report
        rintro c path ⟨⟩
        obtain ⟨-, -, hfalse⟩ | ⟨hend, -⟩ := hworked
        · cases hfalse
        · rw [← hpath]
          exact ⟨hsound.named.1, by simp [hsound.content], hended hend⟩

theorem Finishes.worker (h : s.Current files) (order : List κ) (now : ℤ) :
    Finishes files s (s.worker order now) := by
  have hstart : Finishes files s s := ⟨h, .refl _, [], by simp⟩
  apply worker_rule (K := Finishes files s) _ _ hstart
  · exact fun _ complete client hs' => hs'.visit complete now client
  · intro s' client hs'
    refine ⟨hs'.current.terminate client, ?_, ?_⟩
    · rw [terminate_mMD5Cache]
      exact hs'.cache
    · rw [terminate_log, terminate_mMD5Cache]
      exact hs'.log

end Server

/-! ### Files that are replaced -/

/-- What a file can hold; `none` is no file. -/
def Contents := { content : Option Data // ∀ data, content = some data → data.length < 2 ^ 63 }

def Files.replace (files : Files) (path : Data) (contents : Contents) : Files where
  content := Function.update files.content path contents.1
  size_lt path' data h := by
    rcases eq_or_ne path' path with rfl | hne
    · rw [Function.update_self] at h
      exact contents.2 data h
    · rw [Function.update_of_ne hne] at h
      exact files.size_lt path' data h

/-- A server over a disk.  `completed` are the paths of which a transfer was
completed since the file was last replaced, and `first` is what a file held when
a digest of its path was first kept. -/
structure Disk (κ : Type) where
  files : Files
  running : Server.Running κ
  completed : List Data
  first : Data → Option Data

namespace Disk

inductive Event (κ : Type)
  | replace (path : Data) (contents : Contents)
  | server (e : Server.Event κ)

def new (files : Files) (timeout : ℤ) (retries : ℕ) : Disk κ :=
  ⟨files, ⟨.new timeout retries, []⟩, [], fun _ => none⟩

/-- The paths of the tasks all of whose blocks, one or more, were sent. -/
def sentPaths (s : Server κ) : List Data :=
  (s.mTasks.entries.filter fun e => e.2.size ≠ 0 ∧ e.2.file.position = e.2.size).map (·.2.path)

/-- The paths of the tasks that were reported as finished. -/
def finishedPaths (log : List (Server.Output κ)) : List Data :=
  log.filterMap fun
    | .finish _ path => some path
    | _ => none

/-- A file is not replaced during a transfer of it. -/
def step (d : Disk κ) : Event κ → Option (Disk κ)
  | .replace path contents =>
    some (if d.running.server.mTasks.entries.any (·.2.path = path) then d else
      { d with
        files := d.files.replace path contents
        completed := d.completed.filter (· ≠ path) })
  | .server e =>
    (d.running.step d.files e).map fun running =>
      { d with
        running
        completed := d.completed ++ sentPaths running.server ++
          finishedPaths (running.server.log.drop d.running.server.log.length)
        first := fun path =>
          if (d.first path).isNone ∧ (running.server.mMD5Cache path).isSome
          then d.files.content path else d.first path }

def machine : Machine (Disk κ) (Event κ) := ⟨step⟩

/-- A digest that is kept is that of the file when its first one was kept. -/
structure Sound (d : Disk κ) : Prop where
  current : d.running.server.Current d.files
  first : ∀ path, d.running.server.mMD5Cache path = (d.first path).map md5
  completed : ∀ path ∈ d.completed, 0 ∉ path ∧ d.files.content path ≠ none ∧
    d.running.server.mMD5Cache path ≠ none

theorem sound_new (files : Files) (timeout : ℤ) (retries : ℕ) :
    (new files timeout retries : Disk κ).Sound where
  current := Server.current_new timeout retries
  first _ := rfl
  completed _ h := absurd h List.not_mem_nil

variable {d d' : Disk κ}

theorem Sound.replace (h : d.Sound) {path : Data} (contents : Contents)
    (hfree : ∀ client t, d.running.server.mTasks.lookup client = some t → t.path ≠ path) :
    Sound { d with
      files := d.files.replace path contents, completed := d.completed.filter (· ≠ path) } where
  current.tasks client t ht := by
    have hsound := h.current.tasks client t ht
    refine { hsound with content := ?_ }
    exact (Function.update_of_ne (hfree client t ht) ..).trans hsound.content
  current.ended := h.current.ended
  first := h.first
  completed path' hmem := by
    obtain ⟨hmem, hne⟩ := List.mem_filter.mp hmem
    have hne' : path' ≠ path := of_decide_eq_true hne
    obtain ⟨hnul, hcontent, hcache⟩ := h.completed path' hmem
    refine ⟨hnul, ?_, hcache⟩
    change Function.update d.files.content path contents.1 path' ≠ none
    rwa [Function.update_of_ne hne']

/-- What an event does to a server: its cache, and what it reports as finished. -/
theorem Sound.running (h : d.Sound) {e : Server.Event κ} {running : Server.Running κ}
    (hstep : d.running.step d.files e = some running) :
    Server.Finishes d.files d.running.server running.server := by
  have hquiet : ∀ {s : Server κ}, s.Current d.files ∧
      Server.Remembers d.files d.running.server.mMD5Cache s.mMD5Cache →
      Server.Quiet d.running.server s → Server.Finishes d.files d.running.server s := by
    intro s hs hquiet
    obtain ⟨l, hl, hnone⟩ := hquiet.log
    exact ⟨hs.1, hs.2, l, hl, fun client path hmem => absurd hmem (hnone client path)⟩
  cases e with
  | receive client data now =>
    obtain ⟨server, hserver, rfl⟩ := Option.map_eq_some_iff.mp hstep
    exact hquiet (h.current.onReceive hserver) (.onReceive hserver)
  | turn turn =>
    cases hstep
    cases turn with
    | worker order now =>
      rw [Server.Running.turn]
      split
      · exact .worker h.current order now
      · exact hquiet ⟨h.current, .refl _⟩ (.refl _)
    | timer handle =>
      exact hquiet ⟨⟨h.current.tasks, h.current.ended⟩, .refl _⟩
        (.of_log (Channel.timer_sent_prefix _ handle) rfl)
    | callback i =>
      rw [Server.Running.turn]
      split
      · exact hquiet ⟨h.current, .refl _⟩ (.refl _)
      next callback _ => exact hquiet (h.current.callback callback) (.callback _ callback)

theorem Sound.step {e : Event κ} (h : d.Sound) (hstep : d.step e = some d') : d'.Sound := by
  cases e with
  | replace path contents =>
    cases hstep
    split
    · exact h
    next hfree =>
      refine h.replace contents fun client t ht hpath => hfree ?_
      exact List.any_eq_true.mpr ⟨_, AList.mem_lookup_iff.mp ht, decide_eq_true hpath⟩
  | server e =>
    obtain ⟨running, hrunning, rfl⟩ := Option.map_eq_some_iff.mp hstep
    obtain ⟨hcurrent, hcache, l, hl, hfinish⟩ := h.running hrunning
    refine ⟨hcurrent, fun path => ?_, fun path hmem => ?_⟩
    · have hold := h.first path
      obtain heq | ⟨hnone, c, hc, heq⟩ := hcache path
      · simp only [heq, hold]
        cases d.first path <;> simp
      · rw [hnone] at hold
        have hfirst : d.first path = none := Option.map_eq_none_iff.mp hold.symm
        simp [heq, hfirst, hc]
    · rcases List.mem_append.mp hmem with hmem | hmem
      · rcases List.mem_append.mp hmem with hmem | hmem
        · obtain ⟨hnul, hcontent, hdigest⟩ := h.completed path hmem
          exact ⟨hnul, hcontent, hcache.ne_none hdigest⟩
        · obtain ⟨⟨client, t⟩, hentry, rfl⟩ := List.mem_map.mp hmem
          obtain ⟨hentry, hsent⟩ := List.mem_filter.mp hentry
          obtain ⟨hsize, hend⟩ := of_decide_eq_true hsent
          have ht := AList.mem_lookup_iff.mpr hentry
          have hsound := hcurrent.tasks client t ht
          exact ⟨hsound.named.1, by simp [hsound.content], hcurrent.ended client t ht hsize hend⟩
      · rw [hl, List.drop_left] at hmem
        obtain ⟨output, houtput, hpath⟩ := List.mem_filterMap.mp hmem
        cases output with
        | finish client path' =>
          cases hpath
          exact hfinish client path houtput
        | task | processing | timeout | receiving => cases hpath

/-- The server answers a checksum of a client with `Confirm`. -/
def Confirms (d : Disk κ) (client : κ) (path checksum : Data) (now : ℤ) : Prop :=
  ∃ d', d.step (.server (.receive client (Protocol.checksum path checksum).serialize now)) =
      some d' ∧
    ∃ handle, d'.running.server.mChannel.sent = d.running.server.mChannel.sent ++
      [⟨handle, 0, (Protocol.confirm path).serialize, client⟩]

/-- What is answered goes by the digest that is kept. -/
theorem confirms_iff {client : κ} {path checksum digest : Data} {now : ℤ} (hpath : 0 ∉ path)
    (hdigest : d.running.server.mMD5Cache path = some digest) :
    d.Confirms client path checksum now ↔ checksum = digest := by
  have hnul : (Protocol.checksum path checksum).NulFree := fun s hs => by
    rw [List.mem_singleton.mp hs]
    exact hpath
  have hconfirm : (Protocol.confirm path).NulFree := fun s hs => by
    rw [List.mem_singleton.mp hs]
    exact hpath
  have herror : (Protocol.error path (text "Checksum mismatch")).NulFree := by
    simp [Protocol.NulFree, Protocol.strings, hpath, Server.text_nulFree.2]
  have hstep : ∃ d', d.step (.server (.receive client (Protocol.checksum path checksum).serialize
      now)) = some d' ∧ d'.running.server.mChannel.sent = d.running.server.mChannel.sent ++
        [⟨(d.running.server.terminate client).mChannel.mHandle, 0,
          (if digest = checksum then Protocol.confirm path
            else .error path (text "Checksum mismatch")).serialize, client⟩] := by
    rw [step, Server.Running.step, Server.onReceive, deserialize_serialize hnul]
    refine ⟨_, rfl, ?_⟩
    simp only [Server.onChecksum, Server.terminate_mMD5Cache, hdigest, Server.verdict, Server.reply]
    rw [Channel.send_sent, Server.terminate_sent]
  obtain ⟨d', hd', hsent⟩ := hstep
  unfold Confirms
  rw [hd']
  constructor
  · rintro ⟨_, ⟨⟩, handle, hsent'⟩
    rw [hsent] at hsent'
    by_contra hne
    have hframe := List.append_cancel_left hsent'
    simp only [if_neg (Ne.symm hne), List.cons.injEq, Channel.Frame.mk.injEq, Channel.Task.mk.injEq,
      and_true, true_and] at hframe
    have hsame := congrArg Protocol.deserialize hframe.2
    rw [deserialize_serialize herror, deserialize_serialize hconfirm] at hsame
    cases hsame
  · rintro rfl
    rw [if_pos rfl] at hsent
    exact ⟨d', rfl, _, hsent⟩

/-- In every run, a checksum that follows a completed transfer of a file is
confirmed just when it is that of the file, if and only if that is also the
checksum of what the file held when a digest of its path was first kept. -/
theorem run_confirms_iff (files : Files) (timeout : ℤ) (retries : ℕ) (es : List (Event κ))
    (d : Disk κ) (hrun : Machine.Run machine (fun _ _ => True) (new files timeout retries) es d)
    (path : Data) (hcompleted : path ∈ d.completed) :
    ∃ content, d.files.content path = some content ∧ ∀ (client : κ) (now : ℤ),
      (∀ checksum, d.Confirms client path checksum now ↔ checksum = md5 content) ↔
        (d.first path).map md5 = some (md5 content) := by
  have hsound : d.Sound :=
    hrun.invariant (I := Sound) (fun _ _ _ hs _ hstep => hs.step hstep)
      (sound_new files timeout retries)
  obtain ⟨hpath, hcontent, hcache⟩ := hsound.completed path hcompleted
  obtain ⟨content, hcontent⟩ := Option.ne_none_iff_exists'.mp hcontent
  obtain ⟨digest, hdigest⟩ := Option.ne_none_iff_exists'.mp hcache
  refine ⟨content, hcontent, fun client now => ?_⟩
  rw [← hsound.first path, hdigest]
  constructor
  · intro h
    rw [← (h digest).mp ((confirms_iff hpath hdigest).mpr rfl)]
  · intro h checksum
    rw [confirms_iff hpath hdigest, Option.some.inj h]

/-- A transfer of the one block of file `A`, and its end. -/
def transferA : List (Event ℕ) :=
  [.server (.receive 1 (Protocol.get System.fileA.1).serialize 0), .server (.turn (.worker [1] 0)),
    .server (.receive 1 (Protocol.acknowledge System.fileA.1 0).serialize 0),
    .server (.turn (.worker [1] 0))]

theorem run_confirms_iff_oneBlock :
    ∃ d : Disk ℕ, machine.exec (new System.twoFiles 1000 5) transferA = some d ∧
      System.fileA.1 ∈ d.completed ∧
      ∃ content, d.files.content System.fileA.1 = some content ∧ ∀ (client : ℕ) (now : ℤ),
        (∀ checksum, d.Confirms client System.fileA.1 checksum now ↔ checksum = md5 content) ↔
          (d.first System.fileA.1).map md5 = some (md5 content) := by
  let d := (machine.exec (new System.twoFiles 1000 5) transferA).get (by decide +kernel)
  have hrun : machine.exec (new System.twoFiles 1000 5) transferA = some d :=
    (Option.some_get _).symm
  have hcompleted : System.fileA.1 ∈ d.completed := by decide +kernel
  exact ⟨d, hrun, hcompleted, run_confirms_iff System.twoFiles 1000 5 transferA d
    (Machine.run_iff_exec.mpr hrun) System.fileA.1 hcompleted⟩

/-- File `A` is transferred again after it was replaced. -/
def replacedA : List (Event ℕ) :=
  transferA ++ .replace System.fileA.1 ⟨some [2], by decide⟩ :: transferA

/-- The digest of the first transfer decides on the checksum of the second. -/
theorem exec_not_confirms :
    ¬∀ (files : Files) (timeout : ℤ) (retries : ℕ) (es : List (Event ℕ)) (d : Disk ℕ)
      (path content : Data), machine.exec (new files timeout retries) es = some d →
      path ∈ d.completed → d.files.content path = some content →
      ∀ (client : ℕ) (now : ℤ) (checksum : Data),
        d.Confirms client path checksum now ↔ checksum = md5 content := by
  intro h
  let d := (machine.exec (new System.twoFiles 1000 5) replacedA).get (by decide +kernel)
  have hrun : machine.exec (new System.twoFiles 1000 5) replacedA = some d :=
    (Option.some_get _).symm
  have hcompleted : System.fileA.1 ∈ d.completed := by decide +kernel
  have hcontent : d.files.content System.fileA.1 = some [2] := by decide +kernel
  have hdigest : d.running.server.mMD5Cache System.fileA.1 = some (md5 [1]) := by decide +kernel
  have hconfirms : d.Confirms 1 System.fileA.1 (md5 [1]) 0 :=
    (confirms_iff System.fileA.2 hdigest).mpr rfl
  have hsame := (h System.twoFiles 1000 5 replacedA d System.fileA.1 [2] hrun hcompleted hcontent 1
    0 (md5 [1])).mp hconfirms
  exact absurd hsame (by decide +kernel)

end Disk

end Course.Rdt
