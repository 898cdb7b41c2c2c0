import Course.Rdt.Server

/-! Whatever the clients send and whatever the network does, every size and
every block that the server sends is that of its file, and every digest it
keeps is that of the file's content. -/

open Course.Lib

namespace Course.Rdt

variable {κ : Type} [DecidableEq κ] {files : Files} {paths : Set Data}

/-- The bytes of block `k`. -/
def fileBlock (content : Data) (k : ℕ) : Data :=
  (content.drop (k * Server.sBlockSize)).take Server.sBlockSize

/-- What a message says of the files is so. -/
def Truthful (files : Files) : Protocol → Prop
  | .size path size => ∃ c, files.content path = some c ∧ size.toNat = c.length
  | .data path block data => ∃ c, files.content path = some c ∧
      block.toNat * Server.sBlockSize < c.length ∧ data = fileBlock c block.toNat
  | _ => True

/-- The bytes of a truthful message about one of `paths`. -/
def Says (files : Files) (paths : Set Data) (data : Data) : Prop :=
  ∃ m : Protocol, m.NulFree ∧ m.path ∈ paths ∧ Truthful files m ∧ data = m.serialize

theorem says_serialize {m : Protocol} (hn : m.NulFree) (hp : m.path ∈ paths)
    (ht : Truthful files m) : Says files paths m.serialize := ⟨m, hn, hp, ht, rfl⟩

theorem Says.deserialize {data : Data} (h : Says files paths data) :
    ∃ m, Protocol.deserialize data = .ok m ∧ m.path ∈ paths ∧ Truthful files m := by
  obtain ⟨m, hn, hp, ht, rfl⟩ := h
  exact ⟨m, deserialize_serialize hn, hp, ht⟩

/-- A path a message can carry. -/
def Named (paths : Set Data) (path : Data) : Prop := 0 ∉ path ∧ path ∈ paths

theorem Named.nulFree {path : Data} (h : Named paths path) {m : Protocol}
    (hm : m.strings = [path]) : m.NulFree := by
  intro s hs
  rw [hm, List.mem_singleton] at hs
  exact hs ▸ h.1

namespace Server

/-- A task reads its file block by block from the start, and its checksum
stands for what it has read until the whole file is finalized and its digest
is in the cache. -/
structure Task.Sound (files : Files) (paths : Set Data) (cache : Data → Option Data) (t : Task) : Prop where
  content : files.content t.path = some t.file.content
  named : Named paths t.path
  size : t.size = t.file.content.length
  eof : t.file.eof = false
  position : t.file.position ≤ t.size
  aligned : sBlockSize ∣ t.file.position ∨ t.file.position = t.size
  checksum : t.checksum.Represents (t.file.content.take t.file.position) ∨
    t.file.position = t.size ∧ cache t.path ≠ none

/-- Digests in the cache are those of the files. -/
def Fresh (files : Files) (cache : Data → Option Data) : Prop :=
  ∀ path digest, cache path = some digest →
    ∃ c, files.content path = some c ∧ digest = md5 c

structure Sound (files : Files) (paths : Set Data) (s : Server κ) : Prop where
  tasks : ∀ client t, s.mTasks.lookup client = some t → t.Sound files paths s.mMD5Cache
  cache : Fresh files s.mMD5Cache
  channel : s.mChannel.Carries fun _ task => Says files paths task.data

theorem isEnd_iff {t : Task} {cache : Data → Option Data} (h : t.Sound files paths cache) :
    isEnd t.file t.size = true ↔ t.file.position = t.size := by
  simp [isEnd, h.eof]

/-! ### Worker -/

/-- The message of block `k` of a task. -/
def Task.block (t : Task) (client : κ) (k : ℕ) : Channel.Task κ :=
  ⟨(Protocol.data t.path (.ofNat k) (fileBlock t.file.content k)).serialize, client⟩

/-- One turn of the loop of `work`: the next block is read and fed to the
checksum. -/
theorem fill_step {t : Task} {cache : Data → Option Data} (h : t.Sound files paths cache)
    (hend : t.file.position ≠ t.size) :
    ∃ k checksum, t.file.position = k * sBlockSize ∧
      t.file.read (min (t.file.position + sBlockSize) t.size - t.file.position) =
        (fileBlock t.file.content k,
          { t.file with position := min (t.file.position + sBlockSize) t.size }) ∧
      (fileBlock t.file.content k).length =
        min (t.file.position + sBlockSize) t.size - t.file.position ∧
      t.checksum.update (fileBlock t.file.content k) = .ok checksum ∧
      ∀ packets, Task.Sound files paths cache
        { t with
          file := { t.file with position := min (t.file.position + sBlockSize) t.size }
          checksum, packets } := by
  have hlt : t.file.position < t.size := Nat.lt_of_le_of_ne h.position hend
  obtain ⟨k, hk⟩ := h.aligned.resolve_right hend
  have hrep := h.checksum.resolve_right fun h => hend h.1
  have hpos : t.file.position = k * sBlockSize := by rw [hk, Nat.mul_comm]
  generalize hn : min (t.file.position + sBlockSize) t.size - t.file.position = n
  have hn' : t.file.position + n = min (t.file.position + sBlockSize) t.size := by omega
  have hle : t.file.position + n ≤ t.file.content.length := by rw [← h.size]; omega
  have hblock : (t.file.content.drop t.file.position).take n = fileBlock t.file.content k := by
    rw [fileBlock, ← hpos]
    rcases Nat.le_total (t.file.position + sBlockSize) t.size with hfull | hlast
    · congr 1
      omega
    · rw [List.take_of_length_le, List.take_of_length_le]
      all_goals rw [List.length_drop, ← h.size]; omega
  have hlen : (fileBlock t.file.content k).length = n := by
    rw [← hblock, List.length_take, List.length_drop]
    omega
  have htake : (t.file.content.take t.file.position).length = t.file.position := by
    rw [List.length_take, ← h.size, Nat.min_eq_left h.position]
  have hdvd : 64 ∣ t.file.position := by
    rw [hk]
    exact (show 64 ∣ sBlockSize by decide).mul_right k
  obtain ⟨checksum, hupdate, hrep'⟩ := hrep.update (fileBlock t.file.content k)
    (.inl (by rwa [htake]))
  rw [← hblock, ← List.take_add, hn'] at hrep'
  refine ⟨k, checksum, hpos, ?_, hlen, hupdate, fun packets => ?_⟩
  · simp only [Ifstream.read, h.eof, Bool.false_eq_true, if_false, hblock, hlen, hn', lt_irrefl,
      decide_false]
  · refine ⟨h.content, h.named, h.size, h.eof, min_le_right _ _, ?_, .inl hrep'⟩
    rcases Nat.le_total (t.file.position + sBlockSize) t.size with hfull | hlast
    · refine .inl ⟨k + 1, ?_⟩
      rw [Nat.min_eq_left hfull, hk, Nat.mul_succ]
    · exact .inr (Nat.min_eq_right hlast)

omit [DecidableEq κ] in
/-- What a block of a task says is so. -/
theorem Task.Sound.block_says {t : Task} {cache : Data → Option Data}
    (h : t.Sound files paths cache) (client : κ) {k : ℕ} (hk : k * sBlockSize < t.size) :
    Says files paths (t.block client k).data := by
  have hsize := files.size_lt _ _ h.content
  have hle : k ≤ k * sBlockSize := Nat.le_mul_of_pos_right k (by decide)
  have hmod : (UInt64.ofNat k).toNat = k := by
    rw [UInt64.toNat_ofNat', Nat.mod_eq_of_lt]
    rw [h.size] at hk
    omega
  refine says_serialize (m := .data t.path (.ofNat k) (fileBlock t.file.content k))
    (h.named.nulFree rfl) h.named.2 ⟨t.file.content, h.content, ?_, ?_⟩
  · rwa [hmod, ← h.size]
  · rw [hmod]

omit [DecidableEq κ] in
/-- What every turn of the loop of `work` keeps, the loop keeps; with a turn
for every byte left, it ends where the source's does. -/
theorem fill_rule {J : Channel κ → Task → Prop} {cache : Data → Option Data} {retries : ℕ}
    {client : κ} {now : ℤ}
    (hJ : ∀ channel t k checksum, t.Sound files paths cache → J channel t →
      t.packets.entries.length < t.window → t.file.position = k * sBlockSize →
      k * sBlockSize < t.size →
      J (channel.send (t.block client k) t.timeout retries).1
        { t with
          file := { t.file with position := min (t.file.position + sBlockSize) t.size }
          checksum
          packets := if k ∈ t.packets then t.packets
            else t.packets.insert k ⟨channel.mHandle, now⟩ })
    {n : ℕ} {channel : Channel κ} {t : Task} (hc : J channel t) (ht : t.Sound files paths cache)
    (hn : t.size - t.file.position < n) :
    ∃ channel' t', fill retries client now n channel t = (channel', t', none) ∧
      J channel' t' ∧ t'.Sound files paths cache ∧
      (t'.window ≤ t'.packets.entries.length ∨ isEnd t'.file t'.size = true) := by
  induction n generalizing channel t with
  | zero => omega
  | succ n ih =>
    rw [fill]
    split
    next hroom =>
      have hend : t.file.position ≠ t.size := fun h => hroom.2 ((isEnd_iff ht).mpr h)
      have hle := ht.position
      obtain ⟨k, checksum, hk, hread, hlen, hupdate, hsound⟩ := fill_step ht hend
      have hdiv : t.file.position / sBlockSize = k := by
        rw [hk, Nat.mul_div_cancel k (by decide)]
      have hturn := hJ channel t k checksum ht hc hroom.1 hk (by omega)
      simp only [hread, hlen, Nat.sub_self, List.replicate_zero, List.append_nil, hupdate, hdiv]
      apply ih hturn (hsound _)
      have : 0 < sBlockSize := by decide
      simp only
      omega
    next hroom =>
      refine ⟨channel, t, rfl, hc, ht, ?_⟩
      by_cases hwindow : t.packets.entries.length < t.window
      · exact .inr (by_contra fun h => hroom ⟨hwindow, h⟩)
      · exact .inl (Nat.le_of_not_lt hwindow)

theorem Task.Sound.mono {t : Task} {cache cache' : Data → Option Data}
    (h : t.Sound files paths cache) (hc : ∀ path, cache path ≠ none → cache' path ≠ none) :
    t.Sound files paths cache' :=
  { h with checksum := h.checksum.imp_right fun hend => ⟨hend.1, hc _ hend.2⟩ }

/-- Storing a sound task keeps the server sound. -/
theorem Sound.store {s : Server κ} (h : s.Sound files paths) {channel : Channel κ} {t : Task}
    (hc : channel.Carries fun _ task => Says files paths task.data) (ht : t.Sound files paths s.mMD5Cache)
    (client : κ) :
    Sound files paths { s with mChannel := channel, mTasks := s.mTasks.insert client t } where
  tasks client' t' hlookup := by
    rcases eq_or_ne client' client with rfl | hne
    · rw [AList.lookup_insert, Option.some.injEq] at hlookup
      exact hlookup ▸ ht
    · rw [AList.lookup_insert_ne hne] at hlookup
      exact h.tasks client' t' hlookup
  cache := h.cache
  channel := hc

omit [DecidableEq κ] in
theorem insertDigest_self (s : Server κ) (path digest : Data) :
    (s.insertDigest path digest).mMD5Cache path = some ((s.mMD5Cache path).getD digest) :=
  Function.update_self ..

omit [DecidableEq κ] in
theorem insertDigest_of_ne (s : Server κ) {path path' : Data} (h : path' ≠ path) (digest : Data) :
    (s.insertDigest path digest).mMD5Cache path' = s.mMD5Cache path' :=
  Function.update_of_ne h ..

theorem Sound.insertDigest {s : Server κ} (h : s.Sound files paths) {path digest : Data}
    (hd : s.mMD5Cache path = none → ∃ c, files.content path = some c ∧ digest = md5 c) :
    (s.insertDigest path digest).Sound files paths where
  tasks client t hlookup := (h.tasks client t hlookup).mono fun path' hpath => by
    rcases eq_or_ne path' path with rfl | hne
    · rw [insertDigest_self]
      exact Option.some_ne_none _
    · rwa [insertDigest_of_ne s hne]
  cache path' digest' hcache := by
    rcases eq_or_ne path' path with rfl | hne
    · rw [insertDigest_self, Option.some.injEq] at hcache
      cases hold : s.mMD5Cache path' with
      | none => rw [hold] at hcache; exact hcache ▸ hd hold
      | some old => rw [hold] at hcache; exact hcache ▸ h.cache path' old hold
    · rw [insertDigest_of_ne s hne] at hcache
      exact h.cache path' digest' hcache
  channel := h.channel

theorem Sound.report {s : Server κ} (h : s.Sound files paths) (output : Output κ) :
    (s.report output).Sound files paths := ⟨h.tasks, h.cache, h.channel⟩

theorem Sound.reply {s : Server κ} (h : s.Sound files paths) {m : Protocol} (hn : m.NulFree)
    (hp : m.path ∈ paths) (ht : Truthful files m) (client : κ) :
    (s.reply client m).Sound files paths :=
  ⟨h.tasks, h.cache, h.channel.send (says_serialize hn hp ht) 1 0⟩

theorem Sound.terminate {s : Server κ} (h : s.Sound files paths) (client : κ) :
    (s.terminate client).Sound files paths := by
  unfold Server.terminate
  split
  · exact h
  next task _ =>
    refine ⟨fun client' t hlookup => ?_, h.cache, ?_⟩
    · rcases eq_or_ne client' client with rfl | hne
      · rw [AList.lookup_erase] at hlookup
        cases hlookup
      · rw [AList.lookup_erase_ne hne] at hlookup
        exact h.tasks client' t hlookup
    · have hfold : ∀ (l : List (Σ _ : ℕ, Packet)) (c : Channel κ),
          (c.Carries fun _ task => Says files paths task.data) →
          (l.foldl (fun c p => c.terminate p.2.handle) c).Carries
            fun _ task => Says files paths task.data := by
        intro l
        induction l with
        | nil => exact fun _ hc => hc
        | cons p l ih => exact fun c hc => ih _ (hc.terminate _)
      exact hfold _ _ h.channel

/-- The cache after `work` left the task as `t`, and what `work` returned. -/
def Task.Worked (t : Task) (cache cache' : Data → Option Data) (complete : Bool) : Prop :=
  (t.file.position ≠ t.size ∧ cache' = cache ∧ complete = false) ∨
  (t.file.position = t.size ∧ complete = t.packets.entries.isEmpty ∧
    ∃ digest, cache' = Function.update cache t.path (some ((cache t.path).getD digest)) ∧
      (cache t.path = none → digest = md5 t.file.content))

/-- What every turn of its loop and a change of the checksum keep, `work`
keeps. -/
theorem work_rule (client : κ) (now : ℤ) {J : Channel κ → Task → Prop} {s : Server κ}
    (hJ : ∀ channel t k checksum, t.Sound files paths s.mMD5Cache → J channel t →
      t.packets.entries.length < t.window → t.file.position = k * sBlockSize →
      k * sBlockSize < t.size →
      J (channel.send (t.block client k) t.timeout s.mRetries).1
        { t with
          file := { t.file with position := min (t.file.position + sBlockSize) t.size }
          checksum
          packets := if k ∈ t.packets then t.packets
            else t.packets.insert k ⟨channel.mHandle, now⟩ })
    (hchecksum : ∀ channel t checksum, J channel t → J channel { t with checksum })
    {t : Task} (hc : J s.mChannel t) (ht : t.Sound files paths s.mMD5Cache) :
    s.work client t now = (s, .ok false) ∨
    ∃ channel t' cache complete,
      s.work client t now =
        ({ s with
            mChannel := channel, mTasks := s.mTasks.insert client t', mMD5Cache := cache },
          .ok complete) ∧
      J channel t' ∧ t'.Sound files paths cache ∧ t'.Worked s.mMD5Cache cache complete := by
  rw [Server.work]
  split
  · exact .inl rfl
  right
  obtain ⟨channel, t', hfill, hc', ht', -⟩ := fill_rule hJ hc ht (n := t.size + 1) (by omega)
  simp only [hfill]
  split
  next hend =>
    have hposition := (isEnd_iff ht').mp hend
    have htake : t'.file.content.take t'.file.position = t'.file.content := by
      rw [List.take_of_length_le (by rw [hposition, ht'.size])]
    rw [MD5.digest_of_valid (MD5.finalize_valid _)]
    refine ⟨channel, _, _, _, rfl, hchecksum _ _ _ hc', ?_, .inr ⟨hposition, rfl, _, rfl, ?_⟩⟩
    · -- the finalized task is sound once its digest is in the cache
      refine ⟨ht'.content, ht'.named, ht'.size, ht'.eof, ht'.position, ht'.aligned,
        .inr ⟨hposition, ?_⟩⟩
      rw [Function.update_self]
      exact Option.some_ne_none _
    · intro hnone
      have hrep := ht'.checksum.resolve_right fun h => h.2 hnone
      rw [htake] at hrep
      have hdigest := hrep.finalize
      rw [MD5.digest_of_valid (MD5.finalize_valid _)] at hdigest
      injection hdigest
  next hend =>
    exact ⟨channel, t', _, _, rfl, hc', ht', .inl ⟨fun h => hend ((isEnd_iff ht').mpr h), rfl, rfl⟩⟩

theorem Sound.work {s : Server κ} (h : s.Sound files paths) {t : Task}
    (ht : t.Sound files paths s.mMD5Cache) (client : κ) (now : ℤ) :
    (s.work client t now).1.Sound files paths := by
  obtain heq | ⟨channel, t', cache, complete, heq, hc, ht', hworked⟩ :=
    work_rule client now
      (J := fun channel _ => channel.Carries fun _ task => Says files paths task.data)
      (fun channel t k checksum ht hc _ _ hk => hc.send (ht.block_says client hk) _ _)
      (fun _ _ _ hc => hc) h.channel ht
  · rw [heq]
    exact h
  · rw [heq]
    obtain ⟨-, rfl, -⟩ | ⟨-, -, digest, rfl, hdigest⟩ := hworked
    · exact h.store hc ht' client
    · exact (h.insertDigest fun hnone => ⟨_, ht'.content, hdigest hnone⟩).store hc ht' client

theorem Sound.visit {s : Server κ} (h : s.Sound files paths) (complete : List κ) (now : ℤ) (client : κ) :
    (Server.visit now (s, complete) client).1.Sound files paths := by
  unfold Server.visit
  split
  · exact h
  next task hlookup =>
    have hwork := h.work (h.tasks client task hlookup) client now
    split
    all_goals
      next heq =>
        simp only at heq
        rw [heq] at hwork
        first
          | exact hwork.report _
          | exact hwork

theorem Sound.worker {s : Server κ} (h : s.Sound files paths) (order : List κ) (now : ℤ) :
    (s.worker order now).Sound files paths :=
  worker_rule (K := Sound files paths) (fun _ complete client hs => Sound.visit hs complete now client)
    (fun _ client hs => hs.terminate client) h

/-! ### Callbacks and messages -/

/-- Changing what the schedule of a task looks like keeps it sound. -/
theorem Task.Sound.reschedule {t : Task} {cache : Data → Option Data} (h : t.Sound files paths cache)
    (packets : AList fun _ : ℕ => Packet) (window : ℕ) (average variance timeout : ℤ) :
    Task.Sound files paths cache { t with packets, window, average, variance, timeout } :=
  ⟨h.content, h.named, h.size, h.eof, h.position, h.aligned, h.checksum⟩

theorem Sound.onRetry {s : Server κ} (h : s.Sound files paths) (task : Channel.Task κ) :
    (s.onRetry task).Sound files paths := by
  unfold Server.onRetry
  split
  · exact h
  next t hlookup =>
    exact h.store h.channel ((h.tasks _ t hlookup).reschedule ..) _

theorem Sound.onTimeout {s : Server κ} (h : s.Sound files paths) (task : Channel.Task κ) :
    (s.onTimeout task).Sound files paths := (h.terminate _).report _

theorem text_nulFree : (0 : UInt8) ∉ text "File does not exist" ∧
    (0 : UInt8) ∉ text "Checksum mismatch" := by
  decide +kernel

theorem fileDoesNotExist_nulFree {path : Data} (h : 0 ∉ path) :
    (fileDoesNotExist path).NulFree := by
  simp [fileDoesNotExist, Protocol.NulFree, Protocol.strings, h, text_nulFree.1]

theorem Sound.onQuery {s : Server κ} (h : s.Sound files paths) (client : κ) {path : Data}
    (hp : Named paths path) : (s.onQuery files client path).Sound files paths := by
  unfold Server.onQuery
  split
  · exact ⟨h.tasks, h.cache,
      h.channel.send (says_serialize (fileDoesNotExist_nulFree hp.1) hp.2 trivial) _ _⟩
  next data hdata =>
    have hsize := files.size_lt path data hdata
    refine h.reply (m := .size path (.ofNat data.length)) (hp.nulFree rfl) hp.2 ⟨data, hdata, ?_⟩ client
    rw [UInt64.toNat_ofNat', Nat.mod_eq_of_lt (by omega)]

theorem Task.new_sound {path data : Data} (hp : Named paths path)
    (hdata : files.content path = some data) (cache : Data → Option Data) (window : ℕ)
    (timeout : ℤ) :
    (Task.new path data.length (ifstream data) window timeout).Sound files paths cache where
  content := hdata
  named := hp
  size := rfl
  eof := rfl
  position := Nat.zero_le _
  aligned := .inl (Nat.dvd_zero _)
  checksum := .inl MD5.represents_new

theorem Sound.onGet {s : Server κ} (h : s.Sound files paths) (client : κ) {path : Data}
    (hp : Named paths path) : (s.onGet files client path).Sound files paths := by
  unfold Server.onGet
  split
  · exact h.reply (fileDoesNotExist_nulFree hp.1) hp.2 trivial client
  next data hdata =>
    have hreply := h.reply (m := .start path)
      (hp.nulFree rfl) hp.2 trivial client
    simp only
    split
    · exact hreply
    · exact (hreply.store hreply.channel (Task.new_sound hp hdata _ _ _) client).report _

theorem Sound.onAcknowledge {s : Server κ} (h : s.Sound files paths) (client : κ) (block : ℕ)
    (now : ℤ) : (s.onAcknowledge client block now).Sound files paths := by
  unfold Server.onAcknowledge
  split
  · exact h
  next t hlookup =>
    split
    · exact h
    · exact h.store (h.channel.terminate _) ((h.tasks _ t hlookup).reschedule ..) client

theorem Sound.verdict {s : Server κ} (h : s.Sound files paths) (client : κ) {path : Data}
    (hp : Named paths path) (digest checksum : Data) :
    (s.verdict client path digest checksum).Sound files paths := by
  unfold Server.verdict
  split
  · exact h.reply (m := .confirm path)
      (hp.nulFree rfl) hp.2 trivial client
  · refine h.reply (m := .error path (text "Checksum mismatch")) ?_ hp.2 trivial client
    simp [Protocol.NulFree, Protocol.strings, hp.1, text_nulFree.2]

/-- The digest that `onChecksum` computes is the standard's. -/
theorem computeStream_eq (data : Data) :
    (MD5.new.computeStream (ifstream data) >>= MD5.digest) = .ok (md5 data) := by
  obtain ⟨md, hcompute, hdigest⟩ := MD5.computeStream_digest .new (by decide) data
  rw [hcompute]
  exact hdigest

theorem Sound.onChecksum {s : Server κ} (h : s.Sound files paths) (client : κ) {path : Data}
    (hp : Named paths path) (checksum : Data) :
    (s.onChecksum files client path checksum).Sound files paths := by
  have hterminate := h.terminate client
  unfold Server.onChecksum
  simp only
  split
  · exact hterminate.verdict client hp _ _
  · split
    · exact hterminate.reply (fileDoesNotExist_nulFree hp.1) hp.2 trivial client
    next data hdata =>
      rw [computeStream_eq]
      exact (hterminate.insertDigest fun _ => ⟨data, hdata, rfl⟩).verdict client hp _ _

theorem Sound.onReceive {s s' : Server κ} (h : s.Sound files paths) {client : κ} {data : Data} {now : ℤ}
    (hpath : ∀ m, Protocol.deserialize data = .ok m → m.path ∈ paths)
    (hs : s.onReceive files client data now = some s') : s'.Sound files paths := by
  have hnamed : ∀ m, Protocol.deserialize data = .ok m → Named paths m.path :=
    fun m hm => ⟨nulFree_of_deserialize hm _ m.path_mem_strings, hpath m hm⟩
  unfold Server.onReceive at hs
  split at hs
  next path hm =>
    cases hs
    exact h.onQuery client (hnamed _ hm)
  next path hm =>
    cases hs
    exact h.onGet client (hnamed _ hm)
  next path block hm =>
    cases hs
    exact h.onAcknowledge client _ now
  next path checksum hm =>
    cases hs
    exact h.onChecksum client (hnamed _ hm) checksum
  · cases hs
    exact h
  · cases hs
    exact h.report _
  · cases hs

theorem sound_new (timeout : ℤ) (retries : ℕ) : (new timeout retries : Server κ).Sound files paths where
  tasks client t hlookup := by simp [new] at hlookup
  cache path digest hcache := by simp [new] at hcache
  channel := Channel.carries_new

end Server

end Course.Rdt
