import Course.Lib.Machine
import Course.Rdt.Channel

/-! The frames and the callbacks of one task of a channel, for every order in
which its timer, its own `send` and `terminate` take the channel's lock. -/

open Course.Lib

namespace Course.Rdt.Channel

variable {κ : Type}

/-- What a task does. -/
inductive Act (κ : Type)
  | frame (tries : ℕ) (task : Task κ)
  | retry (task : Task κ)
  | timeout (task : Task κ)
  deriving DecidableEq

def Callback.act : Callback κ → Act κ
  | .retry task => .retry task
  | .timeout task => .timeout task

/-- A channel with what its tasks did, each by its handle.  `first` tells for
which tasks `send` has not yet called `sender` itself. -/
structure Transmission (κ : Type) where
  channel : Channel κ
  first : ℕ → Bool
  acts : List (ℕ × Act κ)

namespace Transmission

inductive Event (κ : Type)
  | insert (task : Task κ) (timeout : ℤ) (retries : ℕ)
  | first (handle : ℕ)
  | timer (handle : ℕ)
  | terminate (handle : ℕ)
  deriving DecidableEq

def new : Transmission κ := ⟨.new, fun _ => false, []⟩

/-- The acts of a call of `sender`: the frames it adds, then its callback. -/
def record (s : Transmission κ) (handle : ℕ) (result : Channel κ × Option (Callback κ)) :
    Transmission κ where
  channel := result.1
  first := s.first
  acts := s.acts ++
    (result.1.sent.drop s.channel.sent.length).map (fun f => (f.handle, .frame f.tries f.task)) ++
    result.2.toList.map fun callback => (handle, callback.act)

def step (s : Transmission κ) : Event κ → Option (Transmission κ)
  | .insert task timeout retries =>
    some { s with
      channel := s.channel.insert task timeout retries
      first := Function.update s.first s.channel.mHandle true }
  | .first handle =>
    some (if s.first handle then
      { s with first := Function.update s.first handle false }.record handle (s.channel.sender handle)
    else s)
  | .timer handle => some (s.record handle (s.channel.timer handle))
  | .terminate handle => some { s with channel := s.channel.terminate handle }

def machine : Machine (Transmission κ) (Event κ) := ⟨step⟩

/-- What the task of a handle did. -/
def actsOf (s : Transmission κ) (handle : ℕ) : List (Act κ) :=
  (s.acts.filter (·.1 = handle)).map (·.2)

/-- The acts of the first `n` calls of `sender` for a task. -/
def script (task : Task κ) (retries : ℕ) : ℕ → List (Act κ)
  | 0 => []
  | n + 1 => script task retries n ++
    if n ≤ retries then .frame n task :: if n ≠ 0 then [.retry task] else []
    else if retries ≠ 0 then [.timeout task] else []

/-- A frame for every try but the first with a callback, and a timeout at the
end where there was a retry. -/
def wholeScript (task : Task κ) (retries : ℕ) : List (Act κ) :=
  .frame 0 task :: (List.range retries).flatMap (fun k => [.frame (k + 1) task, .retry task]) ++
    if retries ≠ 0 then [.timeout task] else []

theorem script_succ_of_le (task : Task κ) {retries n : ℕ} (h : n ≤ retries) :
    script task retries (n + 1) =
      .frame 0 task :: (List.range n).flatMap fun k => [.frame (k + 1) task, .retry task] := by
  induction n with
  | zero => rfl
  | succ n ih =>
    rw [script, ih (by omega), if_pos h, if_pos (Nat.succ_ne_zero n), List.range_succ]
    simp

/-- The last call finds the retries used up. -/
theorem script_whole (task : Task κ) (retries : ℕ) :
    script task retries (retries + 2) = wholeScript task retries := by
  rw [script, script_succ_of_le task (Nat.le_refl retries), if_neg (by omega), wholeScript]

theorem actsOf_record (s : Transmission κ) (handle : ℕ) (result : Channel κ × Option (Callback κ))
    (frames : List (Frame κ)) (hsent : result.1.sent = s.channel.sent ++ frames)
    (hframes : ∀ f ∈ frames, f.handle = handle) (h : ℕ) :
    (s.record handle result).actsOf h =
      if h = handle then
        s.actsOf h ++ frames.map (fun f => .frame f.tries f.task) ++ result.2.toList.map Callback.act
      else s.actsOf h := by
  have hall : ∀ (p : ℕ × Act κ), p ∈ frames.map (fun f => (f.handle, Act.frame f.tries f.task)) ++
      result.2.toList.map (fun callback => (handle, callback.act)) → p.1 = handle := by
    intro p hp
    rcases List.mem_append.mp hp with hp | hp
    · obtain ⟨f, hf, rfl⟩ := List.mem_map.mp hp
      exact hframes f hf
    · obtain ⟨callback, -, rfl⟩ := List.mem_map.mp hp
      rfl
  simp only [actsOf, record, hsent, List.drop_left, List.append_assoc, List.filter_append,
    List.map_append]
  rw [← List.map_append, ← List.filter_append]
  split
  next heq =>
    rw [List.filter_eq_self.mpr fun p hp => decide_eq_true ((hall p hp).trans heq.symm),
      List.map_append, List.map_map, List.map_map]
    rfl
  next hne =>
    rw [List.filter_eq_nil_iff.mpr fun p (hp : p ∈ List.map _ frames ++ _) => by
      simpa [hall p hp] using Ne.symm hne]
    simp

/-- One call of `sender` adds the next acts of the script. -/
theorem actsOf_sender {s : Transmission κ} {c : Channel κ} (hsent : c.sent = s.channel.sent)
    {handle n : ℕ} {detail : TaskDetail κ} (hdetail : c.mTasks handle = some detail)
    (htries : detail.tries = min n (detail.retries + 1)) (hn : n ≤ detail.retries + 1)
    (hacts : s.actsOf handle = script detail.task detail.retries n) :
    (c.sender handle).1.mTasks = Function.update c.mTasks handle
        (some { detail with tries := min (n + 1) (detail.retries + 1) }) ∧
      (s.record handle (c.sender handle)).actsOf handle =
        script detail.task detail.retries (n + 1) ∧
      ∀ h, h ≠ handle → (s.record handle (c.sender handle)).actsOf h = s.actsOf h := by
  rcases sender_cases hdetail with ⟨hlt, heq⟩ | ⟨hle, heq⟩
  · have hlast : ¬n ≤ detail.retries := by omega
    have hacts' := actsOf_record s handle (c.sender handle) []
      (by rw [heq, hsent, List.append_nil]) fun f hf => absurd hf List.not_mem_nil
    refine ⟨?_, ?_, fun h hne => (hacts' h).trans (if_neg hne)⟩
    · rw [heq]
      refine (Function.update_eq_self_iff.mpr ?_).symm
      rw [hdetail, ← show detail.tries = min (n + 1) (detail.retries + 1) by omega]
    · rw [hacts' handle, if_pos rfl, hacts, heq, script, if_neg hlast]
      split <;> simp [Callback.act]
  · have hn' : detail.tries = n := by omega
    have hle' : n ≤ detail.retries := hn' ▸ hle
    have hacts' := actsOf_record s handle (c.sender handle) [⟨handle, detail.tries, detail.task⟩]
      (by rw [heq, hsent]) fun f hf => congrArg Frame.handle (List.mem_singleton.mp hf)
    refine ⟨?_, ?_, fun h hne => (hacts' h).trans (if_neg hne)⟩
    · rw [heq, hn', Nat.min_eq_left (by omega)]
    · rw [hacts' handle, if_pos rfl, hacts, heq, script, hn', if_pos hle']
      split <;> simp [Callback.act]

/-- Every task that is not terminated has done what the calls of `sender` so far
make of it. -/
structure Scripted (s : Transmission κ) : Prop where
  fresh : ∀ h, s.channel.mHandle ≤ h → s.channel.mTasks h = none ∧ s.actsOf h = []
  live : ∀ h detail, s.channel.mTasks h = some detail → detail.shots ≤ detail.retries + 1 ∧
    ∃ n, n + detail.shots = detail.retries + 1 + (if s.first h then 0 else 1) ∧
      detail.tries = min n (detail.retries + 1) ∧
      s.actsOf h = script detail.task detail.retries n

theorem scripted_new : (new : Transmission κ).Scripted where
  fresh _ _ := ⟨rfl, rfl⟩
  live h detail hd := by cases hd

variable {s t : Transmission κ}

theorem Scripted.insert (h : s.Scripted) (task : Task κ) (timeout : ℤ) (retries : ℕ) :
    Scripted { s with
      channel := s.channel.insert task timeout retries
      first := Function.update s.first s.channel.mHandle true } where
  fresh h' hle := by
    have hle' : s.channel.mHandle + 1 ≤ h' := hle
    have hold := h.fresh h' (by omega)
    exact ⟨(Function.update_of_ne (by omega) ..).trans hold.1, hold.2⟩
  live h' detail hd := by
    have hd' : Function.update s.channel.mTasks s.channel.mHandle
      (some ⟨task, timeout, 0, retries, retries + 1⟩) h' = some detail := hd
    rcases eq_or_ne h' s.channel.mHandle with rfl | hne
    · rw [Function.update_self] at hd'
      cases hd'
      refine ⟨Nat.le_refl _, 0, ?_, by simp, (h.fresh _ (Nat.le_refl _)).2⟩
      simp
    · rw [Function.update_of_ne hne] at hd'
      obtain ⟨hshots, n, hn, htries, hacts⟩ := h.live h' detail hd'
      refine ⟨hshots, n, ?_, htries, hacts⟩
      simpa only [Function.update_of_ne hne] using hn

theorem Scripted.terminate (h : s.Scripted) (handle : ℕ) :
    Scripted { s with channel := s.channel.terminate handle } where
  fresh h' hle := by
    have hold := h.fresh h' hle
    refine ⟨?_, hold.2⟩
    change Function.update s.channel.mTasks handle none h' = none
    rcases eq_or_ne h' handle with rfl | hne
    · exact Function.update_self ..
    · rw [Function.update_of_ne hne]
      exact hold.1
  live h' detail hd := by
    rw [terminate_mTasks] at hd
    rcases eq_or_ne h' handle with rfl | hne
    · rw [Function.update_self] at hd
      cases hd
    · rw [Function.update_of_ne hne] at hd
      exact h.live h' detail hd

/-- A call of `sender` by a task that is there, of its `send` or its timer: `c`
and `first` are as they are just before the call. -/
theorem Scripted.call (h : s.Scripted) {handle : ℕ} {detail : TaskDetail κ}
    (hdetail : s.channel.mTasks handle = some detail) (before : TaskDetail κ) (c : Channel κ)
    (first : ℕ → Bool)
    (hsent : c.sent = s.channel.sent) (hhandle : c.mHandle = s.channel.mHandle)
    (hc : c.mTasks = Function.update s.channel.mTasks handle (some before))
    (htask : before.task = detail.task) (hretries : before.retries = detail.retries)
    (htries : before.tries = detail.tries) (hshots : before.shots ≤ detail.retries + 1)
    (hfirst : ∀ h, h ≠ handle → first h = s.first h)
    (hcount : before.shots + 1 + (if s.first handle then 0 else 1) =
      detail.shots + (if first handle then 0 else 1)) :
    Scripted ({ s with first }.record handle (c.sender handle)) := by
  obtain ⟨-, n, hn, hmin, hacts⟩ := h.live handle detail hdetail
  have hbefore : c.mTasks handle = some before := by rw [hc, Function.update_self]
  have hone : (if first handle then 0 else 1) ≤ 1 := by split <;> omega
  obtain ⟨htasks, hcall, hother⟩ := actsOf_sender (s := { s with first }) hsent hbefore
    (htries.trans (hretries ▸ hmin)) (by omega) (by rw [htask, hretries]; exact hacts)
  refine ⟨fun h' hle => ?_, fun h' d hd => ?_⟩
  · have hle' : s.channel.mHandle ≤ h' := by
      rw [← hhandle, ← sender_mHandle c handle]
      exact hle
    have hold := h.fresh h' hle'
    have hne : h' ≠ handle := by
      rintro rfl
      rw [hold.1] at hdetail
      cases hdetail
    refine ⟨?_, (hother h' hne).trans hold.2⟩
    change (c.sender handle).1.mTasks h' = none
    rw [htasks, Function.update_of_ne hne, hc, Function.update_of_ne hne]
    exact hold.1
  · have hd' : (c.sender handle).1.mTasks h' = some d := hd
    rw [htasks] at hd'
    rcases eq_or_ne h' handle with rfl | hne
    · rw [Function.update_self] at hd'
      cases hd'
      refine ⟨hretries ▸ hshots, n + 1, ?_, rfl, hcall⟩
      change n + 1 + before.shots = before.retries + 1 + if first h' then 0 else 1
      omega
    · rw [Function.update_of_ne hne, hc, Function.update_of_ne hne] at hd'
      obtain ⟨hshots', n', hn', htries', hacts'⟩ := h.live h' d hd'
      refine ⟨hshots', n', ?_, htries', (hother h' hne).trans hacts'⟩
      change n' + d.shots = d.retries + 1 + if first h' then 0 else 1
      rw [hfirst h' hne]
      exact hn'

/-- A call of `sender` for a task that was terminated does nothing. -/
theorem record_of_none (s : Transmission κ) (handle : ℕ) :
    s.record handle (s.channel, none) = s := by
  simp [record]

theorem Scripted.step {e : Event κ} (h : s.Scripted) (hstep : s.step e = some t) : t.Scripted := by
  cases e with
  | insert task timeout retries =>
    cases hstep
    exact h.insert task timeout retries
  | first handle =>
    cases hstep
    split
    next hfirst =>
      cases hdetail : s.channel.mTasks handle with
      | none =>
        have hnone : s.channel.sender handle = (s.channel, none) := by simp [sender, hdetail]
        rw [hnone, record_of_none { s with first := _ } handle]
        refine ⟨h.fresh, fun h' detail hd => ?_⟩
        have hne : h' ≠ handle := by
          rintro rfl
          rw [hdetail] at hd
          cases hd
        simp only [Function.update_of_ne hne]
        exact h.live h' detail hd
      | some detail =>
        apply h.call hdetail detail s.channel (Function.update s.first handle false) rfl rfl
          (Function.update_eq_self_iff.mpr hdetail.symm).symm rfl rfl rfl
        · exact (h.live handle detail hdetail).1
        · exact fun h' hne => Function.update_of_ne hne ..
        · simp [hfirst]
    next => exact h
  | timer handle =>
    cases hstep
    unfold timer
    split
    · rw [record_of_none]
      exact h
    next detail hdetail =>
      split
      · rw [record_of_none]
        exact h
      next hshots =>
        have hle := (h.live handle detail hdetail).1
        apply h.call hdetail { detail with shots := detail.shots - 1 }
          { s.channel with
            mTasks := Function.update s.channel.mTasks handle
              (some { detail with shots := detail.shots - 1 }) }
          s.first rfl rfl rfl rfl rfl rfl
        · simp only
          omega
        · exact fun _ _ => rfl
        · simp only
          omega
  | terminate handle =>
    cases hstep
    exact h.terminate handle

/-- A task that was terminated stays so and does nothing more. -/
theorem step_terminated {e : Event κ} {h : ℕ} (hlt : h < s.channel.mHandle)
    (hnone : s.channel.mTasks h = none) (hstep : s.step e = some t) :
    h < t.channel.mHandle ∧ t.channel.mTasks h = none ∧ t.actsOf h = s.actsOf h := by
  -- a call of `sender` is about its own handle, and does nothing for `h`
  have hcall : ∀ (handle : ℕ) (c : Channel κ) (first : ℕ → Bool), c.sent = s.channel.sent →
      c.mHandle = s.channel.mHandle → c.mTasks h = none →
      h < (c.sender handle).1.mHandle ∧ (c.sender handle).1.mTasks h = none ∧
        ({ s with first }.record handle (c.sender handle)).actsOf h = s.actsOf h := by
    intro handle c first hsent hhandle hc
    rw [sender_mHandle, hhandle]
    refine ⟨hlt, ?_⟩
    cases hdetail : c.mTasks handle with
    | none =>
      have heq : c.sender handle = (c, none) := by simp [sender, hdetail]
      have hacts := actsOf_record { s with first } handle (c.sender handle) []
        (by rw [heq, hsent, List.append_nil]) (fun f hf => absurd hf List.not_mem_nil) h
      rw [hacts, heq]
      refine ⟨hc, ?_⟩
      split
      · simp [actsOf]
      · rfl
    | some detail =>
      have hne : h ≠ handle := by
        rintro rfl
        rw [hc] at hdetail
        cases hdetail
      rcases sender_cases hdetail with ⟨-, heq⟩ | ⟨-, heq⟩
      · have hacts := actsOf_record { s with first } handle (c.sender handle) []
          (by rw [heq, hsent, List.append_nil]) (fun f hf => absurd hf List.not_mem_nil) h
        rw [hacts, if_neg hne, heq]
        exact ⟨hc, rfl⟩
      · have hacts := actsOf_record { s with first } handle (c.sender handle)
          [⟨handle, detail.tries, detail.task⟩] (by rw [heq, hsent])
          (fun f hf => congrArg Frame.handle (List.mem_singleton.mp hf)) h
        rw [hacts, if_neg hne, heq]
        exact ⟨(Function.update_of_ne hne ..).trans hc, rfl⟩
  cases e with
  | insert task timeout retries =>
    cases hstep
    refine ⟨Nat.lt_succ_of_lt hlt, ?_, rfl⟩
    exact (Function.update_of_ne (Nat.ne_of_lt hlt) ..).trans hnone
  | first handle =>
    cases hstep
    split
    · exact hcall handle s.channel _ rfl rfl hnone
    · exact ⟨hlt, hnone, rfl⟩
  | timer handle =>
    cases hstep
    unfold timer
    split
    · rw [record_of_none]
      exact ⟨hlt, hnone, rfl⟩
    next detail hdetail =>
      have hne : h ≠ handle := by
        rintro rfl
        rw [hnone] at hdetail
        cases hdetail
      split
      · rw [record_of_none]
        exact ⟨hlt, hnone, rfl⟩
      · exact hcall handle { s.channel with mTasks := Function.update s.channel.mTasks handle _ }
          s.first rfl rfl ((Function.update_of_ne hne ..).trans hnone)
  | terminate handle =>
    cases hstep
    refine ⟨hlt, ?_, rfl⟩
    change Function.update s.channel.mTasks handle none h = none
    rcases eq_or_ne h handle with rfl | hne
    · exact Function.update_self ..
    · rw [Function.update_of_ne hne]
      exact hnone

/-- A task that is not terminated and whose steps have all happened did the
whole script, whatever their order; one that was terminated does nothing more. -/
theorem run_retransmits (es : List (Event κ)) (s : Transmission κ)
    (hrun : Machine.Run machine (fun _ _ => True) new es s) :
    (∀ h detail, s.channel.mTasks h = some detail → s.first h = false → detail.shots = 0 →
      s.actsOf h = wholeScript detail.task detail.retries) ∧
    ∀ h, h < s.channel.mHandle → s.channel.mTasks h = none →
      ∀ es' t, Machine.Run machine (fun _ _ => True) s es' t → t.actsOf h = s.actsOf h := by
  have hscripted : s.Scripted :=
    hrun.invariant (I := Scripted) (fun _ _ _ hs _ hstep => hs.step hstep) scripted_new
  refine ⟨fun h detail hdetail hfirst hshots => ?_, fun h hlt hnone es' t hrun' => ?_⟩
  · obtain ⟨-, n, hn, -, hacts⟩ := hscripted.live h detail hdetail
    simp only [hfirst, Bool.false_eq_true, if_false, hshots, Nat.add_zero] at hn
    rw [hacts, hn, script_whole]
  · have hstays : h < t.channel.mHandle ∧ t.channel.mTasks h = none ∧ t.actsOf h = s.actsOf h :=
      hrun'.invariant
        (I := fun t => h < t.channel.mHandle ∧ t.channel.mTasks h = none ∧ t.actsOf h = s.actsOf h)
        (fun _ _ _ hs _ hstep =>
          have hnext := step_terminated hs.1 hs.2.1 hstep
          ⟨hnext.1, hnext.2.1, hnext.2.2.trans hs.2.2⟩) ⟨hlt, hnone, rfl⟩
    exact hstays.2.2

/-- The timer is ahead of `send`'s own call. -/
def lateFirst : List (Event ℕ) :=
  [.insert ⟨[7], 1⟩ 100 1, .timer 0, .first 0, .timer 0]

theorem run_retransmits_lateFirst :
    ∃ s : Transmission ℕ, machine.exec new lateFirst = some s ∧
      (∀ h detail, s.channel.mTasks h = some detail → s.first h = false → detail.shots = 0 →
        s.actsOf h = wholeScript detail.task detail.retries) ∧
      ∀ h, h < s.channel.mHandle → s.channel.mTasks h = none →
        ∀ es' t, Machine.Run machine (fun _ _ => True) s es' t → t.actsOf h = s.actsOf h := by
  let s := (machine.exec new lateFirst).get (by decide)
  have hrun : machine.exec new lateFirst = some s := (Option.some_get _).symm
  exact ⟨s, hrun, run_retransmits lateFirst s (Machine.run_iff_exec.mpr hrun)⟩

example : (machine.exec new lateFirst).map (·.actsOf 0) =
    some [.frame 0 ⟨[7], 1⟩, .frame 1 ⟨[7], 1⟩, .retry ⟨[7], 1⟩, .timeout ⟨[7], 1⟩] := by decide

end Transmission

end Course.Rdt.Channel
