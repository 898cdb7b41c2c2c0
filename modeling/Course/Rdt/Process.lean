import Course.Rdt.Download

/-! The servers that one process starts and stops one after the other.  The
worker's lambda `work` is a static local, so it keeps the `this` of the first
server, and the timer threads are detached, so they outlive their channel. -/

open Course.Lib

namespace Course.Rdt

variable {κ : Type} [DecidableEq κ] {files : Files}

/-- A timer thread of a channel that was destroyed, which still calls `sender`
`shots` times. -/
structure Stray where
  address : ℕ
  handle : ℕ
  shots : ℕ
  deriving DecidableEq

/-- `work` is what the static lambda captured, `mServer` the server there is, at
its address; `late` are callbacks that wait for the lock of a destroyed one. -/
structure Process (κ : Type) where
  work : Option ℕ
  mServer : Option (ℕ × Server.Running κ)
  strays : List Stray
  late : List (ℕ × ℕ × Channel.Callback κ)

/-- A pass of the worker of the server at `address`, whose `work` goes by `this`:
any but its own is the address of a destroyed server, which is read as soon as a
task has room in its window. -/
def Server.workerOf (this address : ℕ) (s : Server κ) (order : List κ) (now : ℤ) :
    Option (Server κ) :=
  if this = address then some (s.worker order now)
  else if order.all fun client =>
      (s.mTasks.lookup client).all fun t => t.window ≤ t.packets.entries.length
    then some s
  else none

namespace Process

inductive Event (κ : Type)
  | start (address : ℕ) (timeout : ℤ) (retries : ℕ)
  | stop
  | traffic (e : Server.Event κ)
  | stray (i : ℕ)
  | late (i : ℕ)
  deriving DecidableEq

def new : Process κ := ⟨none, none, [], []⟩

/-- The timers of a channel that were not cancelled. -/
def timers (address : ℕ) (c : Channel κ) : List Stray :=
  (List.range c.mHandle).filterMap fun handle =>
    (c.mTasks handle).bind fun detail =>
      if detail.shots = 0 then none else some ⟨address, handle, detail.shots⟩

/-- A server that is there is not started again.  The first worker initializes
`work` before its loop, and `stop` waits for it.  What a stray timer or callback
reaches is the server at its address. -/
def step (files : Files) (p : Process κ) : Event κ → Option (Process κ)
  | .start address timeout retries =>
    match p.mServer with
    | some _ => some p
    | none => some { p with
        work := some (p.work.getD address)
        mServer := some (address, ⟨.new timeout retries, []⟩) }
  | .stop =>
    match p.mServer with
    | none => some p
    | some (address, s) => some { p with
        mServer := none
        strays := p.strays ++ timers address s.server.mChannel
        late := p.late ++ s.pending.map fun callback => (address, callback) }
  | .traffic e =>
    match p.mServer with
    | none => some p
    | some (address, s) =>
      match e with
      | .turn (.worker order now) =>
        if order.Perm s.server.mTasks.keys then
          (s.server.workerOf (p.work.getD address) address order now).map fun server =>
            { p with mServer := some (address, { s with server }) }
        else some p
      | e => (s.step files e).map fun s => { p with mServer := some (address, s) }
  | .stray i =>
    match p.strays[i]?, p.mServer with
    | none, _ => some p
    | some stray, some (address, s) =>
      if stray.address = address then
        let (mChannel, callback) := s.server.mChannel.sender stray.handle
        let pending := s.pending ++ (callback.map fun callback => (stray.handle, callback)).toList
        some { p with
          mServer := some (address, { server := { s.server with mChannel }, pending })
          strays := if stray.shots ≤ 1 then p.strays.eraseIdx i
            else p.strays.set i { stray with shots := stray.shots - 1 } }
      else none
    | some _, none => none
  | .late i =>
    match p.late[i]?, p.mServer with
    | none, _ => some p
    | some (stray, _, callback), some (address, s) =>
      if stray = address then
        some { p with
          mServer := some (address, { s with server := s.server.callback callback })
          late := p.late.eraseIdx i }
      else none
    | some _, none => none

def machine (files : Files) : Machine (Process κ) (Event κ) := ⟨step files⟩

/-- A server with what has happened to it since it was started. -/
structure Life (κ : Type) where
  timeout : ℤ
  retries : ℕ
  traffic : List (Server.Event κ)

/-- The life of the present server, from the events of the process. -/
def Life.next : Option (Life κ) → Event κ → Option (Life κ)
  | none, .start _ timeout retries => some ⟨timeout, retries, []⟩
  | some _, .stop => none
  | some life, .traffic e => some { life with traffic := life.traffic ++ [e] }
  | life, _ => life

/-- The server that is the only one its process ever created. -/
def Life.state (files : Files) (life : Life κ) : Option (Server.Running κ) :=
  (Server.machine files).exec ⟨.new life.timeout life.retries, []⟩ life.traffic

/-- The present server has been, and goes on, as if it were the only one. -/
def Alone (files : Files) (p : Process κ) (es : List (Event κ)) : Prop :=
  p.mServer.map Prod.snd = (es.foldl Life.next none).bind (Life.state files) ∧
    ∀ address s e, p.mServer = some (address, s) →
      (p.step files (.traffic e)).map mServer =
        (s.step files e).map fun s' => some (address, s')

/-- A server is created where the first one was, with no timer or callback of an
earlier one left. -/
def Clean (p : Process κ) : Event κ → Prop
  | .start address .. => p.mServer.isSome ∨
    (p.work = none ∨ p.work = some address) ∧ p.strays = [] ∧ p.late = []
  | _ => True

/-- The present server is its worker's `this`, nothing is left of earlier ones, and
its life tells its state. -/
def Single (files : Files) (p : Process κ) : Option (Life κ) → Prop
  | none => p.mServer = none
  | some life => ∃ address s, p.mServer = some (address, s) ∧ p.work = some address ∧
      p.strays = [] ∧ p.late = [] ∧ life.state files = some s

theorem Life.state_next {life : Life κ} {s : Server.Running κ} (h : life.state files = some s)
    (e : Server.Event κ) :
    ({ life with traffic := life.traffic ++ [e] } : Life κ).state files = s.step files e := by
  have h' : (Server.machine files).exec ⟨.new life.timeout life.retries, []⟩ life.traffic = some s := h
  rw [Life.state, Machine.exec_concat, h']
  rfl

/-- With its own `this`, the worker does what the server's own does. -/
theorem step_traffic {p : Process κ} {address : ℕ} {s : Server.Running κ}
    (hserver : p.mServer = some (address, s)) (hwork : p.work = some address)
    (e : Server.Event κ) :
    p.step files (.traffic e) =
      (s.step files e).map fun s' => { p with mServer := some (address, s') } := by
  rw [step, hserver]
  cases e with
  | receive client data now => rfl
  | turn turn =>
    cases turn with
    | worker order now =>
      simp only [hwork, Option.getD_some, Server.workerOf, if_true, Option.map_some,
        Server.Running.step, Server.Running.turn]
      split
      · rfl
      · rw [← hserver, ← hwork]
    | timer handle => rfl
    | callback i => rfl

theorem Single.step {p q : Process κ} {life : Option (Life κ)} {e : Event κ}
    (h : p.Single files life) (he : p.Clean e) (hstep : p.step files e = some q) :
    q.Single files (Life.next life e) := by
  cases life with
  | none =>
    have hserver : p.mServer = none := h
    cases e with
    | start address timeout retries =>
      obtain hsome | ⟨hwork, hstrays, hlate⟩ := he
      · rw [hserver] at hsome
        cases hsome
      · rw [Process.step, hserver] at hstep
        cases hstep
        refine ⟨address, _, rfl, ?_, hstrays, hlate, rfl⟩
        rcases hwork with hwork | hwork
        · simp only [hwork, Option.getD_none]
        · simp only [hwork, Option.getD_some]
    | stop =>
      rw [Process.step, hserver] at hstep
      cases hstep
      exact hserver
    | traffic e =>
      rw [Process.step, hserver] at hstep
      cases hstep
      exact hserver
    | stray i =>
      rw [Process.step, hserver] at hstep
      cases hleft : p.strays[i]? with
      | none =>
        rw [hleft] at hstep
        cases hstep
        exact hserver
      | some _ =>
        rw [hleft] at hstep
        cases hstep
    | late i =>
      rw [Process.step, hserver] at hstep
      cases hleft : p.late[i]? with
      | none =>
        rw [hleft] at hstep
        cases hstep
        exact hserver
      | some _ =>
        rw [hleft] at hstep
        cases hstep
  | some life =>
    obtain ⟨address, s, hserver, hwork, hstrays, hlate, hstate⟩ := h
    have hsame : p.Single files (some life) :=
      ⟨address, s, hserver, hwork, hstrays, hlate, hstate⟩
    cases e with
    | start address' timeout retries =>
      rw [Process.step, hserver] at hstep
      cases hstep
      exact hsame
    | stop =>
      rw [Process.step, hserver] at hstep
      cases hstep
      rfl
    | traffic e =>
      rw [step_traffic hserver hwork] at hstep
      obtain ⟨s', hs', rfl⟩ := Option.map_eq_some_iff.mp hstep
      exact ⟨address, s', rfl, hwork, hstrays, hlate, (Life.state_next hstate e).trans hs'⟩
    | stray i =>
      rw [Process.step, hstrays] at hstep
      cases hstep
      exact hsame
    | late i =>
      rw [Process.step, hlate] at hstep
      cases hstep
      exact hsame

/-- A server created where the first one was, with nothing left of earlier ones,
is as if it were the only one. -/
theorem run_alone (files : Files) (es : List (Event κ)) (p : Process κ)
    (hrun : Machine.Run (machine files) Clean new es p) : p.Alone files es := by
  have hsingle : p.Single files (es.foldl Life.next none) :=
    hrun.simulates (R := Single files) (fun _ _ _ _ hs he hstep => hs.step he hstep) rfl
  unfold Alone
  cases hlife : es.foldl Life.next none with
  | none =>
    rw [hlife] at hsingle
    have hserver : p.mServer = none := hsingle
    rw [hserver]
    exact ⟨rfl, fun _ _ _ h => by cases h⟩
  | some life =>
    rw [hlife] at hsingle
    obtain ⟨address, s, hserver, hwork, -, -, hstate⟩ := hsingle
    rw [hserver]
    refine ⟨hstate.symm, fun address' s' e h => ?_⟩
    cases h
    rw [step_traffic hserver hwork, Option.map_map]
    rfl

instance decidableClean (p : Process κ) : DecidablePred p.Clean
  | .start .. => inferInstanceAs (Decidable (_ ∨ _))
  | .stop | .traffic _ | .stray _ | .late _ => isTrue trivial

/-- A server is stopped at once, and the next one serves file `A`. -/
def restartA (address : ℕ) : List (Event ℕ) :=
  [.start 0 1000 5, .stop, .start address 1000 5,
    .traffic (.receive 1 (Protocol.get System.fileA.1).serialize 0)]

theorem run_alone_restart :
    ∃ p : Process ℕ, (machine System.twoFiles).exec new (restartA 0) = some p ∧
      p.mServer.isSome ∧ p.Alone System.twoFiles (restartA 0) := by
  let p := ((machine System.twoFiles).execWhile Clean new (restartA 0)).get (by decide +kernel)
  have hrun : Machine.Run (machine System.twoFiles) Clean new (restartA 0) p :=
    Machine.run_iff_execWhile.mpr (Option.some_get _).symm
  exact ⟨p, Machine.run_iff_exec.mp (hrun.mono fun _ _ _ => trivial), by decide +kernel,
    run_alone System.twoFiles (restartA 0) p hrun⟩

/-- At another address, the worker of the second server goes by the `this` of
the first. -/
theorem exec_not_alone :
    ¬∀ (files : Files) (es : List (Event ℕ)) (p : Process ℕ),
      (machine files).exec new es = some p → p.Alone files es := by
  intro h
  let p := ((machine System.twoFiles).exec new (restartA 1)).get (by decide +kernel)
  let server := p.mServer.get (by decide +kernel)
  have hserver : p.mServer = some server := (Option.some_get _).symm
  have halone := (h System.twoFiles (restartA 1) p (Option.some_get _).symm).2 server.1 server.2
    (.turn (.worker [1] 0)) hserver
  have hnone : p.step System.twoFiles (.traffic (.turn (.worker [1] 0))) = none := by
    rw [← Option.not_isSome_iff_eq_none]
    decide +kernel
  rw [hnone] at halone
  cases halone

end Process

end Course.Rdt
