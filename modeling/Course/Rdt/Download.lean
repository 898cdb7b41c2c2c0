import Course.Rdt.System

/-! What the client has written: always a prefix of the one file it downloads,
and the whole file at the end; with several files, as long as it takes messages
about the file it is downloading. -/

open Course.Lib

namespace Course.Rdt

variable {κ : Type} [DecidableEq κ] {files : Files} {started : Prop}

namespace Server

end Server

namespace System

variable {host home : κ}

/-- Messages about one path only: whatever is taken is about the file. -/
theorem Sound.onPath {s : System κ} {path : Data} (h : s.Sound files {path} started) :
    s.client.client.OnPath := by
  intro m hm
  have hstate : s.client.client.mState ≠ .idle := by
    intro hidle
    rw [Client.taken, hidle] at hm
    cases hm
  have hfile : s.client.client.mFile = path := (h.client.named hstate).2
  have hmem : m ∈ s.client.client.mProtocols := by
    rw [Client.taken] at hm
    split at hm
    · exact Client.mem_of_mem_awaited (List.mem_of_head? (Option.filter_eq_some_iff.mp hm).1)
    · exact Client.mem_of_mem_awaited (List.mem_of_head? (Option.filter_eq_some_iff.mp hm).1)
    · cases hm
  rw [hfile]
  exact (h.client.queue m hmem).1

/-- Only `path` is downloaded. -/
def Event.Of (path : Path) : Event κ → Prop
  | .download file _ => file = path
  | _ => True

theorem Sound.step_of {s t : System κ} {path : Path} {e : Event κ}
    (h : s.Sound files {path.1} started) (he : e.Of path)
    (hstep : s.step files host home e = some t) :
    t.Sound files {path.1} (started ∨ s.Starts e) := by
  refine h.step ?_ hstep
  cases e with
  | download file destination => exact congrArg Subtype.val he
  | client turn =>
    cases turn with
    | dispatch opened => exact h.onPath
    | timer handle => trivial
    | callback i lost => trivial
  | _ => trivial

/-- The client's `start` has taken its message in some turn of the run. -/
def Started (files : Files) (host home : κ) (s : System κ) (es : List (Event κ)) : Prop :=
  (machine files host home).Occurs Starts s es

theorem sound_run_of {s t : System κ} {path : Path} {es : List (Event κ)}
    (hrun : Machine.Run (machine files host home) (fun _ e => e.Of path) s es t)
    (h : s.Sound files {path.1} False) : t.Sound files {path.1} (Started files host home s es) := by
  have hsound := hrun.invariant_occurs (I := fun started => Sound files {path.1} started)
    (fun _ _ _ _ hs he hstep => hs.step_of he hstep) h
  rwa [false_or] at hsound

def fileA : Path := ⟨[65], by decide⟩

def fileB : Path := ⟨[66], by decide⟩

def twoFiles : Files where
  content path := if path = fileA.1 then some [1] else if path = fileB.1 then some [2] else none
  size_lt path data h := by
    split at h
    · cases h
      decide
    · split at h
      · cases h
        decide
      · cases h

def leftover : Client.Uninitialized := ⟨3, 5, 7, 9⟩

/-- The client at address 1 asks the server at address 0 for the file, up to
its acknowledgement of the only block. -/
def downloadA : List (Event ℕ) :=
  [.download fileA [], .client (.dispatch true), .toServer 0 0, .toClient 0 false,
    .client (.dispatch true), .client (.dispatch true), .toServer 1 0, .toClient 1 false,
    .client (.dispatch true), .server (.worker [1] 0), .toClient 2 false, .client (.dispatch true),
    .client (.dispatch true)]

/-- The checksum is sent and confirmed. -/
def confirmA : List (Event ℕ) :=
  [.client (.dispatch true), .toServer 3 0, .toClient 3 false, .client (.dispatch true)]

instance Event.decidableOf (path : Path) : DecidablePred (Event.Of (κ := κ) path)
  | .download file _ => inferInstanceAs (Decidable (file = path))
  | .toServer .. | .toClient .. | .server _ | .client _ => isTrue trivial

instance decidableStarts (s : System κ) : DecidablePred s.Starts
  | .client (.dispatch _) => inferInstanceAs (Decidable (_ = _ ∧ _ = _))
  | .client (.timer _) | .client (.callback ..) | .download .. | .toServer .. | .toClient ..
  | .server _ => isFalse id

/-- A turn of `dispatch` takes a message about the file it is downloading. -/
def TakesOnPath (s : System κ) : Event κ → Prop
  | .client (.dispatch _) => s.client.client.OnPath
  | _ => True

/-- Whenever the download of a file is finished, the destination holds the
content of that file, in a run whose client takes no size and no block of
another file. -/
theorem run_finished (files : Files) (host home : κ) (memory : Client.Uninitialized)
    (serverTimeout : ℤ) (serverRetries : ℕ) (clientTimeout : ℤ) (clientRetries : ℕ)
    (es : List (Event κ)) (s : System κ)
    (hrun : Machine.Run (machine files host home) TakesOnPath
      (new memory serverTimeout serverRetries clientTimeout clientRetries host) es s)
    (file : Data) (size : ℕ) (written : Data)
    (hfinish : .finish file size written ∈ s.client.client.log) :
    files.content file = some written := by
  have hadmissible : Machine.Run (machine files host home) (Admissible Set.univ)
      (new memory serverTimeout serverRetries clientTimeout clientRetries host) es s := by
    refine hrun.mono fun s e he => ?_
    cases e with
    | client turn =>
      cases turn with
      | dispatch opened => exact he
      | timer handle => trivial
      | callback i lost => trivial
    | _ => trivial
  exact (Sound.run hadmissible (sound_new _ _ _ _ _ _)).client.finished file size written hfinish

end System

instance Client.decidableOnPath (c : Client κ) : Decidable c.OnPath :=
  match h : c.taken with
  | none => isTrue fun m hm => by rw [h] at hm; cases hm
  | some m => decidable_of_iff (m.path = c.mFile)
      ⟨fun hp m' hm' => by rw [h] at hm'; cases hm'; exact hp, fun hp => hp m h⟩

namespace System

instance decidableTakesOnPath (s : System κ) : DecidablePred s.TakesOnPath
  | .client (.dispatch _) => inferInstanceAs (Decidable s.client.client.OnPath)
  | .client (.timer _) | .client (.callback ..) | .download .. | .toServer .. | .toClient ..
  | .server _ => isTrue trivial

theorem run_finished_oneBlock :
    ∃ s : System ℕ,
      (machine twoFiles 0 1).exec (new leftover 1000 5 1000 5 0) (downloadA ++ confirmA) = some s ∧
      .finish fileA.1 1 [1] ∈ s.client.client.log ∧ twoFiles.content fileA.1 = some [1] := by
  let s := ((machine twoFiles 0 1).execWhile TakesOnPath (new leftover 1000 5 1000 5 0)
    (downloadA ++ confirmA)).get (by decide +kernel)
  have hrun : Machine.Run (machine twoFiles 0 1) TakesOnPath (new leftover 1000 5 1000 5 0)
      (downloadA ++ confirmA) s := Machine.run_iff_execWhile.mpr (Option.some_get _).symm
  have hfinish : .finish fileA.1 1 [1] ∈ s.client.client.log := by decide +kernel
  exact ⟨s, Machine.run_iff_exec.mp (hrun.mono fun _ _ _ => trivial), hfinish,
    run_finished twoFiles 0 1 leftover 1000 5 1000 5 _ s hrun fileA.1 1 [1] hfinish⟩

/-- The second download takes the block and the confirmation of the first. -/
def downloadBLate : List (Event ℕ) :=
  [.download fileB [], .client (.dispatch true), .toServer 4 0, .toClient 4 false,
    .client (.dispatch true), .client (.dispatch true), .toServer 5 0, .toClient 5 false,
    .client (.dispatch true), .toClient 2 false, .client (.dispatch true), .client (.dispatch true),
    .client (.dispatch true), .toClient 3 false, .client (.dispatch true)]

/-- It ends with the byte of the first file in the destination of the second. -/
theorem exec_finished_other :
    ¬∀ (files : Files) (host home : ℕ) (memory : Client.Uninitialized) (serverTimeout : ℤ)
      (serverRetries : ℕ) (clientTimeout : ℤ) (clientRetries : ℕ) (es : List (Event ℕ))
      (s : System ℕ),
      (machine files host home).exec
        (new memory serverTimeout serverRetries clientTimeout clientRetries host) es = some s →
      ∀ file size written, .finish file size written ∈ s.client.client.log →
        files.content file = some written := by
  intro h
  let s := ((machine twoFiles 0 1).exec (new leftover 1000 5 1000 5 0)
    (downloadA ++ confirmA ++ downloadBLate)).get (by decide +kernel)
  have hfinish : .finish fileB.1 1 [1] ∈ s.client.client.log := by decide +kernel
  have hcontent :=
    h twoFiles 0 1 leftover 1000 5 1000 5 _ s (Option.some_get _).symm fileB.1 1 [1] hfinish
  exact absurd hcontent (by decide)

end System

end Course.Rdt
