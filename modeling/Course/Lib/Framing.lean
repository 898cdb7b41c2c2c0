import Mathlib.Data.List.Infix

/-! Frames cut out of a stream that comes in chunks. -/

namespace Course.Lib

variable {β : Type}

/-- Cuts the first frame off, or gives nothing. -/
structure Distiller (β : Type) where
  distill : List β → List β × List β
  shrinks : ∀ data, (distill data).1 ≠ [] → (distill data).2.length < data.length

namespace Distiller

variable (d : Distiller β)

/-- Until it gives nothing: the frames, and the data that is left. -/
def drain (data : List β) : List (List β) × List β :=
  if _h : (d.distill data).1 = [] then ([], (d.distill data).2)
  else
    let r := drain (d.distill data).2
    ((d.distill data).1 :: r.1, r.2)
termination_by data.length
decreasing_by exact d.shrinks data _h

/-- Every chunk is put behind the data, which is drained. -/
def feed : List β → List (List β) → List (List β) × List β
  | data, [] => ([], data)
  | data, chunk :: chunks =>
    let r := d.drain (data ++ chunk)
    let r' := feed r.2 chunks
    (r.1 ++ r'.1, r'.2)

/-- A frame is cut off whole, and no part of it before. -/
structure Distills (frame : List β) : Prop where
  ne_nil : frame ≠ []
  whole : ∀ rest, d.distill (frame ++ rest) = (frame, rest)
  part : ∀ data, data <+: frame → data ≠ frame → d.distill data = ([], data)

/-- What is left of the frames is the beginning of the first one. -/
structure Pending (frames : List (List β)) (data : List β) : Prop where
  isPrefix : data <+: frames.headD []
  ne : ∀ frame ∈ frames.head?, data ≠ frame

variable {d} {frames : List (List β)} {data rest : List β} {chunks : List (List β)}

theorem drain_cons {frame : List β} (h : d.Distills frame) (rest : List β) :
    d.drain (frame ++ rest) = (frame :: (d.drain rest).1, (d.drain rest).2) := by
  rw [drain, h.whole, dif_neg h.ne_nil]

theorem drain_nil (h : (d.distill data) = ([], data)) : d.drain data = ([], data) := by
  rw [drain, h, dif_pos rfl]

/-- A frame that arrives in parts is cut off with its last one. -/
theorem Distills.arrive {frame : List β} (h : d.Distills frame) (hframe : data ++ rest = frame)
    (n : ℕ) :
    rest.drop n = [] ∧ d.distill (data ++ rest.take n) = (frame, []) ∨
      rest.drop n ≠ [] ∧ d.distill (data ++ rest.take n) = ([], data ++ rest.take n) := by
  by_cases hdrop : rest.drop n = []
  · have htake : rest.take n = rest := List.take_of_length_le (List.drop_eq_nil_iff.mp hdrop)
    refine .inl ⟨hdrop, ?_⟩
    rw [htake, hframe]
    simpa using h.whole []
  · have hsplit : data ++ rest.take n ++ rest.drop n = frame := by
      rw [List.append_assoc, List.take_append_drop, hframe]
    refine .inr ⟨hdrop, h.part _ ⟨_, hsplit⟩ fun heq => hdrop ?_⟩
    rw [heq] at hsplit
    exact List.append_right_eq_self.mp hsplit

/-- Either the first frame is whole, or the data is a part of it. -/
theorem whole_or_part {frame : List β} (h : data ++ rest = frame ++ frames.flatten) :
    (∃ tail, data = frame ++ tail ∧ tail ++ rest = frames.flatten) ∨
      data <+: frame ∧ data ≠ frame ∧ data.length < frame.length := by
  by_cases hwhole : frame <+: data
  · obtain ⟨tail, rfl⟩ := hwhole
    rw [List.append_assoc, List.append_cancel_left_eq] at h
    exact .inl ⟨tail, rfl, h⟩
  · have hpart : data <+: frame := by
      rcases List.append_eq_append_iff.mp h with ⟨a, ha, -⟩ | ⟨c, hc, -⟩
      · exact ⟨a, ha.symm⟩
      · exact absurd ⟨c, hc.symm⟩ hwhole
    have hne : data ≠ frame := fun heq => hwhole (heq ▸ List.prefix_rfl)
    refine .inr ⟨hpart, hne, Nat.lt_of_le_of_ne hpart.length_le ?_⟩
    exact fun heq => hne (hpart.eq_of_length heq)

/-- Draining the beginning of a stream of frames gives the whole ones. -/
theorem drain_frames (hframes : ∀ frame ∈ frames, d.Distills frame)
    (hempty : d.distill [] = ([], [])) (h : data ++ rest = frames.flatten) :
    ∃ done todo, frames = done ++ todo ∧ d.drain data = (done, (d.drain data).2) ∧
      (d.drain data).2 ++ rest = todo.flatten ∧ Pending todo (d.drain data).2 := by
  induction frames generalizing data with
  | nil =>
    obtain ⟨rfl, rfl⟩ := List.append_eq_nil_iff.mp h
    rw [drain_nil hempty]
    exact ⟨[], [], rfl, rfl, rfl, List.prefix_rfl, fun _ h => absurd h (by simp)⟩
  | cons frame frames ih =>
    have hframe := hframes frame List.mem_cons_self
    rw [List.flatten_cons] at h
    rcases whole_or_part h with ⟨tail, rfl, htail⟩ | ⟨hpart, hne, -⟩
    · obtain ⟨done, todo, rfl, hdrain, hrest, hpending⟩ :=
        ih (fun f hf => hframes f (List.mem_cons_of_mem _ hf)) htail
      rw [drain_cons hframe]
      exact ⟨frame :: done, todo, rfl, by rw [hdrain], hrest, hpending⟩
    · rw [drain_nil (hframe.part data hpart hne)]
      refine ⟨[], frame :: frames, rfl, rfl, h, hpart, fun f hf => ?_⟩
      rw [Option.mem_some.mp hf] at hne
      exact hne

/-- Whatever the chunks are, the frames come out once each and in order. -/
theorem feed_frames (hframes : ∀ frame ∈ frames, d.Distills frame)
    (hempty : d.distill [] = ([], [])) (h : data ++ chunks.flatten ++ rest = frames.flatten)
    (hpending : Pending frames data) :
    ∃ done todo, frames = done ++ todo ∧ d.feed data chunks = (done, (d.feed data chunks).2) ∧
      (d.feed data chunks).2 ++ rest = todo.flatten ∧ Pending todo (d.feed data chunks).2 := by
  induction chunks generalizing data frames with
  | nil =>
    rw [List.flatten_nil, List.append_nil] at h
    exact ⟨[], frames, rfl, rfl, h, hpending⟩
  | cons chunk chunks ih =>
    rw [List.flatten_cons, ← List.append_assoc, List.append_assoc] at h
    obtain ⟨done, todo, rfl, hdrain, hleft, hpending'⟩ := drain_frames hframes hempty h
    rw [← List.append_assoc] at hleft
    obtain ⟨done', todo', rfl, hfeed, hrest, hpending''⟩ := ih
      (fun frame hframe => hframes frame (List.mem_append_right _ hframe)) hleft hpending'
    refine ⟨done ++ done', todo', (List.append_assoc ..).symm, ?_, hrest, hpending''⟩
    rw [feed, hdrain, hfeed]

theorem pending_nil (hframes : ∀ frame ∈ frames, d.Distills frame) : Pending frames [] where
  isPrefix := List.nil_prefix
  ne frame hframe := (hframes frame (List.mem_of_mem_head? hframe)).ne_nil.symm

/-- All of the frames and the beginning of another one: there is none. -/
theorem Pending.eq_nil (h : Pending frames data) (hdata : data = frames.flatten) :
    frames = [] ∧ data = [] := by
  cases frames with
  | nil => exact ⟨rfl, hdata⟩
  | cons frame frames =>
    have hpart : frame ++ frames.flatten <+: frame := by
      rw [← List.flatten_cons, ← hdata]
      exact h.isPrefix
    have hnil : frames.flatten = [] := by
      have hlen := hpart.length_le
      rw [List.length_append] at hlen
      exact List.length_eq_zero_iff.mp (by omega)
    rw [List.flatten_cons, hnil, List.append_nil] at hdata
    exact absurd hdata (h.ne frame rfl)

/-! ### One frame for each chunk -/

variable (d) in
/-- Every chunk is put behind the data, and one frame is cut off at most. -/
def once : List β → List (List β) → List (List β) × List β
  | data, [] => ([], data)
  | data, chunk :: chunks =>
    let r := d.distill (data ++ chunk)
    let r' := once r.2 chunks
    (if r.1.isEmpty then r'.1 else r.1 :: r'.1, r'.2)

/-- How many of the frames end in the first `n` elements of the stream. -/
def complete : List (List β) → ℕ → ℕ
  | [], _ => 0
  | frame :: frames, n =>
    if frame.length ≤ n then complete frames (n - frame.length) + 1 else 0

/-- Behind `n` elements of the stream, at no time more frames are still to end than there
are chunks to come. -/
def Paced (n : ℕ) (frames chunks : List (List β)) : Prop :=
  ∀ before after, chunks = before ++ after →
    frames.length ≤ complete frames (n + before.flatten.length) + after.length

theorem paced_chunks {n : ℕ} : Paced n frames chunks ↔
    frames.length ≤ complete frames n + chunks.length ∧
      ∀ chunk chunks', chunks = chunk :: chunks' → Paced (n + chunk.length) frames chunks' := by
  constructor
  · refine fun h => ⟨h [] chunks rfl, ?_⟩
    rintro chunk chunks' rfl before after rfl
    have hpaced := h (chunk :: before) after rfl
    rw [List.flatten_cons, List.length_append, ← Nat.add_assoc] at hpaced
    exact hpaced
  · rintro ⟨hfirst, hrest⟩ before after rfl
    cases before with
    | nil => exact hfirst
    | cons chunk before =>
      rw [List.flatten_cons, List.length_append, ← Nat.add_assoc]
      exact hrest chunk (before ++ after) rfl before after rfl

theorem paced_frames {n : ℕ} {frame : List β} (h : frame.length ≤ n) :
    Paced n (frame :: frames) chunks ↔ Paced (n - frame.length) frames chunks := by
  apply forall₂_congr
  intro before after
  apply imp_congr_right
  intro _
  rw [complete, if_pos (Nat.le_add_right_of_le h), List.length_cons, Nat.sub_add_comm h,
    Nat.add_right_comm, Nat.add_le_add_iff_right]

theorem complete_zero (hframes : ∀ frame ∈ frames, d.Distills frame) : complete frames 0 = 0 := by
  cases frames with
  | nil => rfl
  | cons frame frames =>
    have hne := (hframes frame List.mem_cons_self).ne_nil
    rw [complete, if_neg]
    exact fun hle => hne (List.length_eq_zero_iff.mp (Nat.le_zero.mp hle))

theorem once_cons_whole {frame chunk : List β} (h : d.Distills frame) {tail : List β}
    (hdata : data ++ chunk = frame ++ tail) :
    d.once data (chunk :: chunks) = (frame :: (d.once tail chunks).1, (d.once tail chunks).2) := by
  have hne : frame.isEmpty = false := by
    rw [List.isEmpty_eq_false_iff]
    exact h.ne_nil
  rw [once, hdata, h.whole, hne]
  rfl

theorem once_cons_part {chunk : List β} (h : d.distill (data ++ chunk) = ([], data ++ chunk)) :
    d.once data (chunk :: chunks) = d.once (data ++ chunk) chunks := by
  rw [once, h]
  rfl

/-- The frames come in order, and the rest of them is left. -/
theorem once_frames (hframes : ∀ frame ∈ frames, d.Distills frame)
    (hempty : d.distill [] = ([], [])) (h : data ++ chunks.flatten = frames.flatten) :
    ∃ done todo, frames = done ++ todo ∧ d.once data chunks = (done, todo.flatten) := by
  induction chunks generalizing data frames with
  | nil =>
    rw [List.flatten_nil, List.append_nil] at h
    exact ⟨[], frames, rfl, by rw [once, h]⟩
  | cons chunk chunks ih =>
    rw [List.flatten_cons, ← List.append_assoc] at h
    cases frames with
    | nil =>
      have hnil := (List.append_eq_nil_iff.mp h).1
      rw [once_cons_part (by rw [hnil, hempty])]
      exact ih hframes h
    | cons frame frames =>
      have hframe := hframes frame List.mem_cons_self
      rw [List.flatten_cons] at h
      rcases whole_or_part h with ⟨tail, htail, hrest⟩ | ⟨hpart, hne, -⟩
      · obtain ⟨done, todo, rfl, honce⟩ :=
          ih (fun f hf => hframes f (List.mem_cons_of_mem _ hf)) hrest
        rw [once_cons_whole hframe htail, honce]
        exact ⟨frame :: done, todo, rfl, rfl⟩
      · rw [once_cons_part (hframe.part _ hpart hne)]
        exact ih hframes h

/-- All frames come, if there are enough chunks after each of them. -/
theorem once_eq_iff (hframes : ∀ frame ∈ frames, d.Distills frame)
    (hempty : d.distill [] = ([], [])) (h : data ++ chunks.flatten = frames.flatten) :
    (d.once data chunks).1 = frames ↔ frames.length ≤ chunks.length ∧
      ∀ chunk chunks', chunks = chunk :: chunks' →
        Paced (data.length + chunk.length) frames chunks' := by
  induction chunks generalizing data frames with
  | nil =>
    have hnil : (d.once data []).1 = frames ↔ frames.length ≤ 0 := by
      rw [Nat.le_zero, List.length_eq_zero_iff]
      exact eq_comm
    rw [hnil]
    exact ⟨fun h => ⟨h, fun _ _ h => absurd h (by simp)⟩, And.left⟩
  | cons chunk chunks ih =>
    have hcons : (∀ c cs, chunk :: chunks = c :: cs → Paced (data.length + c.length) frames cs) ↔
        Paced (data ++ chunk).length frames chunks := by
      rw [List.length_append]
      refine ⟨fun h => h chunk chunks rfl, ?_⟩
      rintro hpaced c cs heq
      obtain ⟨rfl, rfl⟩ := List.cons.inj heq
      exact hpaced
    rw [hcons]
    cases frames with
    | nil =>
      obtain ⟨done, todo, hnil, honce⟩ := once_frames hframes hempty h
      have hdone : done = [] := (List.append_eq_nil_iff.mp hnil.symm).1
      rw [honce, hdone]
      exact ⟨fun _ => ⟨Nat.zero_le _, fun _ _ _ => Nat.zero_le _⟩, fun _ => rfl⟩
    | cons frame frames =>
      have hframe := hframes frame List.mem_cons_self
      rw [List.flatten_cons, ← List.append_assoc, List.flatten_cons] at h
      rcases whole_or_part h with ⟨tail, htail, hrest⟩ | ⟨hpart, hne, hlt⟩
      · have hlen : (data ++ chunk).length = frame.length + tail.length := by
          rw [htail, List.length_append]
        rw [once_cons_whole hframe htail, List.cons_inj_right,
          ih (fun f hf => hframes f (List.mem_cons_of_mem _ hf)) hrest, hlen,
          paced_frames (Nat.le_add_right ..), Nat.add_sub_cancel_left, paced_chunks,
          List.length_cons, List.length_cons, Nat.add_le_add_iff_right]
        grind
      · rw [once_cons_part (hframe.part _ hpart hne), ih hframes h, @paced_chunks _ _ chunks,
          complete, if_neg (Nat.not_le.mpr hlt), List.length_cons, List.length_cons]
        grind

theorem once_all_iff (hframes : ∀ frame ∈ frames, d.Distills frame)
    (hempty : d.distill [] = ([], [])) (h : chunks.flatten = frames.flatten) :
    (d.once [] chunks).1 = frames ↔ Paced 0 frames chunks := by
  rw [once_eq_iff hframes hempty h, paced_chunks, complete_zero hframes, Nat.zero_add]
  rfl

end Distiller

end Course.Lib
