import Course.Socket.Protocol

/-! Headers that a peer may choose: what `Protocol::distill` does with a length of any size. -/

open Course.Lib

namespace Course.Socket

namespace Protocol

/-- How far from the first byte the range ends that `distill` cuts out, if it cuts one out. -/
def rangeEnd (data : Data) : Option ℕ :=
  if data.length < 8 then none
  else match uint64.read data with
    | .error _ => none
    | .ok (size, _) =>
      if data.length < (sizeofSize + size).toNat then none else some (sizeofSize + size).toNat

theorem distill_eq (data : Data) : distill data =
    match rangeEnd data with
    | none => ([], data)
    | some k => (data.take k, data.drop k) := by
  rw [distill, rangeEnd]
  by_cases hlen : data.length < 8
  · rw [if_pos hlen, if_pos hlen]
  · rw [if_neg hlen, if_neg hlen]
    cases uint64.read data with
    | error e => rfl
    | ok p =>
      dsimp only
      split <;> rfl

/-- What `distill` promises: a frame is there in full and in front, the buffer stays as it is
without one, no iterator is behind its end, and `deserialize` takes the size of a frame. -/
structure Distilled (data : Data) : Prop where
  whole : (distill data).1 ≠ [] → ∃ size it, uint64.read data = .ok (size, it) ∧
    8 + size.toNat ≤ data.length ∧ (distill data).1 ++ (distill data).2 = data
  unchanged : (distill data).1 = [] → (distill data).2 = data
  inside : ∀ k, rangeEnd data = some k → k ≤ data.length
  accepted : (distill data).1 ≠ [] → ∃ it, readSize (distill data).1 = .ok it

variable {data it : Data} {size : UInt64}

theorem sizeofSize_add (size : UInt64) :
    (sizeofSize + size).toNat = (8 + size.toNat) % 2 ^ 64 := by
  rw [UInt64.toNat_add]
  rfl

theorem exists_header (h : 8 ≤ data.length) : ∃ size it, uint64.read data = .ok (size, it) := by
  have hread : ∀ e, uint64.read data ≠ .error e := by
    intro e he
    simp only [uint64, Codec.uint64, Codec.word, if_neg (Nat.not_lt.mpr h)] at he
    cases he
  cases hdata : uint64.read data with
  | error e => exact absurd hdata (hread e)
  | ok p => exact ⟨p.1, p.2, rfl⟩

theorem read_eq_error (h : data.length < 8) :
    uint64.read data = .error (.protocolError "Invalid data size") := by
  simp only [uint64, Codec.uint64, Codec.word, if_pos h]
  rfl

theorem eq_write_append (h : uint64.read data = .ok (size, it)) : data = uint64.write size ++ it :=
  Codec.uint64_sound _ data size it h

theorem rangeEnd_of_read (h : uint64.read data = .ok (size, it)) : rangeEnd data =
    if data.length < (sizeofSize + size).toNat then none else some (sizeofSize + size).toNat := by
  have hlen : ¬data.length < 8 := by
    rw [eq_write_append h, List.length_append, length_uint64_write]
    omega
  rw [rangeEnd, if_neg hlen, h]

theorem rangeEnd_le (data : Data) : ∀ k, rangeEnd data = some k → k ≤ data.length := by
  intro k hk
  rw [rangeEnd] at hk
  split at hk
  · cases hk
  · split at hk
    · cases hk
    · split at hk
      · cases hk
      · rename_i hlen
        exact Option.some.inj hk ▸ Nat.not_lt.mp hlen

/-- The frame is what its header says. -/
theorem readSize_take (h : uint64.read data = .ok (size, it)) (hsize : 8 + size.toNat < 2 ^ 64)
    (hlen : 8 + size.toNat ≤ data.length) :
    readSize (data.take (8 + size.toNat)) = .ok (it.take size.toNat) := by
  have htake : data.take (8 + size.toNat) = uint64.write size ++ it.take size.toNat := by
    rw [eq_write_append h, List.take_append, length_uint64_write, Nat.add_sub_cancel_left,
      List.take_of_length_le]
    rw [length_uint64_write]
    exact Nat.le_add_right ..
  have hframe : (sizeofSize + size).toNat = 8 + size.toNat := by
    rw [sizeofSize_add, Nat.mod_eq_of_lt hsize]
  have hlength : (data.take (8 + size.toNat)).length = 8 + size.toNat :=
    List.length_take_of_le hlen
  have hread : uint64.read (data.take (8 + size.toNat)) = .ok (size, it.take size.toNat) := by
    rw [htake, uint64_read]
  rw [readSize, hread]
  simp only [bind, Except.bind, hlength, hframe]
  rw [if_neg (not_not.mpr rfl)]
  rfl

theorem Distilled.of_nil (h : distill data = ([], data)) : Distilled data where
  whole hne := absurd (congrArg Prod.fst h) hne
  unchanged _ := congrArg Prod.snd h
  inside := rangeEnd_le data
  accepted hne := absurd (congrArg Prod.fst h) hne

theorem distilled_of_le (hsize : ∀ size it, uint64.read data = .ok (size, it) →
    size.toNat ≤ 2 ^ 64 - 8) : Distilled data := by
  by_cases hshort : data.length < 8
  · apply Distilled.of_nil
    rw [distill, if_pos hshort]
  obtain ⟨size, it, hread⟩ := exists_header (Nat.not_lt.mp hshort)
  have hle := hsize size it hread
  have hend := rangeEnd_of_read hread
  rw [sizeofSize_add] at hend
  by_cases hwrap : size.toNat = 2 ^ 64 - 8
  · apply Distilled.of_nil
    rw [hwrap, if_neg (by omega)] at hend
    rw [distill_eq, hend]
    rfl
  have hlt : 8 + size.toNat < 2 ^ 64 := by omega
  rw [Nat.mod_eq_of_lt hlt] at hend
  by_cases hlen : data.length < 8 + size.toNat
  · apply Distilled.of_nil
    rw [if_pos hlen] at hend
    rw [distill_eq, hend]
  · rw [if_neg hlen] at hend
    have hdistill : distill data = (data.take (8 + size.toNat), data.drop (8 + size.toNat)) := by
      rw [distill_eq, hend]
    have hlen := Nat.not_lt.mp hlen
    refine ⟨fun _ => ⟨size, it, hread, hlen, ?_⟩, fun hnil => ?_, rangeEnd_le data, fun _ => ?_⟩
    · rw [hdistill]
      exact List.take_append_drop ..
    · rw [hdistill] at hnil
      have hlength := congrArg List.length hnil
      rw [List.length_take_of_le hlen, List.length_nil] at hlength
      omega
    · rw [hdistill]
      exact ⟨_, readSize_take hread hlt hlen⟩

/-- A length for which the sum wraps around is taken for a frame shorter than a header. -/
theorem not_distilled (h : uint64.read data = .ok (size, it)) (hsize : 2 ^ 64 - 8 < size.toNat) :
    ¬Distilled data := by
  intro hd
  have hlen : 8 ≤ data.length := by
    rw [eq_write_append h, List.length_append, length_uint64_write]
    exact Nat.le_add_right ..
  obtain ⟨k, hk, hpos, hlt⟩ : ∃ k, (sizeofSize + size).toNat = k ∧ 0 < k ∧ k < 8 := by
    have hmax := size.toNat_lt
    refine ⟨_, sizeofSize_add size, ?_⟩
    omega
  have hend := rangeEnd_of_read h
  rw [hk, if_neg (by omega)] at hend
  have hdistill : distill data = (data.take k, data.drop k) := by
    rw [distill_eq, hend]
  have hframe : (distill data).1.length = k := by
    rw [hdistill]
    exact List.length_take_of_le (by omega)
  obtain ⟨it', hit'⟩ := hd.accepted fun hnil => by
    rw [hnil, List.length_nil] at hframe
    omega
  rw [readSize, read_eq_error (by omega)] at hit'
  cases hit'

/-- The sum of the header and what follows it wraps around from `2 ^ 64 - 8` on, and from the
next length on that is taken for a frame. -/
theorem distilled_iff (data : Data) : Distilled data ↔
    ∀ size it, uint64.read data = .ok (size, it) → size.toNat ≤ 2 ^ 64 - 8 := by
  refine ⟨fun h size it hread => ?_, distilled_of_le⟩
  by_contra hsize
  exact not_distilled hread (Nat.not_le.mp hsize) h

/-- Eight bytes that announce `2 ^ 64 - 1` more: the first seven of them are cut out. -/
theorem not_distilled_ones : ¬∀ data : Data, Distilled data := by
  intro h
  have hread : uint64.read (uint64.write (UInt64.ofNat (2 ^ 64 - 1)) ++ []) =
      .ok (UInt64.ofNat (2 ^ 64 - 1), []) := uint64_read ..
  have hsize := (distilled_iff _).mp (h _) _ _ hread
  rw [UInt64.toNat_ofNat_of_lt' (by decide)] at hsize
  omega

end Protocol

end Course.Socket
