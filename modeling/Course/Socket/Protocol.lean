import Course.Lib.Codec
import Course.Lib.Framing

/-! The messages of the Socket Lab, with their length in front of them. An iterator is the
list of the bytes from it to the end. -/

open Course.Lib

namespace Course.Socket

abbrev Data := List UInt8

/-- How `Protocol::deserialize` ends without a message. -/
inductive Fault
  | protocolError (message : String)
  | dereferenceEnd
  deriving DecidableEq

inductive ProtocolType
  | unknown | get | file | error
  deriving DecidableEq

def ProtocolType.toByte : ProtocolType → UInt8
  | .unknown => 0
  | .get => 1
  | .file => 2
  | .error => 3

inductive Protocol
  | get (path : Data)
  | file (data : Data)
  | error (message : Data)
  deriving DecidableEq

/-! ### Fields -/

def uint64 : Codec Fault UInt64 := .uint64 (.protocolError "Invalid data size")

/-- The loop dereferences the iterator before it compares it with the end. -/
def string : Codec Fault Data := .terminated 0 .dereferenceEnd

def bytes : Codec Fault Data := .rest

def readType : Data → Except Fault (UInt8 × Data)
  | [] => .error (.protocolError "Invalid data size")
  | b :: it => .ok (b, it)

/-- `sizeof(uint64_t)` -/
def sizeofSize : UInt64 := 8

/-- A frame: the size of what follows, the type and the payload. -/
def frame (size : UInt64) (type : ProtocolType) (payload : Data) : Data :=
  uint64.write size ++ type.toByte :: payload

/-! ### Classes -/

def GetProtocol.serialize (path : Data) : Data :=
  frame (1 + UInt64.ofNat path.length + 1) .get (string.write path)

def FileProtocol.serialize (data : Data) : Data :=
  frame (1 + UInt64.ofNat data.length) .file (bytes.write data)

def ErrorProtocol.serialize (message : Data) : Data :=
  frame (1 + UInt64.ofNat message.length + 1) .error (string.write message)

namespace Protocol

def serialize : Protocol → Data
  | get path => GetProtocol.serialize path
  | file data => FileProtocol.serialize data
  | error message => ErrorProtocol.serialize message

/-- The beginning of `deserialize`, up to the check of the size. -/
def readSize (data : Data) : Except Fault Data := do
  let (size, it) ← uint64.read data
  if data.length ≠ (sizeofSize + size).toNat then
    throw (.protocolError "Invalid data size")
  return it

/-- The rest of `deserialize`. -/
def readMessage (it : Data) : Except Fault Protocol := do
  let (type, it) ← readType it
  if type = ProtocolType.get.toByte then
    let (path, _) ← string.read it
    return .get path
  else if type = ProtocolType.file.toByte then
    let (data, _) ← bytes.read it
    return .file data
  else if type = ProtocolType.error.toByte then
    let (message, _) ← string.read it
    return .error message
  else throw (.protocolError "Invalid protocol type")

def deserialize (data : Data) : Except Fault Protocol := do
  let it ← readSize data
  readMessage it

/-- The frame, and the data after it. -/
def distill (data : Data) : Data × Data :=
  if data.length < 8 then ([], data)
  else match uint64.read data with
    | .error _ => ([], data)
    | .ok (size, _) =>
      if data.length < (sizeofSize + size).toNat then ([], data)
      else (data.take (sizeofSize + size).toNat, data.drop (sizeofSize + size).toNat)

end Protocol

theorem Protocol.distill_shrinks (data : Data) (h : (Protocol.distill data).1 ≠ []) :
    (Protocol.distill data).2.length < data.length := by
  rw [Protocol.distill] at h ⊢
  split at h
  · exact absurd rfl h
  · rename_i hlen
    rw [if_neg hlen]
    split at h
    · exact absurd rfl h
    · split at h
      · exact absurd rfl h
      · rename_i size it hread hsize
        simp only [if_neg hsize, List.length_drop]
        have hpos : (sizeofSize + size).toNat ≠ 0 := fun hzero => h (by simp [hzero])
        omega

def distiller : Distiller UInt8 := ⟨Protocol.distill, Protocol.distill_shrinks⟩

/-! ### Frames -/

/-- The frame fits into a vector: `reserve` throws beyond `max_size`. -/
def Protocol.Fits (message : Protocol) : Prop := message.serialize.length < 2 ^ 63

instance (message : Protocol) : Decidable message.Fits := Nat.decLt ..

/-- The strings of a message are without NUL. -/
structure Protocol.Valid (message : Protocol) : Prop where
  noNul : match message with
    | .get path => 0 ∉ path
    | .file _ => True
    | .error message => 0 ∉ message
  fits : message.Fits

/-- Type and payload, without the size. -/
def Protocol.body : Protocol → Data
  | .get path => ProtocolType.get.toByte :: string.write path
  | .file data => ProtocolType.file.toByte :: bytes.write data
  | .error message => ProtocolType.error.toByte :: string.write message

theorem length_uint64_write (v : UInt64) : (uint64.write v).length = 8 :=
  LittleEndian.length_toBytes ..

theorem uint64_read (v : UInt64) (rest : Data) :
    uint64.read (uint64.write v ++ rest) = .ok (v, rest) :=
  Codec.uint64_delimited _ v rest trivial

theorem length_string_write (s : Data) : (string.write s).length = s.length + 1 :=
  List.length_append

/-- The size in front is that of the body. -/
theorem serialize_eq (message : Protocol) :
    message.serialize = uint64.write (UInt64.ofNat message.body.length) ++ message.body := by
  have hofNat : ∀ n : ℕ, UInt64.ofNat (n + 1) = 1 + UInt64.ofNat n := by
    intro n
    rw [UInt64.ofNat_add, UInt64.add_comm]
    rfl
  have hstring : ∀ s : Data, UInt64.ofNat (s.length + 1 + 1) = 1 + UInt64.ofNat s.length + 1 := by
    intro s
    rw [hofNat, hofNat, UInt64.add_comm 1 (1 + _)]
  cases message with
  | get path =>
    rw [Protocol.body, List.length_cons, length_string_write, hstring]
    rfl
  | file data =>
    rw [Protocol.body, List.length_cons, hofNat]
    rfl
  | error message =>
    rw [Protocol.body, List.length_cons, length_string_write, hstring]
    rfl

namespace Protocol

variable {message : Protocol}

theorem Fits.body_lt (h : message.Fits) : message.body.length + 8 < 2 ^ 63 := by
  have hfits : message.serialize.length < 2 ^ 63 := h
  rw [serialize_eq, List.length_append, length_uint64_write] at hfits
  omega

/-- The size that is read, with its own eight bytes, is the length of the frame. -/
theorem Fits.frameSize (h : message.Fits) :
    (sizeofSize + UInt64.ofNat message.body.length).toNat = message.serialize.length := by
  have hsize : sizeofSize + UInt64.ofNat message.body.length =
      UInt64.ofNat (8 + message.body.length) := by
    rw [UInt64.ofNat_add]
    rfl
  have hlt : 8 + message.body.length < UInt64.size := by
    have hlt := h.body_lt
    have hsize : UInt64.size = 2 ^ 64 := rfl
    omega
  rw [hsize, UInt64.toNat_ofNat_of_lt' hlt, serialize_eq, List.length_append, length_uint64_write]

theorem read_size (message : Protocol) (rest : Data) :
    uint64.read (message.serialize ++ rest) =
      .ok (UInt64.ofNat message.body.length, message.body ++ rest) := by
  rw [serialize_eq, List.append_assoc]
  exact uint64_read ..

theorem Valid.deserialize (h : message.Valid) :
    Protocol.deserialize message.serialize = .ok message := by
  have hread := read_size message []
  have hstring : ∀ s : Data, 0 ∉ s → string.read (string.write s) = .ok (s, []) :=
    fun s hs => (Codec.terminated_delimited 0 _).whole s hs
  have hnoNul := h.noNul
  have hsize := h.fits.frameSize
  rw [List.append_nil, List.append_nil] at hread
  have hit : readSize message.serialize = .ok message.body := by
    simp [readSize, hread, bind, Except.bind, hsize, pure, Except.pure]
  simp only [Protocol.deserialize, hit, bind, Except.bind, readMessage]
  cases message with
  | get path =>
    simp [Protocol.body, readType, ProtocolType.toByte, hstring path hnoNul, pure, Except.pure]
  | file data =>
    simp [Protocol.body, readType, ProtocolType.toByte, bytes, Codec.rest, pure, Except.pure]
  | error message =>
    simp [Protocol.body, readType, ProtocolType.toByte, hstring message hnoNul, pure, Except.pure]

theorem Fits.distill_whole (h : message.Fits) (rest : Data) :
    Protocol.distill (message.serialize ++ rest) = (message.serialize, rest) := by
  have hlen : 8 ≤ message.serialize.length := by
    rw [serialize_eq, List.length_append, length_uint64_write]
    exact Nat.le_add_right ..
  rw [Protocol.distill, if_neg, read_size]
  · simp [h.frameSize]
  · rw [List.length_append]
    omega

theorem Fits.distills (h : message.Fits) : distiller.Distills message.serialize where
  ne_nil hnil := by
    have hlen := congrArg List.length hnil
    rw [serialize_eq, List.length_append, length_uint64_write] at hlen
    simp at hlen
  whole := h.distill_whole
  part data hpart hne := by
    show Protocol.distill _ = _
    rw [Protocol.distill]
    split
    · rfl
    · rename_i hlen
      have hlt : data.length < message.serialize.length := by
        apply lt_of_le_of_ne hpart.length_le
        exact fun heq => hne (hpart.eq_of_length heq)
      obtain ⟨rest, hrest⟩ := hpart
      have hstart : ∃ a, data = uint64.write (UInt64.ofNat message.body.length) ++ a := by
        rw [serialize_eq] at hrest
        rcases List.append_eq_append_iff.mp hrest with ⟨a, ha, -⟩ | ⟨a, ha, -⟩
        · have hlength := congrArg List.length ha
          rw [length_uint64_write, List.length_append] at hlength
          have hnil : a = [] := List.length_eq_zero_iff.mp (by omega)
          exact ⟨[], by rw [ha, hnil, List.append_nil, List.append_nil]⟩
        · exact ⟨a, ha⟩
      obtain ⟨a, rfl⟩ := hstart
      rw [uint64_read]
      exact if_pos (h.frameSize ▸ hlt)

end Protocol

/-! ### Streams -/

/-- What was cut out of a stream so far: the frames of the first messages, and the
beginning of the next one. -/
structure Cut (messages : List Protocol) (frames : List Data) (data : Data) : Prop where
  frames : ∃ done todo, messages = done ++ todo ∧ frames = done.map Protocol.serialize ∧
    Distiller.Pending (todo.map Protocol.serialize) data

theorem distills_serialize {messages : List Protocol}
    (hvalid : ∀ message ∈ messages, message.Valid) :
    ∀ frame ∈ messages.map Protocol.serialize, distiller.Distills frame := by
  intro frame hframe
  obtain ⟨message, hmessage, rfl⟩ := List.mem_map.mp hframe
  exact (hvalid message hmessage).fits.distills

theorem feed_cut {messages : List Protocol} (hvalid : ∀ message ∈ messages, message.Valid)
    {chunks : List Data} {rest : Data}
    (hchunks : chunks.flatten ++ rest = (messages.map Protocol.serialize).flatten) :
    Cut messages (distiller.feed [] chunks).1 (distiller.feed [] chunks).2 := by
  have hdistills := distills_serialize hvalid
  obtain ⟨done, todo, hframes, hfeed, -, hpending⟩ := Distiller.feed_frames hdistills rfl hchunks
    (Distiller.pending_nil hdistills)
  obtain ⟨done, todo, rfl, rfl, rfl⟩ := List.map_eq_append_iff.mp hframes
  exact ⟨done, todo, rfl, congrArg Prod.fst hfeed, hpending⟩

/-- The frames of the messages come out of every stream of chunks, and are read as the
messages. -/
theorem feed_deserialize {messages : List Protocol} (hvalid : ∀ message ∈ messages, message.Valid)
    {chunks : List Data} (hchunks : chunks.flatten = (messages.map Protocol.serialize).flatten) :
    distiller.feed [] chunks = (messages.map Protocol.serialize, []) ∧
      (∀ before after, chunks = before ++ after →
        Cut messages (distiller.feed [] before).1 (distiller.feed [] before).2) ∧
      ∀ message ∈ messages, Protocol.deserialize message.serialize = .ok message := by
  refine ⟨?_, fun before after heq => ?_, fun message h => (hvalid message h).deserialize⟩
  · have hdistills := distills_serialize hvalid
    rw [← List.append_nil chunks.flatten] at hchunks
    obtain ⟨done, todo, hframes, hfeed, hrest, hpending⟩ :=
      Distiller.feed_frames hdistills rfl hchunks (Distiller.pending_nil hdistills)
    rw [List.append_nil] at hrest
    obtain ⟨rfl, hdata⟩ := hpending.eq_nil hrest
    rw [hfeed, hdata, hframes, List.append_nil]
  · rw [heq, List.flatten_append] at hchunks
    exact feed_cut hvalid hchunks

theorem feed_deserialize_split :
    distiller.feed [] [[3, 0, 0], [0, 0, 0, 0, 0, 1, 97, 0, 2], [0, 0, 0, 0, 0, 0, 0, 2, 7]] =
      ([[3, 0, 0, 0, 0, 0, 0, 0, 1, 97, 0], [2, 0, 0, 0, 0, 0, 0, 0, 2, 7]], []) := by
  have hget : (Protocol.get [97]).Valid := ⟨by decide, by decide⟩
  have hfile : (Protocol.file [7]).Valid := ⟨trivial, by decide⟩
  have hvalid : ∀ message ∈ [Protocol.get [97], .file [7]], message.Valid := by
    simp [hget, hfile]
  exact (@feed_deserialize _ hvalid
    [[3, 0, 0], [0, 0, 0, 0, 0, 1, 97, 0, 2], [0, 0, 0, 0, 0, 0, 0, 2, 7]] (by decide)).1

end Course.Socket
