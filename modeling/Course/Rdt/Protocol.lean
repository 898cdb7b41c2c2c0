import Course.Lib.Codec

/-! The messages of the RDT Lab and their byte strings.  An iterator into a
byte string is the list of the bytes from it to the end, so that dereferencing
the empty one is a read outside the buffer. -/

open Course.Lib

namespace Course.Rdt

abbrev Data := List UInt8

/-- How a call of `Protocol::deserialize` can end without a message: with the
exception it is meant to throw, or outside its registry or its buffer. -/
inductive Fault
  | protocolError (message : String)
  | registryIndex (index : ℕ)
  | dereferenceEnd
  deriving DecidableEq

/-- The exception the callers of `Protocol::deserialize` catch. -/
def Fault.IsProtocolError : Fault → Prop
  | .protocolError _ => True
  | .registryIndex _ => False
  | .dereferenceEnd => False

inductive ProtocolType
  | unknown | query | size | get | start | data | acknowledge | checksum | confirm | finish
  | error | count
  deriving DecidableEq

def ProtocolType.toNat : ProtocolType → ℕ
  | .unknown => 0
  | .query => 1
  | .size => 2
  | .get => 3
  | .start => 4
  | .data => 5
  | .acknowledge => 6
  | .checksum => 7
  | .confirm => 8
  | .finish => 9
  | .error => 10
  | .count => 11

def ProtocolType.toByte (type : ProtocolType) : UInt8 := UInt8.ofNat type.toNat

/-- The nine message classes with their fields. -/
inductive Protocol
  | query (path : Data)
  | size (path : Data) (size : UInt64)
  | get (path : Data)
  | start (path : Data)
  | data (path : Data) (block : UInt64) (data : Data)
  | acknowledge (path : Data) (block : UInt64)
  | checksum (path : Data) (checksum : Data)
  | confirm (path : Data)
  | error (path : Data) (message : Data)
  deriving DecidableEq

def Protocol.type : Protocol → ProtocolType
  | .query .. => .query
  | .size .. => .size
  | .get .. => .get
  | .start .. => .start
  | .data .. => .data
  | .acknowledge .. => .acknowledge
  | .checksum .. => .checksum
  | .confirm .. => .confirm
  | .error .. => .error

def Protocol.path : Protocol → Data
  | .query path => path
  | .size path _ => path
  | .get path => path
  | .start path => path
  | .data path _ _ => path
  | .acknowledge path _ => path
  | .checksum path _ => path
  | .confirm path => path
  | .error path _ => path

/-! ### Fields -/

def invalidDataSize : Fault := .protocolError "Invalid data size"

/-- The loop dereferences the iterator before it compares it with the end, so
a string without terminator is read past the buffer. -/
def string : Codec Fault Data := .terminated 0 .dereferenceEnd

def uint64 : Codec Fault UInt64 := .uint64 invalidDataSize

def bytes : Codec Fault Data := .rest

def writeType (data : Data) (type : ProtocolType) : Data := data ++ [type.toByte]

def writeString (data : Data) (s : Data) : Data := data ++ string.write s

def writeUint64 (data : Data) (v : UInt64) : Data := data ++ uint64.write v

def writeBytes (data : Data) (b : Data) : Data := data ++ bytes.write b

def readType : Data → Except Fault (UInt8 × Data)
  | [] => .error invalidDataSize
  | b :: it => .ok (b, it)

/-! ### Classes -/

def QueryProtocol.serialize (path : Data) : Data :=
  writeString (writeType [] .query) path

def QueryProtocol.deserialize (data : Data) : Except Fault Protocol := do
  let (path, _) ← string.read (data.drop 1)
  return .query path

def SizeProtocol.serialize (path : Data) (size : UInt64) : Data :=
  writeUint64 (writeString (writeType [] .size) path) size

def SizeProtocol.deserialize (data : Data) : Except Fault Protocol := do
  let (path, it) ← string.read (data.drop 1)
  let (size, _) ← uint64.read it
  return .size path size

def GetProtocol.serialize (path : Data) : Data :=
  writeString (writeType [] .get) path

def GetProtocol.deserialize (data : Data) : Except Fault Protocol := do
  let (path, _) ← string.read (data.drop 1)
  return .get path

def StartProtocol.serialize (path : Data) : Data :=
  writeString (writeType [] .start) path

def StartProtocol.deserialize (data : Data) : Except Fault Protocol := do
  let (path, _) ← string.read (data.drop 1)
  return .start path

def DataProtocol.serialize (path : Data) (block : UInt64) (data : Data) : Data :=
  writeBytes (writeUint64 (writeString (writeType [] .data) path) block) data

def DataProtocol.deserialize (data : Data) : Except Fault Protocol := do
  let (path, it) ← string.read (data.drop 1)
  let (block, it) ← uint64.read it
  let (data, _) ← bytes.read it
  return .data path block data

def AcknowledgeProtocol.serialize (path : Data) (block : UInt64) : Data :=
  writeUint64 (writeString (writeType [] .acknowledge) path) block

def AcknowledgeProtocol.deserialize (data : Data) : Except Fault Protocol := do
  let (path, it) ← string.read (data.drop 1)
  let (block, _) ← uint64.read it
  return .acknowledge path block

def ChecksumProtocol.serialize (path : Data) (checksum : Data) : Data :=
  writeBytes (writeString (writeType [] .checksum) path) checksum

def ChecksumProtocol.deserialize (data : Data) : Except Fault Protocol := do
  let (path, it) ← string.read (data.drop 1)
  let (checksum, _) ← bytes.read it
  return .checksum path checksum

def ConfirmProtocol.serialize (path : Data) : Data :=
  writeString (writeType [] .confirm) path

def ConfirmProtocol.deserialize (data : Data) : Except Fault Protocol := do
  let (path, _) ← string.read (data.drop 1)
  return .confirm path

def ErrorProtocol.serialize (path : Data) (message : Data) : Data :=
  writeString (writeString (writeType [] .error) path) message

def ErrorProtocol.deserialize (data : Data) : Except Fault Protocol := do
  let (path, it) ← string.read (data.drop 1)
  let (message, _) ← string.read it
  return .error path message

def Protocol.serialize : Protocol → Data
  | .query path => QueryProtocol.serialize path
  | .size path n => SizeProtocol.serialize path n
  | .get path => GetProtocol.serialize path
  | .start path => StartProtocol.serialize path
  | .data path block d => DataProtocol.serialize path block d
  | .acknowledge path block => AcknowledgeProtocol.serialize path block
  | .checksum path digest => ChecksumProtocol.serialize path digest
  | .confirm path => ConfirmProtocol.serialize path
  | .error path message => ErrorProtocol.serialize path message

abbrev Deserializer := Data → Except Fault Protocol

def registrate (registry : List (Option Deserializer)) (type : ProtocolType)
    (deserializer : Deserializer) : List (Option Deserializer) :=
  registry.set type.toNat (some deserializer)

/-- The registry after the registrars of all classes have run. -/
def mRegistry : List (Option Deserializer) :=
  [(.query, QueryProtocol.deserialize), (.size, SizeProtocol.deserialize),
    (.get, GetProtocol.deserialize), (.start, StartProtocol.deserialize),
    (.data, DataProtocol.deserialize), (.acknowledge, AcknowledgeProtocol.deserialize),
    (.checksum, ChecksumProtocol.deserialize), (.confirm, ConfirmProtocol.deserialize),
    (.error, ErrorProtocol.deserialize)].foldl
      (fun registry (type, deserializer) => registrate registry type deserializer)
      (List.replicate ProtocolType.count.toNat none)

def Protocol.deserialize (data : Data) : Except Fault Protocol := do
  let (type, _) ← readType data
  match mRegistry[type.toNat]? with
  | none => throw (.registryIndex type.toNat)
  | some none => throw (.protocolError "Unknown protocol type")
  | some (some deserializer) => deserializer data

/-! ### Layouts -/

/-- One message class: its type byte, the layout behind it and the number of
strings in it, with the proofs that its two hand-written routines follow that
layout and that only a missing terminator takes the reader out of the buffer. -/
structure MessageClass where
  type : ProtocolType
  Fields : Type
  layout : Codec Fault Fields
  strings : ℕ
  make : Fields → Protocol
  valid : Fields → Prop
  whole : layout.Whole valid
  sound : layout.Sound
  failsIn : ∀ d, layout.FailsIn Fault.IsProtocolError d ↔ strings ≤ d.count 0
  serialize : ∀ a, (make a).serialize = type.toByte :: layout.write a
  deserialize : ∀ d, Protocol.deserialize (type.toByte :: d) =
    (layout.read d).map fun p => make p.1

theorem string_delimited : string.Delimited (0 ∉ ·) := Codec.terminated_delimited 0 _

theorem string_sound : string.Sound := Codec.terminated_sound 0 _

theorem string_failsIn (d : Data) : string.FailsIn Fault.IsProtocolError d ↔ 1 ≤ d.count 0 :=
  Codec.terminated_failsIn id

theorem string_seq_failsIn {c : Codec Fault α}
    (hc : ∀ d, c.FailsIn Fault.IsProtocolError d ↔ k ≤ d.count 0) (d : Data) :
    (string.seq c).FailsIn Fault.IsProtocolError d ↔ k + 1 ≤ d.count 0 :=
  Codec.terminated_seq_failsIn id hc d

theorem uint64_delimited : uint64.Delimited fun _ => True := Codec.uint64_delimited _

theorem uint64_sound : uint64.Sound := Codec.uint64_sound _

theorem uint64_failsIn (d : Data) : uint64.FailsIn Fault.IsProtocolError d ↔ 0 ≤ d.count 0 :=
  iff_of_true (Codec.uint64_failsIn trivial d) (Nat.zero_le _)

theorem bytes_failsIn (d : Data) : bytes.FailsIn Fault.IsProtocolError d ↔ 0 ≤ d.count 0 :=
  iff_of_true (Codec.rest_failsIn d) (Nat.zero_le _)

/-- A class whose only field is a path. -/
def pathClass (type : ProtocolType) (make : Data → Protocol)
    (hs : ∀ path, (make path).serialize = type.toByte :: string.write path)
    (hd : ∀ d, Protocol.deserialize (type.toByte :: d) =
      (string.read d).map fun p => make p.1) : MessageClass where
  type := type
  Fields := Data
  layout := string
  strings := 1
  make := make
  valid := (0 ∉ ·)
  whole := string_delimited.whole
  sound := string_sound
  failsIn := string_failsIn
  serialize := hs
  deserialize := hd

def queryClass := pathClass .query .query (fun _ => rfl) fun _ => rfl

def getClass := pathClass .get .get (fun _ => rfl) fun _ => rfl

def startClass := pathClass .start .start (fun _ => rfl) fun _ => rfl

def confirmClass := pathClass .confirm .confirm (fun _ => rfl) fun _ => rfl

/-- A class with a path and a 64-bit field. -/
def wordClass (type : ProtocolType) (make : Data × UInt64 → Protocol)
    (hs : ∀ p, (make p).serialize = type.toByte :: (string.seq uint64).write p)
    (hd : ∀ d, Protocol.deserialize (type.toByte :: d) =
      string.read d >>= fun p => (uint64.read p.2).map fun q => make (p.1, q.1)) :
    MessageClass where
  type := type
  Fields := Data × UInt64
  layout := string.seq uint64
  strings := 1
  make := make
  valid := fun p => 0 ∉ p.1 ∧ True
  whole := Codec.Whole.seq string_delimited uint64_delimited.whole
  sound := string_sound.seq uint64_sound
  failsIn := string_seq_failsIn uint64_failsIn
  serialize := hs
  deserialize d := by rw [hd, Codec.map_seq_read]

def sizeClass := wordClass .size (fun p => .size p.1 p.2) (fun _ => rfl) fun _ => rfl

def acknowledgeClass :=
  wordClass .acknowledge (fun p => .acknowledge p.1 p.2) (fun _ => rfl) fun _ => rfl

def checksumClass : MessageClass where
  type := .checksum
  Fields := Data × Data
  layout := string.seq bytes
  strings := 1
  make := fun p => .checksum p.1 p.2
  valid := fun p => 0 ∉ p.1 ∧ True
  whole := Codec.Whole.seq string_delimited Codec.rest_whole
  sound := string_sound.seq Codec.rest_sound
  failsIn := string_seq_failsIn bytes_failsIn
  serialize := fun _ => rfl
  deserialize d := by
    rw [Codec.map_seq_read fun p : Data × Data => Protocol.checksum p.1 p.2]
    rfl

def errorClass : MessageClass where
  type := .error
  Fields := Data × Data
  layout := string.seq string
  strings := 2
  make := fun p => .error p.1 p.2
  valid := fun p => 0 ∉ p.1 ∧ 0 ∉ p.2
  whole := Codec.Whole.seq string_delimited string_delimited.whole
  sound := string_sound.seq string_sound
  failsIn := string_seq_failsIn string_failsIn
  serialize := fun p => by
    simp [Protocol.serialize, ErrorProtocol.serialize, writeString, writeType, Codec.seq]
  deserialize d := by
    rw [Codec.map_seq_read fun p : Data × Data => Protocol.error p.1 p.2]
    rfl

def dataClass : MessageClass where
  type := .data
  Fields := Data × UInt64 × Data
  layout := string.seq (uint64.seq bytes)
  strings := 1
  make := fun p => .data p.1 p.2.1 p.2.2
  valid := fun p => 0 ∉ p.1 ∧ True ∧ True
  whole := Codec.Whole.seq string_delimited (Codec.Whole.seq uint64_delimited Codec.rest_whole)
  sound := string_sound.seq (uint64_sound.seq Codec.rest_sound)
  failsIn := string_seq_failsIn fun d => by
    rw [Codec.failsIn_seq, uint64_failsIn]
    exact ⟨fun h => h.1, fun h => ⟨h, fun _ mid _ => Codec.rest_failsIn mid⟩⟩
  serialize := fun p => by
    simp [Protocol.serialize, DataProtocol.serialize, writeBytes, writeUint64, writeString,
      writeType, Codec.seq]
  deserialize d := by
    rw [Codec.map_seq_read fun p : Data × UInt64 × Data => Protocol.data p.1 p.2.1 p.2.2]
    refine congrArg (string.read d >>= ·) (funext fun p => ?_)
    refine .trans ?_
      (Codec.map_seq_read (fun q : UInt64 × Data => Protocol.data p.1 q.1 q.2) p.2).symm
    rfl

def messageClasses : List MessageClass :=
  [queryClass, sizeClass, getClass, startClass, dataClass, acknowledgeClass, checksumClass,
    confirmClass, errorClass]

/-- The enumerators below `Type::Count`, in order. -/
def enumerators : List ProtocolType :=
  [.unknown, .query, .size, .get, .start, .data, .acknowledge, .checksum, .confirm, .finish,
    .error]

theorem exists_enumerator {t : UInt8} (h : t.toNat < ProtocolType.count.toNat) :
    ∃ type ∈ enumerators, t = type.toByte := by
  have hall : ∀ n < ProtocolType.count.toNat, ∃ type ∈ enumerators, n = type.toByte.toNat := by
    decide
  obtain ⟨type, hmem, htype⟩ := hall t.toNat h
  exact ⟨type, hmem, UInt8.toNat_inj.mp htype⟩

theorem deserialize_cons_of_le {t : UInt8} (h : ProtocolType.count.toNat ≤ t.toNat) (d : Data) :
    Protocol.deserialize (t :: d) = .error (.registryIndex t.toNat) := by
  have hnone : mRegistry[t.toNat]? = none := List.getElem?_eq_none h
  simp only [Protocol.deserialize, readType, bind, Except.bind, hnone]
  rfl

/-- What the type byte decides: an index outside the registry, an empty slot,
or one of the nine classes. -/
theorem deserialize_cases (t : UInt8) :
    (ProtocolType.count.toNat ≤ t.toNat ∧
      ∀ d, Protocol.deserialize (t :: d) = .error (.registryIndex t.toNat)) ∨
    ((t = ProtocolType.unknown.toByte ∨ t = ProtocolType.finish.toByte) ∧
      ∀ d, Protocol.deserialize (t :: d) = .error (.protocolError "Unknown protocol type")) ∨
    ∃ c ∈ messageClasses, t = c.type.toByte := by
  rcases Nat.lt_or_ge t.toNat ProtocolType.count.toNat with h | h
  · obtain ⟨type, hmem, rfl⟩ := exists_enumerator h
    right
    cases type with
    | unknown => exact .inl ⟨.inl rfl, fun _ => rfl⟩
    | finish => exact .inl ⟨.inr rfl, fun _ => rfl⟩
    | query => exact .inr ⟨queryClass, by simp [messageClasses], rfl⟩
    | size => exact .inr ⟨sizeClass, by simp [messageClasses], rfl⟩
    | get => exact .inr ⟨getClass, by simp [messageClasses], rfl⟩
    | start => exact .inr ⟨startClass, by simp [messageClasses], rfl⟩
    | data => exact .inr ⟨dataClass, by simp [messageClasses], rfl⟩
    | acknowledge => exact .inr ⟨acknowledgeClass, by simp [messageClasses], rfl⟩
    | checksum => exact .inr ⟨checksumClass, by simp [messageClasses], rfl⟩
    | confirm => exact .inr ⟨confirmClass, by simp [messageClasses], rfl⟩
    | error => exact .inr ⟨errorClass, by simp [messageClasses], rfl⟩
    | count => simp [enumerators] at hmem
  · exact .inl ⟨h, deserialize_cons_of_le h⟩

/-! ### Round trips -/

/-- The string fields of a message. -/
def Protocol.strings (m : Protocol) : List Data :=
  match m with
  | .error path message => [path, message]
  | m => [m.path]

theorem Protocol.path_mem_strings (m : Protocol) : m.path ∈ m.strings := by
  cases m <;> simp [path, strings]

def Protocol.NulFree (m : Protocol) : Prop := ∀ s ∈ m.strings, 0 ∉ s

instance Protocol.decidableNulFree (m : Protocol) : Decidable m.NulFree :=
  inferInstanceAs (Decidable (∀ s ∈ m.strings, 0 ∉ s))

theorem MessageClass.deserialize_serialize (c : MessageClass) {a : c.Fields} (h : c.valid a) :
    Protocol.deserialize (c.make a).serialize = .ok (c.make a) := by
  rw [c.serialize, c.deserialize, c.whole a h]
  rfl

theorem MessageClass.ok_of_deserialize (c : MessageClass)
    (h : Protocol.deserialize (c.type.toByte :: d) = .ok m) :
    ∃ a rest, c.layout.read d = .ok (a, rest) ∧ m = c.make a ∧
      c.type.toByte :: d = m.serialize ++ rest := by
  rw [c.deserialize] at h
  cases hr : c.layout.read d with
  | error e => rw [hr] at h; cases h
  | ok p =>
    obtain ⟨a, rest⟩ := p
    rw [hr] at h
    cases h
    refine ⟨a, rest, rfl, rfl, ?_⟩
    rw [c.serialize, c.sound _ _ _ hr]
    rfl

theorem deserialize_serialize {m : Protocol} (h : m.NulFree) :
    Protocol.deserialize m.serialize = .ok m := by
  have hpath := h _ m.path_mem_strings
  cases m with
  | query path => exact queryClass.deserialize_serialize (a := path) hpath
  | size path n => exact sizeClass.deserialize_serialize (a := (path, n)) ⟨hpath, trivial⟩
  | get path => exact getClass.deserialize_serialize (a := path) hpath
  | start path => exact startClass.deserialize_serialize (a := path) hpath
  | data path block d =>
    exact dataClass.deserialize_serialize (a := (path, block, d)) ⟨hpath, trivial, trivial⟩
  | acknowledge path block =>
    exact acknowledgeClass.deserialize_serialize (a := (path, block)) ⟨hpath, trivial⟩
  | checksum path digest =>
    exact checksumClass.deserialize_serialize (a := (path, digest)) ⟨hpath, trivial⟩
  | confirm path => exact confirmClass.deserialize_serialize (a := path) hpath
  | error path message =>
    have hmessage := h message (by simp [Protocol.strings])
    exact errorClass.deserialize_serialize (a := (path, message)) ⟨hpath, hmessage⟩

/-- A string that was read up to its terminator does not contain one. -/
theorem nulFree_of_deserialize {d : Data} {m : Protocol} (h : Protocol.deserialize d = .ok m) :
    m.NulFree := by
  have hseq : ∀ {α : Type} {c : Codec Fault α} {d rest : Data} {p : Data × α},
      (string.seq c).read d = .ok (p, rest) → 0 ∉ p.1 := by
    intro α c d rest p hr
    obtain ⟨mid, hs, -⟩ := Codec.seq_read_eq_ok hr
    exact Codec.terminated_notMem hs
  cases d with
  | nil => cases h
  | cons t d =>
    rcases deserialize_cases t with ⟨_, hd⟩ | ⟨_, hd⟩ | ⟨c, hc, rfl⟩
    · rw [hd] at h; cases h
    · rw [hd] at h; cases h
    obtain ⟨a, rest, hr, rfl, -⟩ := c.ok_of_deserialize h
    simp only [messageClasses, List.mem_cons, List.not_mem_nil, or_false] at hc
    intro s hs
    rcases hc with rfl | rfl | rfl | rfl | rfl | rfl | rfl | rfl | rfl
    on_goal 9 =>
      obtain ⟨mid, hpath, hmessage⟩ := Codec.seq_read_eq_ok hr
      obtain rfl | hs := List.mem_cons.mp hs
      · exact Codec.terminated_notMem hpath
      · obtain rfl := List.mem_singleton.mp hs
        exact Codec.terminated_notMem hmessage
    all_goals obtain rfl := List.mem_singleton.mp hs
    · exact Codec.terminated_notMem hr
    · exact hseq hr
    · exact Codec.terminated_notMem hr
    · exact Codec.terminated_notMem hr
    · exact hseq hr
    · exact hseq hr
    · exact hseq hr
    · exact Codec.terminated_notMem hr

/-- The classes whose last field takes the rest of the bytes read them all. -/
theorem serialize_eq_of_rest {d : Data} {m : Protocol} (h : Protocol.deserialize d = .ok m)
    (hm : m.type = .data ∨ m.type = .checksum) : m.serialize = d := by
  cases d with
  | nil => cases h
  | cons t d =>
    rcases deserialize_cases t with ⟨_, hd⟩ | ⟨_, hd⟩ | ⟨c, hc, rfl⟩
    · rw [hd] at h; cases h
    · rw [hd] at h; cases h
    obtain ⟨a, rest, hr, rfl, heq⟩ := c.ok_of_deserialize h
    have hrest : rest = [] := by
      simp only [messageClasses, List.mem_cons, List.not_mem_nil, or_false] at hc
      rcases hc with rfl | rfl | rfl | rfl | rfl | rfl | rfl | rfl | rfl
      case inr.inr.inr.inr.inl => exact (Codec.rest_exhaustive.seq.seq) _ _ _ hr
      case inr.inr.inr.inr.inr.inr.inl => exact (Codec.rest_exhaustive.seq) _ _ _ hr
      all_goals rcases hm with hm | hm <;> cases hm
    rw [heq, hrest, List.append_nil]

/-- Deserializing undoes serializing, and what is accepted begins with the
serialization of the message it is accepted as. -/
theorem protocol_codec :
    (∀ m : Protocol, m.NulFree → Protocol.deserialize m.serialize = .ok m) ∧
      ∀ (d : Data) (m : Protocol), Protocol.deserialize d = .ok m →
        m.serialize <+: d ∧ (m.type = .data ∨ m.type = .checksum → m.serialize = d) := by
  refine ⟨fun m => deserialize_serialize, fun d m h => ⟨?_, serialize_eq_of_rest h⟩⟩
  cases d with
  | nil => cases h
  | cons t d =>
    rcases deserialize_cases t with ⟨_, hd⟩ | ⟨_, hd⟩ | ⟨c, _, rfl⟩
    · rw [hd] at h; cases h
    · rw [hd] at h; cases h
    · obtain ⟨_, rest, _, _, heq⟩ := c.ok_of_deserialize h
      exact ⟨rest, heq.symm⟩

theorem protocol_codec_data :
    Protocol.deserialize (Protocol.data [97, 98] 258 [0, 7]).serialize =
        .ok (.data [97, 98] 258 [0, 7]) ∧
      (Protocol.data [97] 1 [5]).serialize = [5, 97, 0, 1, 0, 0, 0, 0, 0, 0, 0, 5] :=
  ⟨protocol_codec.1 _ (by decide),
    (protocol_codec.2 [5, 97, 0, 1, 0, 0, 0, 0, 0, 0, 0, 5] _ (by decide)).2 (.inl rfl)⟩

/-! ### Hostile input -/

/-- A call that stayed inside the registry and the buffer. -/
def WellBehaved : Except Fault Protocol → Prop
  | .ok _ => True
  | .error e => e.IsProtocolError

/-- The type byte is an enumerator below `Type::Count`, and what follows a
registered one holds as many terminators as its class has strings. -/
def Contained : Data → Prop
  | [] => True
  | t :: d => t.toNat < ProtocolType.count.toNat ∧
    (t = ProtocolType.unknown.toByte ∨ t = ProtocolType.finish.toByte ∨
      (if t = ProtocolType.error.toByte then 2 else 1) ≤ d.count 0)

theorem MessageClass.wellBehaved_iff (c : MessageClass) (d : Data) :
    WellBehaved (Protocol.deserialize (c.type.toByte :: d)) ↔ c.strings ≤ d.count 0 := by
  rw [c.deserialize, ← c.failsIn, Codec.FailsIn]
  cases c.layout.read d <;> simp [WellBehaved, Except.map]

theorem messageClass_type {c : MessageClass} (hc : c ∈ messageClasses) :
    c.type.toByte.toNat < ProtocolType.count.toNat ∧
      c.type.toByte ≠ ProtocolType.unknown.toByte ∧ c.type.toByte ≠ ProtocolType.finish.toByte ∧
      (if c.type.toByte = ProtocolType.error.toByte then 2 else 1) = c.strings := by
  simp only [messageClasses, List.mem_cons, List.not_mem_nil, or_false] at hc
  rcases hc with rfl | rfl | rfl | rfl | rfl | rfl | rfl | rfl | rfl <;> decide

theorem messageClass_contained_iff {c : MessageClass} (hc : c ∈ messageClasses) (d : Data) :
    Contained (c.type.toByte :: d) ↔ c.strings ≤ d.count 0 := by
  obtain ⟨hlt, hunknown, hfinish, hstrings⟩ := messageClass_type hc
  simp [Contained, hlt, hunknown, hfinish, hstrings]

/-- `Protocol::deserialize` stays inside its registry and its buffer exactly on
the contained byte strings. -/
theorem deserialize_wellBehaved_iff (d : Data) :
    WellBehaved (Protocol.deserialize d) ↔ Contained d := by
  cases d with
  | nil => exact iff_of_true trivial trivial
  | cons t d =>
    rcases deserialize_cases t with ⟨ht, hd⟩ | ⟨ht, hd⟩ | ⟨c, hc, rfl⟩
    · rw [hd]
      exact iff_of_false id fun h => (h.1.trans_le ht).false
    · rw [hd]
      refine iff_of_true trivial ⟨?_, ht.imp_right .inl⟩
      rcases ht with rfl | rfl <;> decide
    · rw [c.wellBehaved_iff, messageClass_contained_iff hc]

/-- A type byte outside the registry, and a path without terminator. -/
theorem deserialize_not_wellBehaved :
    Protocol.deserialize [11] = .error (.registryIndex 11) ∧
      Protocol.deserialize [1, 97] = .error .dereferenceEnd ∧
      ¬∀ d, WellBehaved (Protocol.deserialize d) :=
  ⟨by decide, by decide, fun h => h [11]⟩

end Course.Rdt
