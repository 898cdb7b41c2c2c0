import Course.Rdt.Channel
import Mathlib.Data.List.AList

/-! The RDT Lab client: one turn of `dispatch` for each state, what its channel
calls back, and `download`, which starts over. -/

namespace Course.Rdt

variable {κ : Type}

/-- An output file; `written` is what was written since it was opened. -/
structure Ofstream where
  isOpen : Bool
  written : Data
  deriving DecidableEq

namespace Ofstream

def tellp (file : Ofstream) : ℕ := if file.isOpen then file.written.length else 2 ^ 64 - 1

/-- Opening truncates; `opened` is the answer of the file system. -/
def «open» (file : Ofstream) (opened : Bool) : Ofstream :=
  if file.isOpen then file else ⟨opened, []⟩

def write (file : Ofstream) (data : Data) : Ofstream :=
  { file with written := file.written ++ data }

def close (file : Ofstream) : Ofstream := { file with isOpen := false }

end Ofstream

namespace Client

inductive State
  | idle | query | size | get | start | data | acknowledge | checksum | confirm | error
  deriving DecidableEq

/-- The callbacks of the client.  `finish` also records what the destination
held at that moment. -/
inductive Output (κ : Type)
  | progress (size tellp : ℕ)
  | finish (file : Data) (size : ℕ) (written : Data)
  | error (what : String)
  /-- The message of an `ErrorProtocol`. -/
  | serverError (message : Data)
  /-- "Failed to send message to {address} with maximum retries" -/
  | sendError (address : κ)
  /-- "Failed to open file {destination}" -/
  | openError (destination : Data)
  deriving DecidableEq

end Client

structure Client (κ : Type) where
  mTimeout : ℤ
  mRetries : ℕ
  mState : Client.State
  mChannel : Channel κ
  mHandle : ℕ
  mProtocols : List Protocol
  mAddress : κ
  mFile : Data
  mDestination : Data
  mSize : ℕ
  mOutput : Ofstream
  mBlock : ℕ
  mNext : ℕ
  mCache : AList fun _ : ℕ => Data
  mChecksum : MD5
  mDuplicate : ℕ
  log : List (Client.Output κ)

namespace Client

/-- What lies in the memory of a new client where the constructor stores nothing;
`query`, `size` and `start` are the first to store there. -/
structure Uninitialized where
  mHandle : ℕ
  mSize : ℕ
  mBlock : ℕ
  mNext : ℕ

def new (memory : Uninitialized) (timeout : ℤ) (retries : ℕ) (address : κ) : Client κ where
  mTimeout := timeout
  mRetries := retries
  mState := .idle
  mChannel := .new
  mHandle := memory.mHandle
  mProtocols := []
  mAddress := address
  mFile := []
  mDestination := []
  mSize := memory.mSize
  mOutput := ⟨false, []⟩
  mBlock := memory.mBlock
  mNext := memory.mNext
  mCache := ∅
  mChecksum := .new
  mDuplicate := 0
  log := []

def report (c : Client κ) (output : Output κ) : Client κ := { c with log := c.log ++ [output] }

/-- `download` up to its call of `dispatch`. -/
def download (c : Client κ) (address : κ) (file destination : Data) : Client κ :=
  { c with
    mProtocols := []
    mOutput := c.mOutput.close
    mCache := ∅
    mChecksum := c.mChecksum.reset
    mAddress := address
    mFile := file
    mDestination := destination
    mState := .query }

/-- What `wait` leaves in the queue: it drops messages it is not waiting for. -/
def awaited (type : ProtocolType) (queue : List Protocol) : List Protocol :=
  queue.dropWhile fun m => m.type ≠ type ∧ m.type ≠ .error

/-- `none` while it is still waiting, else what it returns. -/
def wait (c : Client κ) (type : ProtocolType) : Client κ × Option Bool :=
  if c.mState = .idle then (c, some false)
  else
    let c := { c with mProtocols := awaited type c.mProtocols }
    match c.mProtocols with
    | [] => (c, none)
    | m :: _ =>
      let c := { c with mChannel := c.mChannel.terminate c.mHandle }
      if m.type = .error then ({ c with mState := .error }, some false) else (c, some true)

/-- A message to the server that is sent again until it is answered. -/
def request (c : Client κ) (m : Protocol) : Client κ :=
  let (mChannel, mHandle) := c.mChannel.send ⟨m.serialize, c.mAddress⟩ c.mTimeout c.mRetries
  { c with mChannel, mHandle }

/-! ### The states -/

def query (c : Client κ) : Client κ := { c.request (.query c.mFile) with mState := .size }

def size (c : Client κ) : Client κ :=
  match c.wait .size with
  | (c, some true) =>
    match c.mProtocols with
    | .size _ size :: queue =>
      { c with mProtocols := queue, mSize := size.toNat, mState := .get }
    | _ => c
  | (c, _) => c

def get (c : Client κ) : Client κ := { c.request (.get c.mFile) with mState := .start }

def start (c : Client κ) (opened : Bool) : Client κ :=
  match c.wait .start with
  | (c, some true) =>
    let mOutput := c.mOutput.open opened
    let c := { c with
      mProtocols := c.mProtocols.tail
      mOutput
      mBlock := 0
      mNext := 0
      mChecksum := c.mChecksum.reset
      mState := .data }
    if mOutput.isOpen then c else { c.report (.openError c.mDestination) with mState := .idle }
  | (c, _) => c

/-- `while ((iter = mCache.find(mNext)) != mCache.end())`, with the turns it may
take; `complete` collects the blocks written. -/
def drain : ℕ → Client κ → List ℕ → Client κ × List ℕ × Option ChecksumError
  | 0, c, complete => (c, complete, none)
  | n + 1, c, complete =>
    match c.mCache.lookup c.mNext with
    | none => (c, complete, none)
    | some data =>
      let mOutput := c.mOutput.write data
      match c.mChecksum.update data with
      | .error e => ({ c with mOutput }, complete, some e)
      | .ok mChecksum =>
        let c' := { c with mOutput, mChecksum, mNext := c.mNext + 1 }
        drain n (c'.report (.progress c.mSize mOutput.tellp)) (complete ++ [c.mNext])

/-- The handler of one block; with what it throws. -/
def receiveBlock (c : Client κ) (block : ℕ) (data : Data) : Client κ × Option ChecksumError :=
  if block < c.mNext ∨ block ∈ c.mCache then
    ({ c with mBlock := block, mState := .acknowledge, mDuplicate := c.mDuplicate + 1 }, none)
  else
    let c := { c with mCache := c.mCache.insert block data, mBlock := block }
    match drain (c.mCache.entries.length + 1) c [] with
    | (c, _, some e) => (c, some e)
    | (c, complete, none) =>
      ({ c with
          mCache := complete.foldl (fun cache block => cache.erase block) c.mCache
          mState := .acknowledge }, none)

/-- What `dispatch` does with an exception. -/
def caught (p : Client κ × Option ChecksumError) : Client κ :=
  match p with
  | (c, none) => c
  | (c, some e) => { c.report (.error e.message) with mState := .idle }

def data (c : Client κ) : Client κ :=
  match c.wait .data with
  | (c, some true) =>
    match c.mProtocols with
    | .data _ block data :: queue =>
      caught ({ c with mProtocols := queue }.receiveBlock block.toNat data)
    | _ => c
  | (c, _) => c

def acknowledge (c : Client κ) : Client κ :=
  let m := Protocol.acknowledge c.mFile (.ofNat c.mBlock)
  let (mChannel, mHandle) := c.mChannel.send ⟨m.serialize, c.mAddress⟩ 1 0
  { c with
    mChannel
    mHandle
    mState := if c.mOutput.tellp = c.mSize then .checksum else .data }

def checksum (c : Client κ) : Client κ :=
  let c := { c with mChecksum := c.mChecksum.finalize }
  match c.mChecksum.digest with
  | .error e => caught (c, some e)
  | .ok digest => { c.request (.checksum c.mFile digest) with mState := .confirm }

def confirm (c : Client κ) : Client κ :=
  match c.wait .confirm with
  | (c, some true) =>
    let c := c.report (.finish c.mFile c.mSize c.mOutput.written)
    { c with mOutput := c.mOutput.close, mState := .idle }
  | (c, _) => c

def error (c : Client κ) : Client κ :=
  match c.mProtocols with
  | .error _ message :: queue =>
    { { c with mProtocols := queue }.report (.serverError message) with mState := .idle }
  | _ => c

/-- One turn of the loop of `dispatch`. -/
def dispatch (c : Client κ) (opened : Bool) : Client κ :=
  match c.mState with
  | .idle => c
  | .query => c.query
  | .size => c.size
  | .get => c.get
  | .start => c.start opened
  | .data => c.data
  | .acknowledge => c.acknowledge
  | .checksum => c.checksum
  | .confirm => c.confirm
  | .error => c.error

/-! ### Callbacks of the channel -/

/-- The stores of `State::Idle` in `onTimeout` and `onReceive` race with
`dispatch`: with `lost`, a turn of `dispatch` that is under way overwrites it. -/
def becomeIdle (c : Client κ) (lost : Bool) : Client κ :=
  if lost then c else { c with mState := .idle }

def onTimeout (c : Client κ) (task : Channel.Task κ) (lost : Bool) : Client κ :=
  let c := c.report (.sendError task.address)
  { c with mChannel := c.mChannel.terminate c.mHandle }.becomeIdle lost

/-- `none` where reading the message leaves the registry or the buffer. -/
def onReceive (c : Client κ) (data : Data) (lost : Bool) : Option (Client κ) :=
  match Protocol.deserialize data with
  | .ok m => some { c with mProtocols := c.mProtocols ++ [m] }
  | .error (.protocolError what) => some ((c.report (.error what)).becomeIdle lost)
  | .error _ => none

end Client

end Course.Rdt
