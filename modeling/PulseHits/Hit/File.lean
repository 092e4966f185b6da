import PulseHits.Hit.Block
import PulseHits.Text.Quoted

/-!
# Hit files

A hit file is a sequence of records, one for each frame that has hits: event id (four bytes), event
time (eight bytes) and hit block, least significant byte first. `Writer` appends records to a
medium, which may be full before a record is complete; `readRecord` takes them off again and tells
a file that ends between two records from one that ends inside a record.
-/

namespace PulseHits.Hit

/-- The hits of one frame and the event they belong to. -/
structure EventHits where
  eventId : UInt32
  eventTime : UInt64
  hits : List Hit
  deriving DecidableEq, Repr

/-- What can go wrong with a hit file. -/
inductive FileError where
  | io (cause : IoError)
  | badBlock (cause : BlockError)
  | missingFile (path : String)
  deriving DecidableEq, Repr

def FileError.message : FileError → String
  | .io cause => s!"HitFile failed due to IO error: {cause.message}"
  | .badBlock cause => s!"HitFile contained a bad hit block: {cause.message}"
  | .missingFile path =>
    s!"Could not open HitFile because file {Text.quoted path} does not exist"

/-! ## Writing -/

/-- A medium that bytes are appended to, without limit or up to a capacity. -/
structure Medium where
  stored : Array UInt8
  capacity? : Option Nat
  deriving DecidableEq, Repr

namespace Medium

def unbounded : Medium :=
  ⟨#[], none⟩

def withCapacity (capacity : Nat) : Medium :=
  ⟨#[], some capacity⟩

/-- How many of `count` further bytes fit. -/
def room (m : Medium) (count : Nat) : Nat :=
  match m.capacity? with
  | none => count
  | some capacity => min count (capacity - m.stored.size)

/-- Stores the bytes that fit and tells whether all did. -/
def append (m : Medium) (b : Bytes) : Medium × Bool :=
  let count := b.length
  let room := m.room count
  ({ m with stored := m.stored ++ b.take room }, room == count)

/-- Stores pieces one after the other, up to the first that does not fit. -/
def appendAll (m : Medium) : (pieces : List Bytes) → Medium × Bool
  | [] => (m, true)
  | p :: rest =>
    match m.append p with
    | (m, true) => m.appendAll rest
    | (m, false) => (m, false)

end Medium

/-- The pieces in which a record goes to a medium. -/
def EventHits.pieces (e : EventHits) : List Bytes :=
  Bytes.ofNatLE 4 e.eventId.toNat :: Bytes.ofNatLE 8 e.eventTime.toNat :: blockPieces e.hits

/-- The bytes of a record. -/
def EventHits.encode (e : EventHits) : Bytes :=
  e.pieces.flatten

/-- A hit file that is being written. -/
structure Writer where
  medium : Medium
  framesWritten : Nat
  hitsWritten : Nat
  deriving DecidableEq, Repr

namespace Writer

def new (m : Medium) : Writer :=
  ⟨m, 0, 0⟩

/-- Writes the record of a frame and tells whether there was one: a frame without hits has none. -/
def write (w : Writer) (e : EventHits) : Except FileError Bool × Writer :=
  if e.hits.isEmpty then (.ok false, w)
  else
    match w.medium.appendAll e.pieces with
    | (m, true) => (.ok true, ⟨m, w.framesWritten + 1, w.hitsWritten + e.hits.length⟩)
    | (m, false) => (.error (.io .full), { w with medium := m })

def bytes (w : Writer) : Bytes :=
  w.medium.stored.toList

end Writer

/-! ## Reading -/

/-- Takes a record off the front of a stream and gives what is left of it: `none` if the stream
ends before an event id, an error if it ends later. A stream that ends early is consumed whole. -/
def readRecord (stream : Bytes) : Except FileError (Option EventHits) × Bytes :=
  if stream.length < 4 then (.ok none, [])
  else if stream.length < 16 then (.error (.io .endsInField), [])
  else
    let eventId := (stream.fieldLE 0 4).toUInt32
    let eventTime := (stream.fieldLE 4 8).toUInt64
    let count := stream.fieldLE 12 countSize
    let body := stream.drop 16
    let size := count * recordSize
    if body.length < size then (.error (.io (.endsInHits eventId count)), [])
    else
      let block := Bytes.ofNatLE countSize count ++ body.take size
      match decodeBlock block with
      | .ok hits => (.ok (some ⟨eventId, eventTime, hits⟩), body.drop size)
      | .error e => (.error (.badBlock e), body.drop size)

theorem length_readRecord_lt {stream rest : Bytes} {e : EventHits}
    (h : readRecord stream = (.ok (some e), rest)) : rest.length < stream.length := by
  unfold readRecord at h
  simp only at h
  repeat' split at h
  all_goals
    simp only [Prod.mk.injEq, reduceCtorEq, false_and, Except.ok.injEq, Option.some.injEq] at h
  obtain ⟨-, rfl⟩ := h
  simp only [List.length_drop]
  omega

/-- The records of a stream, and what ended them if it was not the end of the stream. -/
def readAll (stream : Bytes) : List EventHits × Option FileError :=
  match h : readRecord stream with
  | (.ok none, _) => ([], none)
  | (.error e, _) => ([], some e)
  | (.ok (some e), rest) =>
    have := length_readRecord_lt h
    let (records, error?) := readAll rest
    (e :: records, error?)
termination_by stream.length

end PulseHits.Hit
