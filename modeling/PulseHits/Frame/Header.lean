import PulseHits.Bits
import PulseHits.IoError

/-!
# Frame headers

Every frame starts with a primary header of at least 28 bytes, all of whose numbers are written
most significant byte first. Frame and header sizes count blocks of 256 bytes, item sizes count
bytes.

| bytes | field       | bytes | field       | bytes | field      |
|-------|-------------|-------|-------------|-------|------------|
| 0     | meta type   | 7     | revision    | 16–21 | event time |
| 1–3   | frame size  | 8–9   | header size | 22–25 | event id   |
| 4     | data source | 10–11 | item size   | 26    | CoBo id    |
| 5–6   | frame type  | 12–15 | item count  | 27    | AsAd id    |
-/

namespace PulseHits.Frame

/-- The meta type that marks a frame counted in blocks of `blockSize` bytes. -/
def expectedMetaType : Nat := 8

/-- The unit of frame and header sizes, in bytes. -/
def blockSize : Nat := 256

/-- The length of the part of the header that is always there. -/
def minHeaderSize : Nat := 28

structure Header where
  metaType : Nat
  /-- In blocks. -/
  frameSize : Nat
  dataSource : Nat
  frameType : Nat
  revision : Nat
  /-- In blocks. -/
  headerSize : Nat
  /-- In bytes. -/
  itemSize : Nat
  itemCount : Nat
  eventTime : Nat
  eventId : Nat
  cobo : Nat
  asad : Nat
  deriving DecidableEq, Repr

/-- Why bytes are not a frame. -/
inductive Error where
  | io (cause : IoError)
  | metaType (found : Nat)
  | tooShort (held declared : Nat)
  | headerSize (declared : Nat)
  | itemOverrun (count itemSize frameBytes : Nat)
  | zeroItemSize (count : Nat)
  deriving DecidableEq, Repr

def Error.message : Error → String
  | .io cause => s!"Failed to parse buffer into MfmFrame: {cause.message}"
  | .metaType found =>
    s!"Incorrect meta type {found} found for MfmFrame; expected {expectedMetaType}"
  | .tooShort held declared =>
    s!"MfmFrame buffer holds {held} bytes but the header declares a frame of {declared} bytes"
  | .headerSize declared =>
    s!"Incorrect header size {declared} bytes found for MfmFrame; need at least {minHeaderSize}"
  | .itemOverrun count itemSize frameBytes =>
    s!"MfmFrame declares {count} items of {itemSize} bytes, " ++
      s!"which overruns the {frameBytes} byte frame"
  | .zeroItemSize count => s!"MfmFrame declares {count} items with an item size of zero"

namespace Header

def frameBytes (h : Header) : Nat :=
  blockSize * h.frameSize

def headerBytes (h : Header) : Nat :=
  blockSize * h.headerSize

/-- The fields of the first `minHeaderSize` bytes, whatever the meta type. -/
def read? (b : Bytes) : Option Header :=
  if b.length < minHeaderSize then none
  else some {
    metaType := b.fieldBE 0 1
    frameSize := b.fieldBE 1 3
    dataSource := b.fieldBE 4 1
    frameType := b.fieldBE 5 2
    revision := b.fieldBE 7 1
    headerSize := b.fieldBE 8 2
    itemSize := b.fieldBE 10 2
    itemCount := b.fieldBE 12 4
    eventTime := b.fieldBE 16 6
    eventId := b.fieldBE 22 4
    cobo := b.fieldBE 26 1
    asad := b.fieldBE 27 1 }

/-- The header at the start of a byte string. -/
def parse (b : Bytes) : Except Error Header :=
  match read? b with
  | none => .error (.io .endsInField)
  | some h => if h.metaType = expectedMetaType then .ok h else .error (.metaType h.metaType)

theorem read?_take {b : Bytes} {n : Nat} (hn : minHeaderSize ≤ n) :
    read? (b.take n) = read? b := by
  have hn' : 28 ≤ n := hn
  have hlen : (b.take n).length < minHeaderSize ↔ b.length < minHeaderSize := by
    simp only [List.length_take, minHeaderSize]
    omega
  simp only [read?, hlen]
  split
  · rfl
  · simp (disch := omega) only [Bytes.fieldBE_take]

end Header

end PulseHits.Frame
