import PulseHits.Frame.Basic

/-!
# Writing frames

The frame for given contents: a header of one block, the items behind it and zeros up to the end of
the last block. Every number of the header is written in its width, of one that is too large the
low digits.
-/

namespace PulseHits.Frame

namespace Header

/-- The first `minHeaderSize` bytes of a header. -/
def encode (h : Header) : Bytes :=
  .ofNatBE 1 h.metaType ++ .ofNatBE 3 h.frameSize ++ .ofNatBE 1 h.dataSource ++
    .ofNatBE 2 h.frameType ++ .ofNatBE 1 h.revision ++ .ofNatBE 2 h.headerSize ++
    .ofNatBE 2 h.itemSize ++ .ofNatBE 4 h.itemCount ++ .ofNatBE 6 h.eventTime ++
    .ofNatBE 4 h.eventId ++ .ofNatBE 1 h.cobo ++ .ofNatBE 1 h.asad

@[simp] theorem length_encode (h : Header) : h.encode.length = minHeaderSize := by
  simp [encode, minHeaderSize]

end Header

/-- Fills a byte string up with zeros. -/
def padTo (length : Nat) (b : Bytes) : Bytes :=
  b ++ List.replicate (length - b.length) 0

theorem length_padTo {length : Nat} {b : Bytes} (h : b.length ≤ length) :
    (padTo length b).length = length := by
  simp only [padTo, List.length_append, List.length_replicate]
  omega

/-- What a frame says: its kind, where it comes from, the event and the items one after the
other. -/
structure Contents where
  frameType : Nat
  cobo : Nat
  asad : Nat
  eventId : Nat
  eventTime : Nat
  itemSize : Nat
  body : Bytes
  deriving DecidableEq, Repr

namespace Contents

/-- The blocks of the frame: one for the header, and as many as the items need. -/
def blocks (c : Contents) : Nat :=
  1 + (c.body.length + (blockSize - 1)) / blockSize

/-- Bytes at the end that do not make up an item are not counted as one. -/
def header (c : Contents) : Header where
  metaType := expectedMetaType
  frameSize := c.blocks
  dataSource := 0
  frameType := c.frameType
  revision := 5
  headerSize := 1
  itemSize := c.itemSize
  itemCount := c.body.length / c.itemSize
  eventTime := c.eventTime
  eventId := c.eventId
  cobo := c.cobo
  asad := c.asad

def encode (c : Contents) : Bytes :=
  padTo (blockSize * c.blocks) (padTo blockSize c.header.encode ++ c.body)

theorem length_encode (c : Contents) : c.encode.length = blockSize * c.blocks := by
  have hheader : (padTo blockSize c.header.encode).length = blockSize :=
    length_padTo (by simp [minHeaderSize, blockSize])
  refine length_padTo ?_
  rw [List.length_append, hheader, blocks]
  simp only [blockSize]
  omega

end Contents

end PulseHits.Frame
