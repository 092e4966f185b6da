import PulseHits.Frame.Header
import PulseHits.Frame.View

/-!
# Frames

A frame is a header, a body of equally sized items and padding up to a whole number of blocks.
`Frame` keeps the bytes of exactly one frame together with its header and with the facts that a
header has to satisfy for its items to lie inside: no item can be cut short.
-/

namespace PulseHits

namespace Frame

/-- The sizes declared by a header agree with each other: the header has its fixed part and ends
inside the frame, and the items follow it and end inside the frame. -/
structure Header.Consistent (h : Header) : Prop where
  header_ge : minHeaderSize ≤ h.headerBytes
  header_le : h.headerBytes ≤ h.frameBytes
  item_pos : 0 < h.itemCount → 0 < h.itemSize
  items_le : h.headerBytes + h.itemCount * h.itemSize ≤ h.frameBytes

end Frame

/-- The bytes of one whole frame and its header. -/
structure Frame where
  bytes : Bytes
  header : Frame.Header
  parse_eq : Frame.Header.parse bytes = .ok header
  length_eq : bytes.length = header.frameBytes
  consistent : header.Consistent

namespace Frame

/-- The frame at the start of a byte string; what follows it is dropped. -/
def parse (b : Bytes) : Except Error Frame :=
  match hp : Header.parse b with
  | .error e => .error e
  | .ok h =>
    if hlen : b.length < h.frameBytes then .error (.tooShort b.length h.frameBytes)
    else if hsize : h.headerBytes < minHeaderSize ∨ h.frameBytes < h.headerBytes then
      .error (.headerSize h.headerBytes)
    else if hzero : h.itemSize = 0 ∧ 0 < h.itemCount then .error (.zeroItemSize h.itemCount)
    else if hover : h.frameBytes < h.headerBytes + h.itemCount * h.itemSize then
      .error (.itemOverrun h.itemCount h.itemSize h.frameBytes)
    else .ok {
      bytes := b.take h.frameBytes
      header := h
      parse_eq := by
        rw [Header.parse, Header.read?_take (by omega), ← Header.parse, hp]
      length_eq := by simp only [List.length_take]; omega
      consistent := ⟨by omega, by omega, by omega, by omega⟩ }

/-- The items of a frame follow its header without gaps. Header fields can be read in the whole
header, beyond its fixed part too. -/
def view (f : Frame) : View :=
  let stored := f.bytes.toArray
  let header := f.bytes.take f.header.headerBytes
  { itemCount := f.header.itemCount
    itemAt := fun i =>
      if i < f.header.itemCount then
        let start := f.header.headerBytes + i * f.header.itemSize
        some ⟨(stored.extract start (start + f.header.itemSize)).toList⟩
      else none
    headerField := Bits.load header }

end Frame

end PulseHits
