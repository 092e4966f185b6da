import PulseHits.Bytes

/-!
# Bit fields

A byte string is also a string of bits, most significant bit of the first byte first. A field is
given by the number of bits before it and its width; its value is the number those bits write. Only
the bytes that the field touches are read, so a field costs the same wherever it lies.
-/

namespace PulseHits.Bits

/-- The widest field that can be read. -/
def maxWidth : Nat := 64

/-- The number written by the `width` bits that follow the first `offset` bits. A field without
width, wider than `maxWidth` or not wholly inside the byte string reads as zero. -/
def load (b : Bytes) (offset width : Nat) : Nat :=
  if width = 0 ∨ maxWidth < width ∨ 8 * b.length < offset + width then 0
  else
    let first := offset / 8
    let last := (offset + width + 7) / 8
    (b.fieldBE first (last - first) >>> (8 * last - (offset + width))) % (1 <<< width)

/-- The same numbered from the other end: `offset` bits follow the field. -/
def loadFromEnd (b : Bytes) (offset width : Nat) : Nat :=
  let total := 8 * b.length
  if total < offset + width then 0 else load b (total - offset - width) width

theorem load_lt (b : Bytes) (offset width : Nat) : load b offset width < 1 <<< width := by
  have hpos : 0 < 1 <<< width := by
    rw [Nat.one_shiftLeft]
    exact Nat.two_pow_pos width
  unfold load
  split
  · exact hpos
  · exact Nat.mod_lt _ hpos

theorem loadFromEnd_lt (b : Bytes) (offset width : Nat) :
    loadFromEnd b offset width < 1 <<< width := by
  unfold loadFromEnd
  simp only
  split
  · rw [Nat.one_shiftLeft]
    exact Nat.two_pow_pos width
  · exact load_lt b _ width

end PulseHits.Bits
