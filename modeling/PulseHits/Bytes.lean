/-!
# Byte strings

A byte string is a list of octets, and a fixed-width number in it is read in base 256: most
significant byte first in the frames of the acquisition electronics, least significant byte first
in the hit files.
-/

namespace PulseHits

abbrev Bytes := List UInt8

namespace Bytes

/-- The number that a byte string writes, most significant byte first. -/
def toNatBE (b : Bytes) : Nat :=
  b.foldl (fun n x => 256 * n + x.toNat) 0

/-- The number that a byte string writes, least significant byte first. -/
def toNatLE : Bytes → Nat
  | [] => 0
  | x :: r => x.toNat + 256 * toNatLE r

/-- The `width` lowest base-256 digits of a number, least significant first. -/
def ofNatLE : (width : Nat) → Nat → Bytes
  | 0, _ => []
  | w + 1, n => UInt8.ofNat n :: ofNatLE w (n / 256)

/-- The `width` lowest base-256 digits of a number, most significant first. -/
def ofNatBE (width n : Nat) : Bytes :=
  (ofNatLE width n).reverse

/-- The `count` bytes from position `start` on, fewer if the string ends before. -/
def slice (b : Bytes) (start count : Nat) : Bytes :=
  (b.drop start).take count

/-- The field of `width` bytes at position `start`, most significant byte first. -/
def fieldBE (b : Bytes) (start width : Nat) : Nat :=
  (b.slice start width).toNatBE

/-- The field of `width` bytes at position `start`, least significant byte first. -/
def fieldLE (b : Bytes) (start width : Nat) : Nat :=
  (b.slice start width).toNatLE

/-! ## Widths -/

@[simp] theorem length_ofNatLE (w n : Nat) : (ofNatLE w n).length = w := by
  induction w generalizing n with
  | zero => rfl
  | succ w ih => simp [ofNatLE, ih]

@[simp] theorem length_ofNatBE (w n : Nat) : (ofNatBE w n).length = w := by
  simp [ofNatBE]

theorem slice_take {b : Bytes} {start width count : Nat} (h : start + width ≤ count) :
    slice (b.take count) start width = b.slice start width := by
  simp only [slice, List.drop_take, List.take_take]
  congr 1
  omega

theorem fieldBE_take {b : Bytes} {start width count : Nat} (h : start + width ≤ count) :
    fieldBE (b.take count) start width = b.fieldBE start width := by
  rw [fieldBE, slice_take h, fieldBE]

end Bytes

end PulseHits
