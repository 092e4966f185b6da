import PulseHits.Bits

/-!
# Items and frame views

Hit extraction asks little of a frame: a header that can be read bit field by bit field, and a
body of items. A `View` offers just that, whatever holds the bytes. Item bit fields are counted
from the last bit of the item, header bit fields from the first bit of the header.
-/

namespace PulseHits

/-- One word of a frame body. -/
structure Item where
  bytes : Bytes
  deriving DecidableEq, Repr

namespace Item

def size (i : Item) : Nat :=
  i.bytes.length

/-- The field of `width` bits that has `offset` bits after it, zero if it does not fit. -/
def field (i : Item) (offset width : Nat) : Nat :=
  Bits.loadFromEnd i.bytes offset width

theorem field_lt (i : Item) (offset width : Nat) : i.field offset width < 1 <<< width :=
  Bits.loadFromEnd_lt i.bytes offset width

end Item

/-- What a frame has to offer for hit extraction. -/
structure View where
  itemCount : Nat
  /-- The item at an index; `none` past the end of the body. -/
  itemAt : Nat → Option Item
  /-- The header field of a given offset and width in bits. -/
  headerField : Nat → Nat → Nat

namespace View

/-- At most `count` items from `index` on, up to the first that is missing, after those in `seen`. -/
def collect (v : View) (index : Nat) : (count : Nat) → (seen : Array Item) → Array Item
  | 0, seen => seen
  | n + 1, seen =>
    match v.itemAt index with
    | none => seen
    | some item => v.collect (index + 1) n (seen.push item)

/-- The items of the frame in order, up to the count or the first that is missing. -/
def items (v : View) : List Item :=
  (v.collect 0 v.itemCount #[]).toList

end View

end PulseHits
