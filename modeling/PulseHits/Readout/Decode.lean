import PulseHits.Channel.Accumulator
import PulseHits.Notice
import PulseHits.Readout.Class

/-!
# From items to samples

A partial readout names chip, channel and time bucket in every item. A full readout names only the
chip: its channels take turns from the first to the last, and the bucket of a sample is the number
of samples that its channel has already.
-/

namespace PulseHits.Readout

open Channel (Accumulator Key Sample)

/-- Why a frame cannot be decoded. -/
inductive DecodeError where
  | itemSize (index size : Nat)
  deriving DecidableEq, Repr

/-- Bytes in an item of a partial readout. -/
def partialItemSize : Nat := 4

/-- Bytes in an item of a full readout. -/
def fullItemSize : Nat := 2

def DecodeError.message : DecodeError → String
  | .itemSize index size =>
    s!"Incorrect item size {size} found at item {index} of a partial readout frame; " ++
      s!"expected {partialItemSize}"

/-! ## Partial readout -/

/-- The contents of a partial readout item. -/
structure PartialItem where
  aget : Nat
  channel : Nat
  sample : Sample
  deriving DecidableEq, Repr

/-- Counted from the last bit: twelve bits of value, two unused, nine of bucket, seven of channel
and two of chip. -/
def PartialItem.ofItem (i : Item) : PartialItem where
  aget := i.field 30 2
  channel := i.field 23 7
  sample := ⟨(i.field 14 9).toUInt32, (i.field 0 12).toUInt16⟩

/-- The item at `index` names a channel that no chip has. -/
def PartialItem.droppedNotice (p : PartialItem) (index : Nat) : Notice where
  level := .warn
  text := s!"Dropping item {index} of partial readout frame with invalid channel {p.channel} " ++
    s!"(AGET {p.aget})"

/-- The channels after decoding, with what there was to say and what stopped it. -/
structure Decoded where
  channels : Accumulator
  notices : List Notice
  error? : Option DecodeError

/-- Decodes the items from number `index` on. An item of another size stops the decoding, and what
was decoded before it stays; an item of a channel that does not exist is dropped. -/
def decodePartialFrom (index : Nat) : List Item → Accumulator → List Notice → Decoded
  | [], channels, notices => ⟨channels, notices.reverse, none⟩
  | item :: items, channels, notices =>
    if item.size ≠ partialItemSize then
      ⟨channels, notices.reverse, some (.itemSize index item.size)⟩
    else
      let p := PartialItem.ofItem item
      match Key.ofPair? p.aget p.channel with
      | some key => decodePartialFrom (index + 1) items (channels.push key p.sample) notices
      | none => decodePartialFrom (index + 1) items channels (p.droppedNotice index :: notices)

def decodePartial (items : List Item) (channels : Accumulator) : Decoded :=
  decodePartialFrom 0 items channels []

/-! ## Full readout -/

/-- The contents of a full readout item. -/
structure FullItem where
  aget : Fin Channel.chipCount
  value : UInt16
  deriving DecidableEq, Repr

/-- Counted from the last bit: twelve bits of value, two unused and two of chip. Nothing asks for
the size of the item; a field outside it reads as zero. -/
def FullItem.ofItem (i : Item) : FullItem where
  aget := Fin.ofNat _ (i.field 14 2)
  value := (i.field 0 12).toUInt16

/-- Which channel of each chip comes next. -/
abbrev Turns := Vector (Fin Channel.channelCount) Channel.chipCount

def Turns.start : Turns :=
  Vector.replicate _ 0

/-- Gives the sample to the channel of its chip whose turn it is. -/
def decodeFullStep (state : Turns × Accumulator) (item : Item) : Turns × Accumulator :=
  let (turns, channels) := state
  let f := FullItem.ofItem item
  let channel := turns[f.aget]
  let key : Key := ⟨f.aget, channel⟩
  let sample : Sample := ⟨(channels.count key).toUInt32, f.value⟩
  (turns.set f.aget (channel + 1), channels.push key sample)

def decodeFull (items : List Item) (channels : Accumulator) : Accumulator :=
  (items.foldl decodeFullStep (Turns.start, channels)).2

end PulseHits.Readout
