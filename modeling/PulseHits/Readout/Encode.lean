import PulseHits.Readout.Decode

/-!
# From samples to items

The words of the items, with the unused bits left zero.
-/

namespace PulseHits.Readout

/-- The number that a partial readout item writes. -/
def PartialItem.word (p : PartialItem) : Nat :=
  p.aget <<< 30 + p.channel <<< 23 + p.sample.bucket.toNat <<< 14 + p.sample.value.toNat

def PartialItem.encode (p : PartialItem) : Bytes :=
  .ofNatBE partialItemSize p.word

/-- The number that a full readout item writes. -/
def FullItem.word (f : FullItem) : Nat :=
  f.aget.val <<< 14 + f.value.toNat

def FullItem.encode (f : FullItem) : Bytes :=
  .ofNatBE fullItemSize f.word

end PulseHits.Readout
