import PulseHits.Bytes
import PulseHits.IoError
import PulseHits.Number.Binary64
import PulseHits.Pulse.Extract

/-!
# Hits

A hit is the pulse of one channel of one frame: where it was seen, and its features in double
precision. Stored, it is a record of forty bytes, four 32-bit numbers and three 64-bit patterns,
all least significant byte first.
-/

namespace PulseHits

open Number (Binary64)

structure Hit where
  cobo : UInt32
  asad : UInt32
  aget : UInt32
  channel : UInt32
  /-- Centroid, in time buckets. -/
  time : Binary64
  /-- Interpolated height above the baseline. -/
  peak : Binary64
  /-- Sum of the heights above the baseline. -/
  integral : Binary64
  deriving DecidableEq, Repr

namespace Hit

/-- The hit of a channel of the boards `cobo` and `asad`; a channel without samples has none. -/
def ofTrace? (cobo asad : UInt8) (key : Channel.Key) (samples : List Channel.Sample) :
    Option Hit :=
  (Pulse.features? (α := Binary64) samples).map fun f =>
    { cobo := cobo.toUInt32
      asad := asad.toUInt32
      aget := key.aget.val.toUInt32
      channel := key.channel.val.toUInt32
      time := f.time
      peak := f.peak
      integral := f.integral }

/-! ## Records -/

/-- The length of a record. -/
def recordSize : Nat := 40

def toBytes (h : Hit) : Bytes :=
  Bytes.ofNatLE 4 h.cobo.toNat ++ Bytes.ofNatLE 4 h.asad.toNat ++
    Bytes.ofNatLE 4 h.aget.toNat ++ Bytes.ofNatLE 4 h.channel.toNat ++
    Bytes.ofNatLE 8 h.time.bits.toNat ++ Bytes.ofNatLE 8 h.peak.bits.toNat ++
    Bytes.ofNatLE 8 h.integral.bits.toNat

/-- The hit in the first `recordSize` bytes. -/
def ofBytes (b : Bytes) : Hit where
  cobo := (b.fieldLE 0 4).toUInt32
  asad := (b.fieldLE 4 4).toUInt32
  aget := (b.fieldLE 8 4).toUInt32
  channel := (b.fieldLE 12 4).toUInt32
  time := ⟨(b.fieldLE 16 8).toUInt64⟩
  peak := ⟨(b.fieldLE 24 8).toUInt64⟩
  integral := ⟨(b.fieldLE 32 8).toUInt64⟩

/-- Takes a record off the front of a byte string and gives what is left. -/
def read (b : Bytes) : Except IoError (Hit × Bytes) :=
  if b.length < recordSize then .error .endsInField
  else .ok (ofBytes (b.take recordSize), b.drop recordSize)

end Hit

end PulseHits
