import PulseHits.Number.Binary64

/-!
# Single precision

The 32-bit format, in which progress is reported.
-/

namespace PulseHits.Number

def single : Format := ⟨8, 23⟩

structure Binary32 where
  bits : UInt32
  deriving DecidableEq, Repr, Inhabited

namespace Binary32

def datum (x : Binary32) : Datum :=
  single.decode x.bits.toNat

/-- The single nearest to an exact result. -/
def ofDatum (d : Datum) : Binary32 :=
  ⟨(single.encode d).toUInt32⟩

def ofRat (q : Rat) : Binary32 :=
  ofDatum (.finite (q < 0) q)

instance : Add Binary32 := ⟨fun x y => ofDatum (x.datum.add y.datum)⟩

/-- The same number in double precision. -/
def toBinary64 (x : Binary32) : Binary64 :=
  .ofDatum x.datum

end Binary32

end PulseHits.Number
