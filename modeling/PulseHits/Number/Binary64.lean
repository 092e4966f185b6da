import PulseHits.Number.Arithmetic
import PulseHits.Number.Binary

/-!
# Double precision

The 64-bit format. A number is kept as its bit pattern, which is also what is stored, so equality
tells the two zeros and the many patterns that are no number apart.
-/

namespace PulseHits.Number

def double : Format := ⟨11, 52⟩

structure Binary64 where
  bits : UInt64
  deriving DecidableEq, Repr, Inhabited

namespace Binary64

def datum (x : Binary64) : Datum :=
  double.decode x.bits.toNat

/-- The double nearest to an exact result. -/
def ofDatum (d : Datum) : Binary64 :=
  ⟨(double.encode d).toUInt64⟩

def ofRat (q : Rat) : Binary64 :=
  ofDatum (.finite (q < 0) q)

instance : Add Binary64 := ⟨fun x y => ofDatum (x.datum.add y.datum)⟩
instance : Sub Binary64 := ⟨fun x y => ofDatum (x.datum.sub y.datum)⟩
instance : Mul Binary64 := ⟨fun x y => ofDatum (x.datum.mul y.datum)⟩
instance : Div Binary64 := ⟨fun x y => ofDatum (x.datum.div y.datum)⟩
instance : NatCast Binary64 := ⟨fun n => ofDatum (.ofNat n)⟩

instance : Arithmetic Binary64 where
  isZero x := x.datum.isZero

/-- The value of a finite number. -/
def value (x : Binary64) : Rat :=
  match x.datum with
  | .finite _ q => q
  | _ => 0

def isNaN (x : Binary64) : Bool :=
  x.datum == .nan

end Binary64

end PulseHits.Number
