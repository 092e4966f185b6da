/-!
# Arithmetic

The pulse formulas are written once, over any number type with the four operations, the natural
numbers and a test for zero. Read over the rationals they are the formulas of the analysis; read
over binary floating point they are what is stored.
-/

namespace PulseHits

class Arithmetic (α : Type) extends Add α, Sub α, Mul α, Div α, NatCast α where
  isZero : α → Bool

instance : Arithmetic Rat where
  isZero q := q == 0

end PulseHits
