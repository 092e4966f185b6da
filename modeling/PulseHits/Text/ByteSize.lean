import PulseHits.Number.Logarithm

/-!
# Byte sizes

A number of bytes as people read it: in the greatest unit of a power of 1024 that is not larger,
with one decimal unless that is zero. The power is found by a logarithm in double precision, and the
number is what remains of it, so that a size halfway between two decimals may fall to either.
-/

namespace PulseHits.Text

open Number (Binary64 Format twoPower)

def sizeUnits : List String :=
  ["B", "KiB", "MiB", "GiB", "TiB", "PiB", "EiB", "ZiB", "YiB"]

/-- The exponent that makes 1024 the given size. -/
def sizeExponent (bytes : Nat) : Rat :=
  (Binary64.log10 bytes / Binary64.log10 1024).value

/-- The tenths of a number, the nearest whole number of them; of two equally near the even one. -/
def tenths (q : Rat) : Nat :=
  Format.roundHalfEven (10 * q.num.natAbs) q.den

def byteSize (bytes : Nat) : String :=
  if bytes = 0 then "0 B"
  else
    let exponent := sizeExponent bytes
    let order := exponent.floor
    let n := tenths (Binary64.ofRat (twoPower (10 * (exponent - order)))).value
    let number := if n % 10 = 0 then toString (n / 10) else s!"{n / 10}.{n % 10}"
    number ++ " " ++ sizeUnits.getD order.toNat ""

end PulseHits.Text
