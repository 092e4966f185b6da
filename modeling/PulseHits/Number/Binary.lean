/-!
# Binary floating point

The interchange formats of IEEE 754 and their arithmetic. A bit pattern stands for a number with a
sign, an infinity or no number at all; an operation gives the exact result, and `Format.encode`
rounds it once to the nearest number of the format, a tie to the one whose last bit is zero.
Everything is computed on integers and rationals, so that statements about rounding can be proved.
-/

namespace PulseHits.Number

/-- What a bit pattern stands for. The sign of a finite value matters only where it is zero. -/
inductive Datum where
  | nan
  | infinity (negative : Bool)
  | finite (negative : Bool) (value : Rat)
  deriving DecidableEq

namespace Datum

def ofNat (n : Nat) : Datum :=
  .finite false n

/-- A sum that is zero is negative only if both terms are. -/
def add : Datum → Datum → Datum
  | .nan, _ | _, .nan => .nan
  | .infinity s, .infinity t => if s = t then .infinity s else .nan
  | .infinity s, .finite _ _ => .infinity s
  | .finite _ _, .infinity t => .infinity t
  | .finite s p, .finite t q =>
    let sum := p + q
    .finite (if sum = 0 then s && t else sum < 0) sum

def neg : Datum → Datum
  | .nan => .nan
  | .infinity s => .infinity !s
  | .finite s p => .finite (!s) (-p)

def sub (x y : Datum) : Datum :=
  x.add y.neg

def mul : Datum → Datum → Datum
  | .nan, _ | _, .nan => .nan
  | .infinity s, .infinity t => .infinity (s ^^ t)
  | .infinity s, .finite t q | .finite t q, .infinity s =>
    if q = 0 then .nan else .infinity (s ^^ t)
  | .finite s p, .finite t q => .finite (s ^^ t) (p * q)

def div : Datum → Datum → Datum
  | .nan, _ | _, .nan => .nan
  | .infinity _, .infinity _ => .nan
  | .infinity s, .finite t _ => .infinity (s ^^ t)
  | .finite s _, .infinity t => .finite (s ^^ t) 0
  | .finite s p, .finite t q =>
    if q = 0 then if p = 0 then .nan else .infinity (s ^^ t)
    else .finite (s ^^ t) (p / q)

def isZero : Datum → Bool
  | .finite _ q => q == 0
  | _ => false

def isFinite : Datum → Bool
  | .finite _ _ => true
  | _ => false

end Datum

/-! ## Formats -/

/-- The sizes of the fields of a bit pattern: a sign bit, the exponent field and the fraction. -/
structure Format where
  exponentBits : Nat
  fractionBits : Nat
  deriving DecidableEq, Repr

namespace Format

/-- The exponent of the last place of the smallest numbers. -/
def leastExponent (f : Format) : Int :=
  2 - (1 <<< (f.exponentBits - 1) : Nat) - f.fractionBits

def signPlace (f : Format) : Nat :=
  1 <<< (f.exponentBits + f.fractionBits)

/-- The pattern of positive infinity, the first that is no finite number. -/
def infinityBits (f : Format) : Nat :=
  (1 <<< f.exponentBits - 1) <<< f.fractionBits

/-- The pattern given to results that are no number. -/
def nanBits (f : Format) : Nat :=
  f.infinityBits + 1 <<< (f.fractionBits - 1)

/-- The rational `significand * 2 ^ exponent`. -/
def scale (significand : Nat) (exponent : Int) : Rat :=
  mkRat (significand <<< exponent.toNat : Nat) (1 <<< (-exponent).toNat)

/-- The significand and the exponent of its last place in a pattern without sign. -/
def parts (f : Format) (bits : Nat) : Nat × Int :=
  let exponentField := bits >>> f.fractionBits
  let fraction := bits % (1 <<< f.fractionBits)
  if exponentField = 0 then (fraction, f.leastExponent)
  else (1 <<< f.fractionBits + fraction, f.leastExponent + (exponentField - 1))

def decode (f : Format) (bits : Nat) : Datum :=
  let negative := bits / f.signPlace % 2 = 1
  let magnitude := bits % f.signPlace
  if magnitude < f.infinityBits then
    let (significand, exponent) := f.parts magnitude
    let value := scale significand exponent
    .finite negative (if negative then -value else value)
  else if magnitude = f.infinityBits then .infinity negative
  else .nan

/-- The integer nearest to `a / b`; of two equally near the even one. -/
def roundHalfEven (a b : Nat) : Nat :=
  let q := a / b
  let r := a % b
  if 2 * r < b ∨ 2 * r = b ∧ q % 2 = 0 then q else q + 1

/-- The exponent of the greatest power of two that is at most `num / den`. -/
def floorLog2 (num den : Nat) : Int :=
  let k : Int := num.log2 - den.log2
  if num <<< (-k).toNat < den <<< k.toNat then k - 1 else k

/-- The pattern, without sign, nearest to `num / den`. Patterns are ordered as their values are and
follow each other without gaps, so a significand that is rounded up to the next power of two needs
no special care. -/
def roundMagnitude (f : Format) (num den : Nat) : Nat :=
  if num = 0 then 0
  else
    let exponent := max (floorLog2 num den - f.fractionBits) f.leastExponent
    let significand := roundHalfEven (num <<< (-exponent).toNat) (den <<< exponent.toNat)
    min ((exponent - f.leastExponent).toNat <<< f.fractionBits + significand) f.infinityBits

/-- The pattern of the number of the format that is nearest. -/
def encode (f : Format) : Datum → Nat
  | .nan => f.nanBits
  | .infinity negative => (if negative then f.signPlace else 0) + f.infinityBits
  | .finite negative value =>
    (if negative then f.signPlace else 0) + f.roundMagnitude value.num.natAbs value.den

end Format

end PulseHits.Number
