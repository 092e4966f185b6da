/-!
# Numerals

How plain text reads as a number: integers with a sign and decimal, hexadecimal, octal or binary
digits, and decimal fractions with an exponent.
-/

namespace PulseHits.Text

/-- The value of a digit in a base up to sixteen. -/
def digitValue? (base : Nat) (c : Char) : Option Nat :=
  let value :=
    if '0' ≤ c ∧ c ≤ '9' then c.toNat - '0'.toNat
    else if 'a' ≤ c ∧ c ≤ 'f' then c.toNat - 'a'.toNat + 10
    else if 'A' ≤ c ∧ c ≤ 'F' then c.toNat - 'A'.toNat + 10
    else base
  if value < base then some value else none

/-- The number written by one or more digits. -/
def natural? (base : Nat) : (digits : List Char) → Option Nat
  | [] => none
  | digits => digits.foldlM (fun n c => (digitValue? base c).map (base * n + ·)) 0

def startsWithSign : List Char → Bool
  | '+' :: _ | '-' :: _ => true
  | _ => false

/-- Drops one plus sign, which may not stand in front of another sign. -/
def dropPlus? : List Char → Option (List Char)
  | '+' :: rest => if startsWithSign rest then none else some rest
  | chars => some chars

/-- A numeral with the base in front of its digits. -/
def based? : List Char → Option Nat
  | '0' :: 'x' :: digits => natural? 16 digits
  | '0' :: 'o' :: digits => natural? 8 digits
  | '0' :: 'b' :: digits => natural? 2 digits
  | _ => none

def dropSign : List Char → List Char
  | '+' :: rest | '-' :: rest => rest
  | chars => chars

/-- Several digits of which the first is zero: not a number, whatever the sign. -/
def hasLeadingZero (chars : List Char) : Bool :=
  match dropSign chars with
  | '0' :: c :: rest => (c :: rest).all Char.isDigit
  | _ => false

/-- The integer that a text reads as. -/
def integer? (chars : List Char) : Option Int :=
  match dropPlus? chars with
  | none => none
  | some unsigned =>
    match based? unsigned with
    | some n => some n
    | none =>
      if hasLeadingZero chars then none
      else
        match unsigned with
        | '-' :: rest =>
          match based? rest with
          | some n => some (-n)
          | none => (natural? 10 rest).map fun n => -(n : Int)
        | _ => (natural? 10 unsigned).map fun n => (n : Int)

/-! ## Decimal fractions -/

/-- A decimal fraction: the digits without the point, and the power of ten of the last one. -/
structure Decimal where
  digits : Nat
  exponent : Int
  deriving DecidableEq, Repr

namespace Decimal

/-- The numerator of the value as a quotient. -/
def num (d : Decimal) : Nat :=
  d.digits * Nat.pow 10 d.exponent.toNat

/-- The denominator of the value as a quotient. -/
def den (d : Decimal) : Nat :=
  Nat.pow 10 (-d.exponent).toNat

end Decimal

/-- The exponent at the end of a decimal fraction. -/
def exponent? : List Char → Option Int
  | [] => some 0
  | e :: rest =>
    if e == 'e' || e == 'E' then
      match rest with
      | '-' :: digits => (natural? 10 digits).map fun n => -(n : Int)
      | '+' :: digits => (natural? 10 digits).map fun n => (n : Int)
      | digits => (natural? 10 digits).map fun n => (n : Int)
    else none

/-- The magnitude that a text with an optional minus sign reads as. -/
def decimal? (chars : List Char) : Option Decimal :=
  let chars := match chars with
    | '-' :: rest => rest
    | _ => chars
  let whole := chars.takeWhile Char.isDigit
  let rest := chars.drop whole.length
  let (places, rest) := match rest with
    | '.' :: rest =>
      let places := rest.takeWhile Char.isDigit
      (places, rest.drop places.length)
    | _ => ([], rest)
  match natural? 10 (whole ++ places), exponent? rest with
  | some digits, some e => some ⟨digits, e - places.length⟩
  | _, _ => none

/-- Whether a number rounds to a finite double: it is below the middle between the greatest double
and the power of two after it. Exponents that decide alone are not expanded. -/
def Decimal.isFiniteDouble (d : Decimal) : Bool :=
  let bound := 1 <<< 1024 - 1 <<< 970
  let places : Int := (toString d.digits).length
  if d.digits = 0 || places + d.exponent < 300 then true
  else if 320 < places + d.exponent then false
  else d.num < bound * d.den

end PulseHits.Text
