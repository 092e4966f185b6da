/-!
# Hexadecimal numerals
-/

namespace PulseHits.Text

def hexDigit (n : Nat) : Char :=
  if n < 10 then Char.ofNat ('0'.toNat + n) else Char.ofNat ('a'.toNat + (n - 10))

def hexDigitUpper (n : Nat) : Char :=
  (hexDigit n).toUpper

/-- The value of a hexadecimal digit, in either case. -/
def hexValue? (c : Char) : Option Nat :=
  if '0' ≤ c ∧ c ≤ '9' then some (c.toNat - '0'.toNat)
  else if 'a' ≤ c ∧ c ≤ 'f' then some (c.toNat - 'a'.toNat + 10)
  else if 'A' ≤ c ∧ c ≤ 'F' then some (c.toNat - 'A'.toNat + 10)
  else none

/-- Exactly `width` digits, the most significant first; higher digits are dropped. -/
def hexFixed (digit : Nat → Char) : (width : Nat) → Nat → List Char
  | 0, _ => []
  | w + 1, n => hexFixed digit w (n / 16) ++ [digit (n % 16)]

/-- As many digits as the number has, at least one. -/
def hex (n : Nat) : List Char :=
  hexFixed hexDigit (n.log2 / 4 + 1) n

end PulseHits.Text
