import PulseHits.Number.Binary64
import PulseHits.Text.Numeral

/-!
# Shortest decimals

The text of a double has the fewest digits that read back as the same number, and of those the
nearest to it; the greater one if two are equally near. It never has an exponent.
-/

namespace PulseHits.Number

open Text (Decimal)

/-- The exponent of the greatest power of ten that is at most `num / den`. -/
def floorLog10 (num den : Nat) : Int :=
  let places (n : Nat) : Int := (Nat.toDigits 10 n).length
  let k := places num - places den
  if num * Nat.pow 10 (-k).toNat < den * Nat.pow 10 k.toNat then k - 1 else k

namespace Format

/-- Whether the number of the format nearest to a decimal has the given pattern. -/
def readsBack (f : Format) (magnitude : Nat) (d : Decimal) : Bool :=
  f.roundMagnitude d.num d.den == magnitude

/-- A decimal with the given last place that reads back as the number `num / den`, whose pattern
is `magnitude`. Only the two that are next to the number can do so. -/
def decimalAt? (f : Format) (magnitude num den : Nat) (exponent : Int) : Option Decimal :=
  let num := num * Nat.pow 10 (-exponent).toNat
  let den := den * Nat.pow 10 exponent.toNat
  let below : Decimal := ⟨num / den, exponent⟩
  let above : Decimal := ⟨num / den + 1, exponent⟩
  let nearer := if 2 * (num % den) < den then [below, above] else [above, below]
  nearer.find? (f.readsBack magnitude)

/-- The decimal for a positive number. Seventeen digits tell all doubles apart. -/
def shortest (f : Format) (magnitude num den : Nat) : Decimal :=
  let first := floorLog10 num den
  let found := (List.range 17).findSome? fun (places : Nat) =>
    f.decimalAt? magnitude num den (first - places)
  found.getD ⟨num / den, 0⟩

end Format

/-! ## Text -/

/-- The text of a decimal, with a point if it has places that are not zero. -/
def positional (d : Decimal) : String :=
  let places := (-d.exponent).toNat
  let fraction := (Nat.toDigits 10 (d.num % d.den)).leftpad places '0'
  let kept := (fraction.reverse.dropWhile (· == '0')).reverse
  toString (d.num / d.den) ++ String.ofList (if kept.isEmpty then [] else '.' :: kept)

def Binary64.text (x : Binary64) : String :=
  match x.datum with
  | .nan => "NaN"
  | .infinity negative => if negative then "-inf" else "inf"
  | .finite negative value =>
    let magnitude := x.bits.toNat % double.signPlace
    let digits :=
      if value = 0 then "0"
      else positional (double.shortest magnitude value.num.natAbs value.den)
    if negative then "-" ++ digits else digits

end PulseHits.Number
