import PulseHits.Number.Binary64

/-!
# Logarithms and powers

The decimal logarithm of a natural number in double precision, and powers of two with fractional
exponents. The series are summed over the rationals, with so many terms that what is left out is
below `2 ^ -200`, and rounded once.
-/

namespace PulseHits.Number

/-! ## Series -/

/-- The sum `x + x ^ 3 / 3 + x ^ 5 / 5 + …`, half the logarithm of `(1 + x) / (1 - x)`, for
arguments up to one third. -/
def artanh (x : Rat) : Rat :=
  x * (List.range 64).foldr (fun i rest => 1 / ((2 * i + 1 : Nat) : Rat) + x * x * rest) 0

/-- The natural logarithm, for arguments from one to two. -/
def ln (q : Rat) : Rat :=
  2 * artanh ((q - 1) / (q + 1))

/-- The sum `1 + x + x ^ 2 / 2! + …`, for arguments from zero to one. -/
def exp (x : Rat) : Rat :=
  (List.range 48).foldr (fun i rest => 1 + x / ((i + 1 : Nat) : Rat) * rest) 1

/-- The power of two with an exponent that is not negative. -/
def twoPower (exponent : Rat) : Rat :=
  let whole := exponent.floor.toNat
  ((1 <<< whole : Nat) : Rat) * exp ((exponent - (whole : Rat)) * ln 2)

@[simp] theorem artanh_zero : artanh 0 = 0 :=
  Rat.zero_mul _

@[simp] theorem ln_one : ln 1 = 0 := by
  rw [ln, Rat.sub_self, Rat.div_def, Rat.zero_mul, artanh_zero, Rat.mul_zero]

namespace Binary64

/-! ## The decimal logarithm -/

/-- The first forty binary digits of the decimal logarithm of two. Small multiples are exact. -/
def log10TwoHead : Binary64 :=
  ⟨0x3fd34413509f6000⟩

/-- The decimal logarithm of two less its first digits. -/
def log10TwoRest : Binary64 :=
  ⟨0x3d59fef311f12b36⟩

/-- The decimal logarithm of the base of the natural logarithms. -/
def log10E : Binary64 :=
  ⟨0x3fdbcb7b1526e50e⟩

/-- The decimal logarithm of a positive number, which is a power of two times a factor below two.
The logarithms of both are added, the small part of the first before its head. -/
def log10 (n : Nat) : Binary64 :=
  let exponent : Binary64 := (n.log2 : Binary64)
  let factor := ofRat (ln (mkRat n (1 <<< n.log2)))
  exponent * log10TwoRest + log10E * factor + exponent * log10TwoHead

end Binary64

end PulseHits.Number
