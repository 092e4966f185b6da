import Mathlib.Algebra.Order.Field.Power
import Mathlib.Algebra.Order.Field.Rat
import Mathlib.Tactic.GCongr
import Mathlib.Tactic.Linarith
import Mathlib.Tactic.NormNum
import Mathlib.Tactic.Positivity
import Mathlib.Tactic.Ring
import PulseHits.Number.Binary32

/-!
# What rounding does to a number

A pattern without sign is an exponent and a significand, and it stands for so many places of that
exponent (`magnitudeValue_add`). Rounding moves the significand by half a place at most
(`abs_roundHalfEven_sub_le`), and in the range of the normal numbers that is a fixed fraction of the
number (`IsRounded.abs_sub_le`). So what is stored of a number of ordinary size is the number up to
that fraction (`Binary64.exists_datum_ofDatum`).
-/

namespace PulseHits.Number

/-! ## Powers of two -/

theorem natCast_shiftLeft (n k : Nat) : ((n <<< k : Nat) : Rat) = n * 2 ^ k := by
  rw [Nat.shiftLeft_eq]
  push_cast
  rfl

theorem mul_two_pow_div_mul_two_pow (a b : Rat) (e : Int) :
    a * 2 ^ e.toNat / (b * 2 ^ (-e).toNat) = a / b * 2 ^ e := by
  rcases le_total 0 e with he | he
  · obtain ⟨n, rfl⟩ := Int.eq_ofNat_of_zero_le he
    simp [mul_div_right_comm]
  · obtain ⟨n, rfl⟩ := Int.exists_eq_neg_ofNat he
    simp [div_mul_eq_div_div, ← div_eq_mul_inv]

theorem lt_of_two_zpow_lt {e e' : Int} (h : (2 : Rat) ^ e < 2 ^ e') : e < e' :=
  (zpow_lt_zpow_iff_right₀ (by norm_num)).mp h

namespace Format

theorem scale_eq (significand : Nat) (exponent : Int) :
    scale significand exponent = significand * 2 ^ exponent := by
  have h := mul_two_pow_div_mul_two_pow significand 1 exponent
  rw [div_one, one_mul] at h
  rw [scale, Rat.mkRat_eq_div, ← h, Int.cast_natCast, natCast_shiftLeft, natCast_shiftLeft,
    Nat.cast_one, one_mul]

/-! ## The exponent -/

theorem natCast_shiftLeft_lt_iff {num den : Nat} (hden : 0 < den) (k : Int) :
    num <<< (-k).toNat < den <<< k.toNat ↔ (num : Rat) / den < 2 ^ k := by
  have hden' : (0 : Rat) < den := by exact_mod_cast hden
  have hscaled := mul_two_pow_div_mul_two_pow den 1 k
  rw [div_one, one_mul, div_eq_iff (by positivity)] at hscaled
  rw [← Nat.cast_lt (α := Rat), natCast_shiftLeft, natCast_shiftLeft, hscaled, div_lt_iff₀ hden',
    mul_comm _ (den : Rat)]
  exact mul_lt_mul_iff_of_pos_right (by positivity)

theorem floorLog2_spec {num den : Nat} (hnum : 0 < num) (hden : 0 < den) :
    (2 : Rat) ^ floorLog2 num den ≤ num / den ∧
      (num : Rat) / den < 2 ^ (floorLog2 num den + 1) := by
  have hden' : (0 : Rat) < den := by exact_mod_cast hden
  have hnumLow : (2 : Rat) ^ num.log2 ≤ num := by exact_mod_cast Nat.log2_self_le hnum.ne'
  have hnumHigh : (num : Rat) < 2 ^ (num.log2 + 1) := by exact_mod_cast Nat.lt_log2_self
  have hdenLow : (2 : Rat) ^ den.log2 ≤ den := by exact_mod_cast Nat.log2_self_le hden.ne'
  have hdenHigh : (den : Rat) < 2 ^ (den.log2 + 1) := by exact_mod_cast Nat.lt_log2_self
  -- by their lengths in bits the quotient is known up to a factor of two
  obtain ⟨k, hk⟩ : ∃ k : Int, k = num.log2 - den.log2 := ⟨_, rfl⟩
  have hlow : (2 : Rat) ^ (k - 1) < num / den := by
    rw [lt_div_iff₀ hden']
    calc (2 : Rat) ^ (k - 1) * den < 2 ^ (k - 1) * 2 ^ (den.log2 + 1) := by gcongr
      _ = 2 ^ num.log2 := by
        rw [← zpow_natCast, ← zpow_natCast, ← zpow_add₀ two_ne_zero]
        congr 1
        push_cast
        omega
      _ ≤ num := hnumLow
  have hhigh : (num : Rat) / den < 2 ^ (k + 1) := by
    rw [div_lt_iff₀ hden']
    calc (num : Rat) < 2 ^ (num.log2 + 1) := hnumHigh
      _ = 2 ^ (k + 1) * 2 ^ den.log2 := by
        rw [← zpow_natCast, ← zpow_natCast, ← zpow_add₀ two_ne_zero]
        congr 1
        push_cast
        omega
      _ ≤ 2 ^ (k + 1) * den := by gcongr
  unfold floorLog2
  simp only [← hk, natCast_shiftLeft_lt_iff hden]
  split
  · next hbelow =>
    rw [Int.sub_add_cancel]
    exact ⟨hlow.le, hbelow⟩
  · next hbelow => exact ⟨not_lt.mp hbelow, hhigh⟩

/-! ## The significand -/

theorem abs_roundHalfEven_sub_le (a : Nat) {b : Nat} (hb : 0 < b) :
    |(roundHalfEven a b : Rat) - a / b| ≤ 1 / 2 := by
  have hb' : (0 : Rat) < b := by exact_mod_cast hb
  have hdivMod : (a : Rat) = b * (a / b : Nat) + (a % b : Nat) := by
    exact_mod_cast (Nat.div_add_mod a b).symm
  have hquotient : (a : Rat) / b = (a / b : Nat) + (a % b : Nat) / b := by
    rw [div_eq_iff hb'.ne', add_mul, div_mul_cancel₀ _ hb'.ne', mul_comm]
    exact hdivMod
  have hrem : (a % b : Nat) < (b : Rat) := by exact_mod_cast Nat.mod_lt a hb
  unfold roundHalfEven
  simp only
  split
  · next hdown =>
    have htwice : 2 * ((a % b : Nat) : Rat) ≤ b := by
      have : 2 * (a % b) ≤ b := by omega
      exact_mod_cast this
    have hpart : ((a % b : Nat) : Rat) / b ≤ 1 / 2 := by
      rw [div_le_iff₀ hb']
      linarith
    have hpart' : (0 : Rat) ≤ (a % b : Nat) / b := by positivity
    rw [hquotient, abs_le]
    constructor <;> linarith
  · next hup =>
    have htwice : (b : Rat) ≤ 2 * (a % b : Nat) := by
      have : b ≤ 2 * (a % b) := by omega
      exact_mod_cast this
    have hpart : 1 / 2 ≤ ((a % b : Nat) : Rat) / b := by
      rw [le_div_iff₀ hb']
      linarith
    have hpart' : ((a % b : Nat) : Rat) / b < 1 := by rwa [div_lt_one hb']
    rw [hquotient, abs_le]
    push_cast
    constructor <;> linarith

theorem roundHalfEven_le {a b n : Nat} (hb : 0 < b) (h : a ≤ n * b) : roundHalfEven a b ≤ n := by
  have hdivMod := Nat.div_add_mod a b
  have hle : a / b ≤ n := Nat.div_le_of_le_mul (by rwa [Nat.mul_comm])
  unfold roundHalfEven
  simp only
  split
  · exact hle
  · next hup =>
    -- a quotient that is rounded up is no whole number
    by_contra hlt
    have heq : a / b = n := by omega
    rw [heq, Nat.mul_comm] at hdivMod
    omega

theorem le_roundHalfEven {a b n : Nat} (hb : 0 < b) (h : n * b ≤ a) : n ≤ roundHalfEven a b := by
  have hle : n ≤ a / b := (Nat.le_div_iff_mul_le hb).mpr h
  unfold roundHalfEven
  simp only
  split
  · exact hle
  · omega

/-! ## Patterns without sign -/

theorem parts_eq (f : Format) (k significand : Nat) :
    let place := 2 ^ f.fractionBits
    f.parts (k <<< f.fractionBits + significand) =
      if k + significand / place = 0 then (significand % place, f.leastExponent)
      else (place + significand % place,
        f.leastExponent + ((k + significand / place : Nat) - 1)) := by
  intro place
  have hfield : (k <<< f.fractionBits + significand) >>> f.fractionBits =
      k + significand / place := by
    rw [Nat.shiftLeft_eq, Nat.shiftRight_eq_div_pow, Nat.mul_comm,
      Nat.mul_add_div (Nat.two_pow_pos _)]
  have hfraction : (k <<< f.fractionBits + significand) % place = significand % place := by
    rw [Nat.shiftLeft_eq, Nat.mul_comm, Nat.mul_add_mod]
  unfold parts
  simp only [hfield, Nat.one_shiftLeft]
  rw [← hfraction]

/-- The number that a pattern without sign stands for. -/
def magnitudeValue (f : Format) (magnitude : Nat) : Rat :=
  scale (f.parts magnitude).1 (f.parts magnitude).2

/-- A significand that is `k` exponents above the least stands for so many places there. Only at the
least exponent may it be short, and it may be one place too long. -/
theorem magnitudeValue_add (f : Format) {k significand : Nat}
    (hle : significand ≤ 2 ^ (f.fractionBits + 1))
    (hlong : k = 0 ∨ 2 ^ f.fractionBits ≤ significand) :
    f.magnitudeValue (k <<< f.fractionBits + significand) =
      significand * 2 ^ (f.leastExponent + k) := by
  unfold magnitudeValue
  rw [parts_eq]
  have hpos : 0 < 2 ^ f.fractionBits := Nat.two_pow_pos _
  rw [Nat.pow_succ] at hle
  generalize 2 ^ f.fractionBits = place at *
  rcases Nat.lt_or_ge significand place with hshort | hge
  · obtain rfl : k = 0 := by omega
    rw [Nat.div_eq_of_lt hshort, Nat.mod_eq_of_lt hshort, if_pos rfl, scale_eq]
    simp
  rcases Nat.lt_or_ge significand (place * 2) with hlt | hfull
  · have hdiv : significand / place = 1 := Nat.div_eq_of_lt_le (by omega) (by omega)
    have hmod : place + significand % place = significand := by
      rw [Nat.mod_eq_sub_mod hge, Nat.mod_eq_of_lt (by omega)]
      omega
    rw [hdiv, hmod, if_neg (by omega), scale_eq]
    congr 2
    push_cast
    omega
  · -- rounded up to a power of two, which is a place longer and so one exponent higher
    obtain rfl : significand = place * 2 := by omega
    have hexponent : f.leastExponent + ((k + 2 : Nat) - 1 : Int) = f.leastExponent + k + 1 := by
      push_cast
      omega
    rw [Nat.mul_div_cancel_left 2 hpos, Nat.mul_mod_right, if_neg (by omega), scale_eq, hexponent,
      zpow_add₀ two_ne_zero, zpow_one]
    push_cast
    ring

/-! ## Rounding -/

/-- The significand is `q` in the places of an exponent `k` above the least, up to half a place, and
the exponent is the one that fits `q`. -/
structure IsRounded (f : Format) (q : Rat) (k significand : Nat) : Prop where
  significand_le : significand ≤ 2 ^ (f.fractionBits + 1)
  le_significand : k = 0 ∨ 2 ^ f.fractionBits ≤ significand
  le_number : k = 0 ∨ 2 ^ (f.leastExponent + k + f.fractionBits) ≤ q
  near : |significand * 2 ^ (f.leastExponent + k) - q| ≤ 2 ^ (f.leastExponent + k) / 2

theorem shiftLeft_div_shiftLeft_mul (num den : Nat) (e : Int) :
    ((num <<< (-e).toNat : Nat) : Rat) / (den <<< e.toNat : Nat) * 2 ^ e = num / den := by
  have h := mul_two_pow_div_mul_two_pow (num : Rat) den (-e)
  rw [neg_neg, ← natCast_shiftLeft, ← natCast_shiftLeft] at h
  rw [h, mul_assoc, ← zpow_add₀ two_ne_zero, neg_add_cancel, zpow_zero, mul_one]

theorem exists_isRounded (f : Format) {num den : Nat} (hnum : 0 < num) (hden : 0 < den) :
    ∃ k significand, IsRounded f (num / den) k significand ∧
      f.roundMagnitude num den = min (k <<< f.fractionBits + significand) f.infinityBits := by
  obtain ⟨hlow, hhigh⟩ := floorLog2_spec hnum hden
  obtain ⟨e, he⟩ : ∃ e, e = max (floorLog2 num den - f.fractionBits) f.leastExponent := ⟨_, rfl⟩
  obtain ⟨k, hk⟩ : ∃ k : Nat, f.leastExponent + k = e := ⟨(e - f.leastExponent).toNat, by omega⟩
  obtain ⟨a, ha⟩ : ∃ a, a = num <<< (-e).toNat := ⟨_, rfl⟩
  obtain ⟨b, hb⟩ : ∃ b, b = den <<< e.toNat := ⟨_, rfl⟩
  have hbpos : 0 < b := by
    rw [hb, Nat.shiftLeft_eq]
    positivity
  have hbpos' : (0 : Rat) < b := by exact_mod_cast hbpos
  have hplace : (0 : Rat) < 2 ^ e := by positivity
  have hquotient : (a : Rat) / b * 2 ^ e = num / den := by
    rw [ha, hb]
    exact shiftLeft_div_shiftLeft_mul num den e
  have hle : a ≤ 2 ^ (f.fractionBits + 1) * b := by
    have hlt : (a : Rat) / b < 2 ^ (f.fractionBits + 1) := by
      rw [← mul_lt_mul_iff_of_pos_right hplace, hquotient]
      calc (num : Rat) / den < 2 ^ (floorLog2 num den + 1) := hhigh
        _ ≤ 2 ^ ((f.fractionBits + 1 : Nat) + e) := by
          refine zpow_le_zpow_right₀ (by norm_num) ?_
          push_cast
          omega
        _ = 2 ^ (f.fractionBits + 1) * 2 ^ e := by rw [zpow_add₀ two_ne_zero, zpow_natCast]
    rw [div_lt_iff₀ hbpos'] at hlt
    exact_mod_cast hlt.le
  have hge : k = 0 ∨ (2 : Rat) ^ (f.leastExponent + k + f.fractionBits) ≤ num / den := by
    rcases Nat.eq_zero_or_pos k with hzero | hpos
    · exact .inl hzero
    · refine .inr (le_trans (zpow_le_zpow_right₀ (by norm_num) ?_) hlow)
      omega
  refine ⟨k, roundHalfEven a b,
    ⟨roundHalfEven_le hbpos hle, hge.imp_right fun hge => ?_, hge, ?_⟩, ?_⟩
  · refine le_roundHalfEven hbpos ?_
    rw [hk, add_comm, zpow_add₀ two_ne_zero, zpow_natCast, ← hquotient,
      mul_le_mul_iff_of_pos_right hplace, le_div_iff₀ hbpos'] at hge
    exact_mod_cast hge
  · have hnear := abs_roundHalfEven_sub_le a hbpos
    rw [hk, ← hquotient, ← sub_mul, abs_mul, abs_of_pos hplace]
    calc |(roundHalfEven a b : Rat) - a / b| * 2 ^ e ≤ 1 / 2 * 2 ^ e := by gcongr
      _ = 2 ^ e / 2 := by ring
  · have hk' : (e - f.leastExponent).toNat = k := by omega
    unfold roundMagnitude
    rw [if_neg hnum.ne']
    simp only [← he, hk', ← ha, ← hb]

namespace IsRounded

variable {f : Format} {q : Rat} {k significand : Nat}

/-- In the range of the normal numbers, half a place is a fixed fraction of the number. -/
theorem abs_sub_le (h : IsRounded f q k significand)
    (hnormal : (2 : Rat) ^ (f.leastExponent + f.fractionBits) ≤ q) :
    |significand * 2 ^ (f.leastExponent + k) - q| ≤ q / 2 ^ (f.fractionBits + 1) := by
  have hle : (2 : Rat) ^ (f.leastExponent + k + f.fractionBits) ≤ q := by
    rcases h.le_number with rfl | hle
    · simpa using hnormal
    · exact hle
  rw [zpow_add₀ two_ne_zero, zpow_natCast] at hle
  refine h.near.trans ?_
  rw [le_div_iff₀ (by positivity), pow_succ]
  linarith

theorem lt_infinityBits (h : IsRounded f q k significand) (hexponent : 2 ≤ f.exponentBits)
    (hq : q < 2 ^ (2 ^ (f.exponentBits - 1) - 1)) :
    k <<< f.fractionBits + significand < f.infinityBits := by
  have hfour : 2 ^ f.exponentBits = 2 * 2 ^ (f.exponentBits - 1) := by
    rw [← Nat.pow_succ']
    congr 1
    omega
  have htwo : 2 ≤ 2 ^ (f.exponentBits - 1) := Nat.le_self_pow (by omega) 2
  have hk : k + 2 < 2 ^ f.exponentBits - 1 := by
    rcases h.le_number with rfl | hle
    · omega
    · rw [← zpow_natCast] at hq
      have hlt := lt_of_two_zpow_lt (hle.trans_lt hq)
      rw [leastExponent, Nat.one_shiftLeft] at hlt
      omega
  have hsignificand := h.significand_le
  rw [Nat.pow_succ] at hsignificand
  rw [infinityBits, Nat.shiftLeft_eq, Nat.shiftLeft_eq, Nat.one_shiftLeft]
  calc k * 2 ^ f.fractionBits + significand ≤ (k + 2) * 2 ^ f.fractionBits := by
        rw [Nat.add_mul]
        omega
    _ < (2 ^ f.exponentBits - 1) * 2 ^ f.fractionBits :=
        Nat.mul_lt_mul_of_pos_right hk (Nat.two_pow_pos _)

end IsRounded

theorem infinityBits_lt_signPlace (f : Format) : f.infinityBits < f.signPlace := by
  rw [infinityBits, signPlace, Nat.shiftLeft_eq, Nat.one_shiftLeft, Nat.one_shiftLeft, Nat.pow_add]
  exact Nat.mul_lt_mul_of_pos_right (Nat.sub_lt (Nat.two_pow_pos _) Nat.one_pos) (Nat.two_pow_pos _)

theorem decode_signed (f : Format) {magnitude : Nat} (h : magnitude < f.infinityBits)
    (negative : Bool) :
    f.decode ((if negative then f.signPlace else 0) + magnitude) =
      .finite negative
        (if negative then -f.magnitudeValue magnitude else f.magnitudeValue magnitude) := by
  have hsign := h.trans f.infinityBits_lt_signPlace
  have hpos : 0 < f.signPlace := Nat.zero_lt_of_lt hsign
  unfold decode
  cases negative with
  | false =>
    simp only [Bool.false_eq_true, if_false, Nat.zero_add, Nat.mod_eq_of_lt hsign,
      Nat.div_eq_of_lt hsign, if_pos h]
    rfl
  | true =>
    simp only [if_true, Nat.add_mod_left, Nat.mod_eq_of_lt hsign, Nat.add_div_left _ hpos,
      Nat.div_eq_of_lt hsign, if_pos h]
    rfl

theorem natAbs_num_div_den (q : Rat) : ((q.num.natAbs : Nat) : Rat) / (q.den : Nat) = |q| := by
  rw [Nat.cast_natAbs, Int.cast_abs, ← abs_of_nonneg (show (0 : Rat) ≤ q.den by positivity),
    ← abs_div, Rat.num_div_den]

theorem exists_isRounded_decode (f : Format) (hexponent : 2 ≤ f.exponentBits) {q : Rat} (hq : q ≠ 0)
    (hhigh : |q| < 2 ^ (2 ^ (f.exponentBits - 1) - 1)) (negative : Bool) :
    ∃ k significand, IsRounded f |q| k significand ∧
      f.decode (f.encode (.finite negative q)) = .finite negative
        (if negative then -(significand * 2 ^ (f.leastExponent + k))
          else significand * 2 ^ (f.leastExponent + k)) := by
  have hnum : 0 < q.num.natAbs := Int.natAbs_pos.mpr (Rat.num_ne_zero.mpr hq)
  obtain ⟨k, significand, hrounded, hmagnitude⟩ := f.exists_isRounded hnum q.den_pos
  rw [natAbs_num_div_den] at hrounded
  have hfinite := hrounded.lt_infinityBits hexponent hhigh
  rw [min_eq_left hfinite.le] at hmagnitude
  refine ⟨k, significand, hrounded, ?_⟩
  rw [encode, hmagnitude, f.decode_signed hfinite,
    f.magnitudeValue_add hrounded.significand_le hrounded.le_significand]

theorem exists_decode_encode (f : Format) (hexponent : 2 ≤ f.exponentBits) {q : Rat}
    (hlow : 2 ^ (f.leastExponent + f.fractionBits) ≤ q)
    (hhigh : q < 2 ^ (2 ^ (f.exponentBits - 1) - 1)) :
    ∃ r, f.decode (f.encode (.finite false q)) = .finite false r ∧
      |r - q| ≤ q / 2 ^ (f.fractionBits + 1) := by
  have hpos : 0 < q := lt_of_lt_of_le (by positivity) hlow
  have habs : |q| = q := abs_of_pos hpos
  obtain ⟨k, significand, hrounded, hdecode⟩ :=
    f.exists_isRounded_decode hexponent hpos.ne' (by rwa [habs]) false
  rw [habs] at hrounded
  exact ⟨_, hdecode, hrounded.abs_sub_le hlow⟩

end Format

/-! ## Double precision -/

theorem Binary64.datum_ofDatum (d : Datum) :
    (ofDatum d).datum = double.decode (double.encode d) := by
  have hmagnitude : ∀ num den, double.roundMagnitude num den ≤ double.infinityBits := by
    intro num den
    unfold Format.roundMagnitude
    split
    · exact Nat.zero_le _
    · exact Nat.min_le_right _ _
  have hlt : double.encode d < 2 ^ 64 := by
    have hsign : double.signPlace = 2 ^ 63 := rfl
    have hinfinity : double.infinityBits = 2047 * 2 ^ 52 := rfl
    cases d with
    | nan => decide
    | infinity negative => cases negative <;> decide
    | finite negative value =>
      have := hmagnitude value.num.natAbs value.den
      unfold Format.encode
      simp only
      split <;> omega
  have hbits : (ofDatum d).bits.toNat = double.encode d := by
    rw [ofDatum]
    exact UInt64.toNat_ofNat_of_lt hlt
  rw [datum, hbits]

theorem Binary64.exists_datum_ofDatum {q : Rat} (hlow : 2 ^ (-1022 : Int) ≤ q)
    (hhigh : q < 2 ^ 1023) :
    ∃ r, (ofDatum (.finite false q)).datum = .finite false r ∧ |r - q| ≤ q / 2 ^ 53 := by
  rw [datum_ofDatum]
  exact double.exists_decode_encode (by decide) hlow hhigh

end PulseHits.Number
