import PulseHits.Proofs.Number.Rounding

/-!
# Doubles as numbers

A double that is finite is a rational number (`Binary64.Is`). An operation on two of them gives the
exact result if that has no more than 53 digits (`Is.add`, `Is.sub`, `Is.mul` with `Short`), as all
integers below `2 ^ 53` have (`short_intCast`), and a product that is neither tiny nor huge gives
the exact result up to the last of 53 places (`Is.exists_mul`). So a product of numbers that are not
zero is not zero either.
-/

namespace PulseHits.Number

/-- The number has no more than 53 binary digits, neither too far behind the point nor too far
before it. -/
def Short (q : Rat) : Prop :=
  ∃ (digits : Int) (exponent : Int), q = digits * 2 ^ exponent ∧ |digits| < 2 ^ 53 ∧
    -1074 ≤ exponent ∧ |q| < 2 ^ 1023

theorem short_intCast {n : Int} (h : |n| < 2 ^ 53) : Short n := by
  have hcast : |(n : Rat)| < 2 ^ 53 := by
    rw [← Int.cast_abs]
    exact_mod_cast h
  refine ⟨n, 0, by simp, h, by norm_num, hcast.trans ?_⟩
  exact pow_lt_pow_right₀ (by norm_num) (by norm_num)

theorem Format.IsRounded.eq_of_dvd {f : Format} {q : Rat} {k significand : Nat}
    (h : f.IsRounded q k significand) {n : Int} (hq : q = n * 2 ^ (f.leastExponent + k)) :
    significand * 2 ^ (f.leastExponent + k) = q := by
  have hplace : (0 : Rat) < 2 ^ (f.leastExponent + k) := by positivity
  have hnear := h.near
  rw [hq, ← sub_mul, abs_mul, abs_of_pos hplace, div_eq_inv_mul,
    mul_le_mul_iff_of_pos_right hplace] at hnear
  -- two integers that are half a place apart are the same
  have hint : |((significand : Int) - n : Int)| < 1 := by
    have hcast : |(((significand : Int) - n : Int) : Rat)| < 1 := by
      push_cast
      exact hnear.trans_lt (by norm_num)
    rw [← Int.cast_abs] at hcast
    exact_mod_cast hcast
  have heq : (significand : Int) = n := sub_eq_zero.mp (Int.abs_lt_one_iff.mp hint)
  rw [hq, ← heq, Int.cast_natCast]

namespace Binary64

/-- The double is finite and stands for the number. -/
def Is (x : Binary64) (q : Rat) : Prop :=
  ∃ negative, x.datum = .finite negative q

theorem Is.isZero_eq {x : Binary64} {q : Rat} (h : x.Is q) : Arithmetic.isZero x = (q == 0) := by
  obtain ⟨s, hs⟩ := h
  show x.datum.isZero = _
  rw [hs]
  rfl

theorem sign_eq {x : Binary64} {negative : Bool} {q : Rat} (h : x.datum = .finite negative q)
    (hq : q ≠ 0) : negative = decide (q < 0) := by
  unfold datum Format.decode at h
  simp only at h
  split at h
  · obtain ⟨hnegative, hvalue⟩ := Datum.finite.inj h
    rw [Format.scale_eq] at hvalue
    have hnonneg : (0 : Rat) ≤
        (double.parts (x.bits.toNat % double.signPlace)).1 *
          2 ^ (double.parts (x.bits.toNat % double.signPlace)).2 := by positivity
    rw [← hnegative]
    generalize (((double.parts (x.bits.toNat % double.signPlace)).1 : Nat) : Rat) *
      2 ^ (double.parts (x.bits.toNat % double.signPlace)).2 = value at hvalue hnonneg
    by_cases hsign : x.bits.toNat / double.signPlace % 2 = 1
    · rw [if_pos hsign] at hvalue
      have hlt : q < 0 := lt_of_le_of_ne (by linarith) hq
      simp [hsign, hlt]
    · rw [if_neg hsign] at hvalue
      have hnot : ¬ q < 0 := by linarith
      simp [hsign, hnot]
  · split at h <;> cases h

/-! ## Rounding with a sign -/

theorem is_ofDatum_zero (negative : Bool) : (ofDatum (.finite negative 0)).Is 0 := by
  refine ⟨negative, ?_⟩
  rw [datum_ofDatum]
  cases negative <;> decide +kernel

theorem exists_isRounded_ofDatum {q : Rat} (hq : q ≠ 0) (hhigh : |q| < 2 ^ 1023) :
    ∃ k significand, double.IsRounded |q| k significand ∧
      (ofDatum (.finite (decide (q < 0)) q)).Is
        (if q < 0 then -(significand * 2 ^ (double.leastExponent + k))
          else significand * 2 ^ (double.leastExponent + k)) := by
  obtain ⟨k, significand, hrounded, hdecode⟩ :=
    double.exists_isRounded_decode (by decide) hq hhigh (decide (q < 0))
  refine ⟨k, significand, hrounded, decide (q < 0), ?_⟩
  rw [datum_ofDatum, hdecode]
  simp only [decide_eq_true_eq]

theorem is_ofDatum {q : Rat} {negative : Bool} (hsign : q ≠ 0 → negative = decide (q < 0))
    (h : Short q) : (ofDatum (.finite negative q)).Is q := by
  by_cases hq : q = 0
  · rw [hq]
    exact is_ofDatum_zero negative
  obtain ⟨digits, exponent, hdigits, hlt, hleast, hhigh⟩ := h
  obtain ⟨k, significand, hrounded, his⟩ := exists_isRounded_ofDatum hq hhigh
  have habs : |q| = (|digits| : Int) * 2 ^ exponent := by
    rw [hdigits, abs_mul, abs_of_pos (show (0 : Rat) < 2 ^ exponent by positivity), Int.cast_abs]
  -- the places of the significand are no larger than the last digit
  have hplace : double.leastExponent + k ≤ exponent := by
    rcases hrounded.le_number with rfl | hle
    · exact hleast
    · have hfits : |q| < 2 ^ (exponent + 53) := by
        rw [habs, zpow_add₀ two_ne_zero, mul_comm]
        apply mul_lt_mul_of_pos_left _ (by positivity)
        exact_mod_cast hlt
      have hexponents := lt_of_two_zpow_lt (hle.trans_lt hfits)
      have hbits : double.fractionBits = 52 := rfl
      omega
  obtain ⟨n, hn⟩ : ∃ n : Nat, exponent = n + (double.leastExponent + k) :=
    ⟨(exponent - (double.leastExponent + k)).toNat, by omega⟩
  have hexact := hrounded.eq_of_dvd (n := |digits| * 2 ^ n) (by
    rw [habs, hn, zpow_add₀ two_ne_zero, zpow_natCast]
    push_cast
    ring)
  rw [hexact] at his
  rw [hsign hq]
  by_cases hneg : q < 0
  · rwa [if_pos hneg, abs_of_neg hneg, neg_neg] at his
  · rwa [if_neg hneg, abs_of_nonneg (not_lt.mp hneg)] at his

theorem exists_is_ofDatum {q : Rat} {negative : Bool} (hsign : q ≠ 0 → negative = decide (q < 0))
    (hlow : 2 ^ (-1022 : Int) ≤ |q|) (hhigh : |q| < 2 ^ 1023) :
    ∃ r, (ofDatum (.finite negative q)).Is r ∧ |r - q| ≤ |q| / 2 ^ 53 := by
  have hq : q ≠ 0 := abs_pos.mp (lt_of_lt_of_le (by positivity) hlow)
  obtain ⟨k, significand, hrounded, his⟩ := exists_isRounded_ofDatum hq hhigh
  rw [← hsign hq] at his
  refine ⟨_, his, ?_⟩
  have hnear := hrounded.abs_sub_le hlow
  split
  · next hneg =>
    rw [abs_of_neg hneg] at hnear ⊢
    rwa [← abs_neg, neg_sub, sub_neg_eq_add, add_comm, ← sub_neg_eq_add]
  · next hneg =>
    rwa [abs_of_nonneg (not_lt.mp hneg)] at hnear ⊢

/-! ## Operations -/

theorem is_natCast {n : Nat} (h : n < 2 ^ 53) : Is n n := by
  have hshort : Short ((n : Int) : Rat) := short_intCast (by rw [Nat.abs_cast]; exact_mod_cast h)
  rw [Int.cast_natCast] at hshort
  apply is_ofDatum _ hshort
  intro _
  have hnot : ¬ (n : Rat) < 0 := by
    rw [not_lt]
    positivity
  simp [hnot]

theorem datum_natCast {n : Nat} (h : n < 2 ^ 53) :
    ((n : Nat) : Binary64).datum = .finite false n := by
  obtain ⟨negative, hdatum⟩ := is_natCast h
  rcases Nat.eq_zero_or_pos n with rfl | hpos
  · decide +kernel
  · have hsign := sign_eq hdatum (Nat.cast_ne_zero.mpr hpos.ne')
    rw [hdatum, hsign, decide_eq_false (not_lt.mpr (Nat.cast_nonneg n))]

/-- A difference of integers tells neither of them, not even by the sign of a zero. -/
theorem natCast_sub_natCast {m n : Nat} (hm : m < 2 ^ 53) (hn : n < 2 ^ 53) :
    ((m : Nat) : Binary64) - ((n : Nat) : Binary64) = ofRat (m - n) := by
  show ofDatum (((m : Nat) : Binary64).datum.add ((n : Nat) : Binary64).datum.neg) = _
  rw [datum_natCast hm, datum_natCast hn, ofRat, sub_eq_add_neg]
  refine congrArg (fun sign => ofDatum (.finite sign _)) ?_
  split
  · next hzero => simp [hzero]
  · rfl

namespace Is
variable {x y : Binary64} {p q : Rat}

theorem add (hx : x.Is p) (hy : y.Is q) (h : Short (p + q)) : (x + y).Is (p + q) := by
  obtain ⟨s, hs⟩ := hx
  obtain ⟨t, ht⟩ := hy
  show (ofDatum (x.datum.add y.datum)).Is _
  rw [hs, ht]
  apply is_ofDatum _ h
  intro hne
  exact if_neg hne

theorem sub (hx : x.Is p) (hy : y.Is q) (h : Short (p - q)) : (x - y).Is (p - q) := by
  obtain ⟨s, hs⟩ := hx
  obtain ⟨t, ht⟩ := hy
  rw [sub_eq_add_neg] at h ⊢
  show (ofDatum (x.datum.add y.datum.neg)).Is _
  rw [hs, ht]
  apply is_ofDatum _ h
  intro hne
  exact if_neg hne

theorem xor_eq {s t : Bool} (hs : x.datum = .finite s p) (ht : y.datum = .finite t q)
    (hne : p * q ≠ 0) : (s ^^ t) = decide (p * q < 0) := by
  obtain ⟨hp, hq⟩ := mul_ne_zero_iff.mp hne
  rw [sign_eq hs hp, sign_eq ht hq]
  rcases lt_or_gt_of_ne hp with hp | hp <;> rcases lt_or_gt_of_ne hq with hq | hq <;>
    simp [hp, hq, hp.le, hq.le, mul_neg_iff, not_lt.mpr]

theorem mul (hx : x.Is p) (hy : y.Is q) (h : Short (p * q)) : (x * y).Is (p * q) := by
  obtain ⟨s, hs⟩ := hx
  obtain ⟨t, ht⟩ := hy
  show (ofDatum (x.datum.mul y.datum)).Is _
  rw [hs, ht]
  exact is_ofDatum (xor_eq hs ht) h

theorem exists_mul (hx : x.Is p) (hy : y.Is q) (hlow : 2 ^ (-1022 : Int) ≤ |p * q|)
    (hhigh : |p * q| < 2 ^ 1023) : ∃ r, (x * y).Is r ∧ |r - p * q| ≤ |p * q| / 2 ^ 53 := by
  obtain ⟨s, hs⟩ := hx
  obtain ⟨t, ht⟩ := hy
  show ∃ r, (ofDatum (x.datum.mul y.datum)).Is r ∧ _
  rw [hs, ht]
  exact exists_is_ofDatum (xor_eq hs ht) hlow hhigh

/-! ### Integers -/

variable {m n : Int}

theorem add_intCast (hx : x.Is m) (hy : y.Is n) (h : |m + n| < 2 ^ 53) :
    (x + y).Is (m + n : Int) := by
  have hshort := short_intCast h
  rw [Int.cast_add] at hshort ⊢
  exact hx.add hy hshort

theorem sub_intCast (hx : x.Is m) (hy : y.Is n) (h : |m - n| < 2 ^ 53) :
    (x - y).Is (m - n : Int) := by
  have hshort := short_intCast h
  rw [Int.cast_sub] at hshort ⊢
  exact hx.sub hy hshort

theorem mul_intCast (hx : x.Is m) (hy : y.Is n) (h : |m * n| < 2 ^ 53) :
    (x * y).Is (m * n : Int) := by
  have hshort := short_intCast h
  rw [Int.cast_mul] at hshort ⊢
  exact hx.mul hy hshort

end Is

/-! ## Products that are rounded -/

/-- The double stands for the number up to `doublings` factors of two. So it tells whether the
number is zero. -/
def Near (x : Binary64) (q : Rat) (doublings : Nat) : Prop :=
  ∃ r, x.Is r ∧ |q| ≤ |r| * 2 ^ doublings ∧ |r| ≤ |q| * 2 ^ doublings

theorem Is.near {x : Binary64} {q : Rat} (h : x.Is q) : x.Near q 0 :=
  ⟨q, h, by simp, by simp⟩

theorem Near.isZero_eq {x : Binary64} {q : Rat} {doublings : Nat} (h : x.Near q doublings) :
    Arithmetic.isZero x = (q == 0) := by
  obtain ⟨r, hr, hle, hge⟩ := h
  rw [hr.isZero_eq, Bool.eq_iff_iff, beq_iff_eq, beq_iff_eq]
  constructor
  · rintro rfl
    simpa using hle
  · rintro rfl
    simpa using hge

theorem Is.near_mul {x y : Binary64} {p q : Rat} (hx : x.Is p) (hy : y.Is q)
    (hlow : 2 ^ (-1022 : Int) ≤ |p * q|) (hhigh : |p * q| < 2 ^ 1023) :
    (x * y).Near (p * q) 1 := by
  obtain ⟨r, hr, hnear⟩ := hx.exists_mul hy hlow hhigh
  have hhalf : |p * q| / 2 ^ 53 ≤ |p * q| / 2 := by
    apply div_le_div_of_nonneg_left (abs_nonneg _) (by norm_num)
    norm_num
  have hdist := hnear.trans hhalf
  have hnonneg := abs_nonneg (p * q)
  refine ⟨r, hr, ?_, ?_⟩
  · have := abs_sub_abs_le_abs_sub (p * q) r
    rw [abs_sub_comm] at this
    linarith
  · have := abs_sub_abs_le_abs_sub r (p * q)
    linarith

theorem Near.trans {x : Binary64} {p q : Rat} {i j : Nat} (h : x.Near p i)
    (hle : |q| ≤ |p| * 2 ^ j) (hge : |p| ≤ |q| * 2 ^ j) : x.Near q (j + i) := by
  obtain ⟨r, hr, hrle, hrge⟩ := h
  refine ⟨r, hr, ?_, ?_⟩
  · calc |q| ≤ |p| * 2 ^ j := hle
      _ ≤ |r| * 2 ^ i * 2 ^ j := mul_le_mul_of_nonneg_right hrle (by positivity)
      _ = |r| * 2 ^ (j + i) := by ring
  · calc |r| ≤ |p| * 2 ^ i := hrge
      _ ≤ |q| * 2 ^ j * 2 ^ i := mul_le_mul_of_nonneg_right hge (by positivity)
      _ = |q| * 2 ^ (j + i) := by ring

theorem Near.mul_intCast {x y : Binary64} {m n : Int} {i j : Nat} (hx : x.Near m i)
    (hy : y.Near n j) (h : |m * n| < 2 ^ 200) (hij : i + j ≤ 100) :
    (x * y).Near (m * n : Int) (i + j + 1) := by
  obtain ⟨p, hp, hple, hpge⟩ := hx
  obtain ⟨q, hq, hqle, hqge⟩ := hy
  have hle : |((m * n : Int) : Rat)| ≤ |p * q| * 2 ^ (i + j) := by
    rw [Int.cast_mul, abs_mul, abs_mul, pow_add, mul_mul_mul_comm]
    exact mul_le_mul hple hqle (abs_nonneg _) (by positivity)
  have hge : |p * q| ≤ |((m * n : Int) : Rat)| * 2 ^ (i + j) := by
    rw [Int.cast_mul, abs_mul, abs_mul, pow_add, mul_mul_mul_comm]
    exact mul_le_mul hpge hqge (abs_nonneg _) (by positivity)
  rcases eq_or_ne (m * n) 0 with hzero | hne
  · rw [hzero, Int.cast_zero, abs_zero, zero_mul] at hge
    have hpq : p * q = 0 := abs_nonpos_iff.mp hge
    have hshort : Short (p * q) := by
      rw [hpq]
      exact_mod_cast short_intCast (n := 0) (by norm_num)
    rw [hzero, Int.cast_zero]
    exact ⟨p * q, hp.mul hq hshort, by rw [abs_zero]; positivity, by simp [hpq]⟩
  -- the product is neither tiny nor huge
  have hone : (1 : Rat) ≤ |((m * n : Int) : Rat)| := by
    rw [← Int.cast_abs]
    exact_mod_cast Int.one_le_abs hne
  have hbound : |((m * n : Int) : Rat)| < 2 ^ 200 := by
    rw [← Int.cast_abs]
    exact_mod_cast h
  have hpow : (2 : Rat) ^ (i + j) ≤ 2 ^ 100 := pow_le_pow_right₀ (by norm_num) hij
  have hlow : (2 : Rat) ^ (-1022 : Int) ≤ |p * q| := by
    have hlarge : (1 : Rat) ≤ |p * q| * 2 ^ 100 :=
      (hone.trans hle).trans (mul_le_mul_of_nonneg_left hpow (abs_nonneg _))
    rw [← div_le_iff₀ (by positivity)] at hlarge
    refine le_trans ?_ hlarge
    rw [one_div, ← zpow_natCast, ← zpow_neg]
    exact zpow_le_zpow_right₀ (by norm_num) (by norm_num)
  have hhigh : |p * q| < 2 ^ 1023 := by
    calc |p * q| ≤ |((m * n : Int) : Rat)| * 2 ^ (i + j) := hge
      _ ≤ 2 ^ 200 * 2 ^ 100 := mul_le_mul hbound.le hpow (by positivity) (by positivity)
      _ < 2 ^ 1023 := by
        rw [← pow_add]
        exact pow_lt_pow_right₀ (by norm_num) (by norm_num)
  exact (hp.near_mul hq hlow hhigh).trans hle hge

end Binary64

end PulseHits.Number
