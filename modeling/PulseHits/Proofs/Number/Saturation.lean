import PulseHits.Proofs.Number.Exactness

/-!
# Sums that stop growing

Rounding does not carry a number across a power of two that it has reached
(`IsRounded.two_zpow_le`), nor below an integer where the places are no larger than one
(`IsRounded.natCast_le`), nor up to more than a power of two that it exceeds by less than half a place
(`IsRounded.le_two_zpow`). So a sum of terms that are not negative never falls back below one, and it
stops at `2 ^ 53` times the size of its terms, however many there are
(`Binary64.exists_is_foldl_add`): it is always finite, and so is a quotient of two such sums.
-/

namespace PulseHits.Number

/-! ## Rounding at a power of two -/

namespace Format.IsRounded
variable {f : Format} {q : Rat} {k significand : Nat} {j : Int}

theorem exists_two_zpow_eq {e : Int} (h : e ≤ j) : ∃ n : Nat, (2 : Rat) ^ j = n * 2 ^ e := by
  obtain ⟨m, rfl⟩ : ∃ m : Nat, j = m + e := ⟨(j - e).toNat, by omega⟩
  refine ⟨2 ^ m, ?_⟩
  rw [zpow_add₀ two_ne_zero, zpow_natCast]
  push_cast
  rfl

theorem places_le (h : IsRounded f q k significand) {n : Nat}
    (hq : n * (2 : Rat) ^ (f.leastExponent + k) ≤ q) : n ≤ significand := by
  have hplace : (0 : Rat) < 2 ^ (f.leastExponent + k) := by positivity
  have hnear := (abs_le.mp h.near).1
  have hlt : ((n : Rat) - 1) * 2 ^ (f.leastExponent + k) <
      significand * 2 ^ (f.leastExponent + k) := by linarith
  have hint : (n : Rat) < significand + 1 := by
    have := lt_of_mul_lt_mul_right hlt hplace.le
    linarith
  have : n < significand + 1 := by exact_mod_cast hint
  omega

theorem two_zpow_le (h : IsRounded f q k significand) (hj : f.leastExponent ≤ j)
    (hq : (2 : Rat) ^ j ≤ q) : (2 : Rat) ^ j ≤ significand * 2 ^ (f.leastExponent + k) := by
  have hplace : (0 : Rat) < 2 ^ (f.leastExponent + k) := by positivity
  rcases lt_or_ge j (f.leastExponent + k) with hlt | hge
  · -- the significand alone is larger
    have hlong : 2 ^ f.fractionBits ≤ significand := h.le_significand.resolve_left (by omega)
    have hone : (1 : Rat) ≤ significand := by exact_mod_cast Nat.one_le_two_pow.trans hlong
    have hpow : (2 : Rat) ^ j ≤ 2 ^ (f.leastExponent + k) :=
      zpow_le_zpow_right₀ (by norm_num) hlt.le
    exact hpow.trans (le_mul_of_one_le_left hplace.le hone)
  · obtain ⟨n, hn⟩ := exists_two_zpow_eq hge
    rw [hn] at hq ⊢
    exact mul_le_mul_of_nonneg_right (by exact_mod_cast h.places_le hq) hplace.le

theorem le_two_zpow (h : IsRounded f q k significand)
    (hj : f.leastExponent + f.fractionBits ≤ j)
    (hq : q < (2 : Rat) ^ j + 2 ^ (j - f.fractionBits - 1)) :
    significand * 2 ^ (f.leastExponent + k) ≤ (2 : Rat) ^ j := by
  have hplace : (0 : Rat) < 2 ^ (f.leastExponent + k) := by positivity
  have hexponent : f.leastExponent + k + f.fractionBits ≤ j := by
    rcases h.le_number with rfl | hle
    · simpa using hj
    · have hdouble : q < (2 : Rat) ^ (j + 1) := by
        have hhalf : (2 : Rat) ^ (j - f.fractionBits - 1) ≤ 2 ^ j :=
          zpow_le_zpow_right₀ (by norm_num) (by omega)
        rw [zpow_add₀ two_ne_zero, zpow_one]
        linarith
      have := lt_of_two_zpow_lt (hle.trans_lt hdouble)
      omega
  rcases hexponent.lt_or_eq with hlt | heq
  · -- the longest significand is a power of two of its own
    have hlong : (significand : Rat) ≤ 2 ^ (f.fractionBits + 1) := by
      exact_mod_cast h.significand_le
    calc significand * (2 : Rat) ^ (f.leastExponent + k)
        ≤ 2 ^ (f.fractionBits + 1) * 2 ^ (f.leastExponent + k) :=
          mul_le_mul_of_nonneg_right hlong hplace.le
      _ = 2 ^ ((f.fractionBits + 1 : Nat) + (f.leastExponent + k)) := by
          rw [zpow_add₀ two_ne_zero (f.fractionBits + 1 : Nat), zpow_natCast]
      _ ≤ 2 ^ j := by
          refine zpow_le_zpow_right₀ (by norm_num) ?_
          push_cast
          omega
  · have hhalf : (2 : Rat) ^ (j - f.fractionBits - 1) = 2 ^ (f.leastExponent + k) / 2 := by
      rw [← heq, add_sub_cancel_right, zpow_sub₀ two_ne_zero, zpow_one]
    obtain ⟨n, hn⟩ := exists_two_zpow_eq (show f.leastExponent + k ≤ j by omega)
    have hnear := (abs_le.mp h.near).2
    rw [hhalf] at hq
    rw [hn] at hq ⊢
    have hlt : significand * (2 : Rat) ^ (f.leastExponent + k) <
        (n + 1) * 2 ^ (f.leastExponent + k) := by linarith
    have hint : (significand : Rat) < n + 1 := lt_of_mul_lt_mul_right hlt hplace.le
    have hle : significand ≤ n := by
      have : significand < n + 1 := by exact_mod_cast hint
      omega
    exact mul_le_mul_of_nonneg_right (by exact_mod_cast hle) hplace.le

end Format.IsRounded

namespace Binary64

/-- A sum of numbers that are not negative is not pushed above a power of two by a term that is too
small, and not below one. -/
theorem Is.exists_add_of_nonneg {x y : Binary64} {p q : Rat} {j : Int} (hx : x.Is p) (hy : y.Is q)
    (hp : 0 ≤ p) (hq : 0 ≤ q) (hj : 0 ≤ j) (hj' : j < 1022) (hpj : p ≤ 2 ^ j)
    (hqj : q < 2 ^ (j - 53)) :
    ∃ r, (x + y).Is r ∧ 0 ≤ r ∧ r ≤ 2 ^ j ∧ (1 ≤ p + q → 1 ≤ r) := by
  rcases (add_nonneg hp hq).eq_or_lt with hzero | hpos
  · have hsum : (x + y).Is (p + q) := by
      refine hx.add hy ?_
      rw [← hzero]
      exact_mod_cast short_intCast (n := 0) (by norm_num)
    rw [← hzero] at hsum ⊢
    exact ⟨0, hsum, le_refl 0, by positivity, fun h => absurd h (by norm_num)⟩
  · have hbits : double.fractionBits = 52 := rfl
    have hleast : double.leastExponent = -1074 := rfl
    have hlt : p + q < 2 ^ j + 2 ^ (j - double.fractionBits - 1) := by
      have hplaces : j - (double.fractionBits : Int) - 1 = j - 53 := by omega
      rw [hplaces]
      exact add_lt_add_of_le_of_lt hpj hqj
    have hhigh : |p + q| < 2 ^ 1023 := by
      have hsmall : (2 : Rat) ^ (j - 53) ≤ 2 ^ j := zpow_le_zpow_right₀ (by norm_num) (by omega)
      have hlarge : (2 : Rat) ^ j * 2 ≤ 2 ^ (1023 : Int) := by
        rw [← zpow_add_one₀ two_ne_zero]
        exact zpow_le_zpow_right₀ (by norm_num) (by omega)
      rw [zpow_ofNat] at hlarge
      rw [abs_of_pos hpos]
      refine lt_of_lt_of_le ?_ hlarge
      linarith
    obtain ⟨k, significand, hrounded, his⟩ := exists_isRounded_ofDatum hpos.ne' hhigh
    rw [abs_of_pos hpos] at hrounded
    rw [if_neg hpos.not_gt] at his
    obtain ⟨s, hs⟩ := hx
    obtain ⟨t, ht⟩ := hy
    have hnonneg : (0 : Rat) ≤ significand * 2 ^ (double.leastExponent + k) :=
      mul_nonneg (Nat.cast_nonneg _) (zpow_nonneg (by norm_num) _)
    refine ⟨_, ?_, hnonneg, hrounded.le_two_zpow (by omega) hlt, fun hone => ?_⟩
    · show (ofDatum (x.datum.add y.datum)).Is _
      rw [hs, ht]
      simp only [Datum.add, if_neg hpos.ne']
      exact his
    · have := hrounded.two_zpow_le (j := 0) (by omega) (by rwa [zpow_zero])
      rwa [zpow_zero] at this

/-- A sum of terms that are not negative: it is bounded by the size of its terms, and it is at least
one if it has a term that is. -/
theorem exists_is_foldl_add {α : Type} {term : α → Binary64} {exact : α → Rat} {j : Int} {xs : List α}
    (hterm : ∀ x ∈ xs, (term x).Is (exact x)) (hnonneg : ∀ x ∈ xs, 0 ≤ exact x)
    (hlt : ∀ x ∈ xs, exact x < 2 ^ (j - 53)) (hj : 0 ≤ j) (hj' : j < 1022) :
    ∃ r, (xs.foldl (fun sum x => sum + term x) ((0 : Nat) : Binary64)).Is r ∧ 0 ≤ r ∧ r ≤ 2 ^ j ∧
      ((∃ x ∈ xs, 1 ≤ exact x) → 1 ≤ r) := by
  induction xs using List.reverseRecOn with
  | nil =>
    have hzero : (((0 : Nat) : Binary64)).Is 0 := by
      exact_mod_cast is_natCast (n := 0) (by norm_num)
    exact ⟨0, hzero, le_refl 0, by positivity, fun ⟨_, hx, _⟩ => absurd hx List.not_mem_nil⟩
  | append_singleton xs x ih =>
    have hmem : x ∈ xs ++ [x] := by simp
    obtain ⟨p, hp, hp0, hpj, hpone⟩ := ih (fun y hy => hterm y (by simp [hy]))
      (fun y hy => hnonneg y (by simp [hy])) (fun y hy => hlt y (by simp [hy]))
    obtain ⟨r, hr, hr0, hrj, hrone⟩ := hp.exists_add_of_nonneg (hterm x hmem) hp0 (hnonneg x hmem) hj
      hj' hpj (hlt x hmem)
    rw [List.foldl_append]
    refine ⟨r, hr, hr0, hrj, ?_⟩
    rintro ⟨y, hy, hone⟩
    apply hrone
    rcases List.mem_append.mp hy with hy | hy
    · exact (hpone ⟨y, hy, hone⟩).trans (le_add_of_nonneg_right (hnonneg x hmem))
    · rw [List.mem_singleton.mp hy] at hone
      exact hone.trans (le_add_of_nonneg_left hp0)

/-! ## Quotients -/

theorem exists_is_ofDatum_of_lt {q : Rat} (h : |q| < 2 ^ 1023) (negative : Bool) :
    ∃ r, (ofDatum (.finite negative q)).Is r := by
  by_cases hq : q = 0
  · rw [hq]
    exact ⟨0, is_ofDatum_zero negative⟩
  · obtain ⟨k, significand, -, hdecode⟩ :=
      double.exists_isRounded_decode (by decide) hq h negative
    exact ⟨_, negative, by rw [datum_ofDatum, hdecode]⟩

theorem Is.exists_div {x y : Binary64} {p q : Rat} (hx : x.Is p) (hy : y.Is q) (hq : q ≠ 0)
    (hhigh : |p / q| < 2 ^ 1023) : ∃ r, (x / y).Is r := by
  obtain ⟨s, hs⟩ := hx
  obtain ⟨t, ht⟩ := hy
  show ∃ r, (ofDatum (x.datum.div y.datum)).Is r
  rw [hs, ht, Datum.div, if_neg hq]
  exact exists_is_ofDatum_of_lt hhigh _

theorem Is.datum_div_eq_nan {x y : Binary64} (hx : x.Is 0) (hy : y.Is 0) : (x / y).datum = .nan := by
  obtain ⟨s, hs⟩ := hx
  obtain ⟨t, ht⟩ := hy
  show (ofDatum (x.datum.div y.datum)).datum = .nan
  rw [hs, ht, Datum.div, if_pos rfl, if_pos rfl, datum_ofDatum]
  decide +kernel

theorem Is.isFinite_datum {x : Binary64} {q : Rat} (h : x.Is q) : x.datum.isFinite = true := by
  obtain ⟨s, hs⟩ := h
  rw [hs]
  rfl

end Binary64

end PulseHits.Number
