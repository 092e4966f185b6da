import PulseHits.Proofs.Config.Names
import PulseHits.Text.Numeral

/-!
# Numbers that are written

The digits of a number have no zero in front and no letter behind a zero, so they read back as the
number, with or without a sign (`integer?_toString`).
-/

namespace PulseHits.Text

open Config (toList_toString isDigit_of_mem_toDigits)

theorem digitValue?_of_isDigit {c : Char} (h : c.isDigit = true) :
    digitValue? 10 c = some (c.toNat - '0'.toNat) := by
  rw [Char.isDigit_iff_toNat] at h
  have hle : '0' ≤ c ∧ c ≤ '9' := h
  have h : 48 ≤ c.toNat ∧ c.toNat ≤ 57 := h
  have hlt : c.toNat - '0'.toNat < 10 := by
    show c.toNat - 48 < 10
    omega
  unfold digitValue?
  simp only [hle, and_self, if_true, hlt]

theorem natural?_of_isDigit {digits : List Char} (hne : digits ≠ [])
    (h : ∀ c ∈ digits, c.isDigit = true) :
    natural? 10 digits = some (Nat.ofDigitChars 10 digits 0) := by
  have hfold : ∀ (digits : List Char) (n : Nat), (∀ c ∈ digits, c.isDigit = true) →
      digits.foldlM (fun n c => (digitValue? 10 c).map (10 * n + ·)) n =
        some (Nat.ofDigitChars 10 digits n) := by
    intro digits
    induction digits with
    | nil => exact fun n _ => rfl
    | cons c digits ih =>
      intro n h
      rw [List.foldlM_cons, digitValue?_of_isDigit (h c List.mem_cons_self)]
      exact ih _ fun d hd => h d (List.mem_cons_of_mem c hd)
  obtain ⟨c, digits, rfl⟩ := List.exists_cons_of_ne_nil hne
  exact hfold _ 0 h

theorem eq_nil_of_toDigits {n : Nat} {rest : List Char} (h : Nat.toDigits 10 n = '0' :: rest) :
    rest = [] := by
  induction n using Nat.strongRecOn generalizing rest with
  | ind n ih =>
    rw [Nat.toDigits_eq_if (by decide)] at h
    split at h
    · exact (List.cons.inj h).2.symm
    · next hge =>
      cases hfirst : Nat.toDigits 10 (n / 10) with
      | nil => exact absurd hfirst Nat.toDigits_ne_nil
      | cons c more =>
        rw [hfirst, List.cons_append] at h
        obtain ⟨rfl, -⟩ := List.cons.inj h
        have hmore := ih (n / 10) (by omega) hfirst
        have hvalue := Nat.ofDigitChars_toDigits (b := 10) (n := n / 10) (by decide) (by decide)
        rw [hfirst, hmore] at hvalue
        have hzero : 0 = n / 10 := hvalue
        omega

section digits
variable (n : Nat)

theorem based?_toDigits : based? (Nat.toDigits 10 n) = none := by
  have hdigit : ∀ c ∈ Nat.toDigits 10 n, c.isDigit = true := fun c => isDigit_of_mem_toDigits
  unfold based?
  split
  case h_4 => rfl
  all_goals
    next h =>
    have hletter := hdigit _ (h ▸ List.mem_cons_of_mem _ List.mem_cons_self)
    cases hletter

theorem natural?_toDigits : natural? 10 (Nat.toDigits 10 n) = some n := by
  rw [natural?_of_isDigit Nat.toDigits_ne_nil fun c => isDigit_of_mem_toDigits,
    Nat.ofDigitChars_toDigits (by decide) (by decide)]

theorem exists_toDigits : ∃ c rest, Nat.toDigits 10 n = c :: rest ∧ c.isDigit = true ∧
    (c = '0' → rest = []) := by
  obtain ⟨c, rest, h⟩ := List.exists_cons_of_ne_nil (Nat.toDigits_ne_nil (b := 10) (n := n))
  exact ⟨c, rest, h, isDigit_of_mem_toDigits (h ▸ List.mem_cons_self),
    fun hc => eq_nil_of_toDigits (hc ▸ h)⟩

end digits

section sign
variable {c : Char} {rest : List Char}

theorem ne_sign_of_isDigit (h : c.isDigit = true) : c ≠ '+' ∧ c ≠ '-' := by
  constructor <;>
  · rintro rfl
    cases h

theorem dropPlus?_of_isDigit (h : c.isDigit = true) : dropPlus? (c :: rest) = some (c :: rest) := by
  unfold dropPlus?
  split
  · next heq => exact absurd (List.cons.inj heq).1 (ne_sign_of_isDigit h).1
  · rfl

theorem dropSign_of_isDigit (h : c.isDigit = true) : dropSign (c :: rest) = c :: rest := by
  unfold dropSign
  split
  · next heq => exact absurd (List.cons.inj heq).1 (ne_sign_of_isDigit h).1
  · next heq => exact absurd (List.cons.inj heq).1 (ne_sign_of_isDigit h).2
  · rfl

theorem hasLeadingZero_eq_false {chars : List Char} (hchars : dropSign chars = c :: rest)
    (hzero : c = '0' → rest = []) : hasLeadingZero chars = false := by
  rw [hasLeadingZero, hchars]
  split
  · next d more heq =>
    obtain ⟨hc, hrest⟩ := List.cons.inj heq
    rw [hzero hc] at hrest
    cases hrest
  · rfl

end sign

theorem integer?_toString (n : Int) : integer? (toString n).toList = some n := by
  obtain ⟨c, rest, hdigits, hdigit, hzero⟩ := exists_toDigits n.natAbs
  have hbased := based?_toDigits n.natAbs
  have hnatural := natural?_toDigits n.natAbs
  rw [hdigits] at hbased hnatural
  rw [toList_toString, hdigits]
  by_cases hneg : n < 0
  · rw [if_pos hneg, List.singleton_append, integer?,
      show dropPlus? ('-' :: c :: rest) = some ('-' :: c :: rest) from rfl]
    simp only
    rw [show based? ('-' :: c :: rest) = none from rfl, hasLeadingZero_eq_false rfl hzero, hbased,
      hnatural]
    show some (-(n.natAbs : Int)) = some n
    rw [show -(n.natAbs : Int) = n by omega]
  · rw [if_neg hneg, List.nil_append, integer?, dropPlus?_of_isDigit hdigit]
    simp only
    rw [hbased, hasLeadingZero_eq_false (dropSign_of_isDigit hdigit) hzero]
    simp only [Bool.false_eq_true, if_false]
    split
    · next heq => exact absurd (List.cons.inj heq).1 (ne_sign_of_isDigit hdigit).2
    · rw [hnatural]
      show some (n.natAbs : Int) = some n
      rw [show (n.natAbs : Int) = n by omega]

end PulseHits.Text
