import PulseHits.Proofs.Number.Saturation
import PulseHits.Proofs.Pulse.Maximum
import PulseHits.Proofs.Pulse.Sums

/-!
# Traces that do not go below their baseline

Heights that are not negative add up to zero only where there are none, so a trace that nowhere goes
below its baseline has the integral zero if and only if it is flat (`Raised.heightSum_eq_zero_iff`).
Then the peak is zero too, and the time, zero divided by zero, is no number. Any other such trace has
a finite time in double precision, however long it is and however often its sums were rounded
(`Raised.isFinite_time_eq_false_iff`).
-/

namespace PulseHits.Pulse

open Channel (Sample)
open Number (Binary64)

/-- No sample lies below the baseline. -/
def Raised (offset : UInt16) (samples : List Sample) : Prop :=
  ∀ s ∈ samples, offset ≤ s.value

/-- Every sample lies on the baseline. -/
def Flat (offset : UInt16) (samples : List Sample) : Prop :=
  ∀ s ∈ samples, s.value = offset

section
variable {offset : UInt16} {samples : List Sample} {s : Sample}

theorem heightInt_eq_zero_iff : heightInt offset s = 0 ↔ s.value = offset := by
  rw [heightInt, sub_eq_zero, Nat.cast_inj, UInt16.toNat_inj]

/-! ## Exactly -/

theorem Raised.heightInt_nonneg (h : Raised offset samples) :
    ∀ s ∈ samples, 0 ≤ heightInt offset s := by
  intro s hs
  have hle := UInt16.le_iff_toNat_le.mp (h s hs)
  unfold heightInt
  omega

theorem Raised.exists_one_le_heightInt (h : Raised offset samples) (hnot : ¬ Flat offset samples) :
    ∃ s ∈ samples, 1 ≤ heightInt offset s := by
  simp only [Flat, not_forall] at hnot
  obtain ⟨s, hs, hne⟩ := hnot
  have hnonneg := h.heightInt_nonneg s hs
  have hzero := mt heightInt_eq_zero_iff.mp hne
  exact ⟨s, hs, by omega⟩

theorem Raised.heightSum_nonneg (h : Raised offset samples) : 0 ≤ heightSum offset samples := by
  apply List.sum_nonneg
  intro x hx
  obtain ⟨s, hs, rfl⟩ := List.mem_map.mp hx
  exact h.heightInt_nonneg s hs

theorem Flat.heightSum_eq (h : Flat offset samples) : heightSum offset samples = 0 := by
  apply List.sum_eq_zero
  intro x hx
  obtain ⟨s, hs, rfl⟩ := List.mem_map.mp hx
  exact heightInt_eq_zero_iff.mpr (h s hs)

theorem Flat.momentSum_eq (h : Flat offset samples) : momentSum offset samples = 0 := by
  apply List.sum_eq_zero
  intro x hx
  obtain ⟨s, hs, rfl⟩ := List.mem_map.mp hx
  rw [heightInt_eq_zero_iff.mpr (h s hs), mul_zero]

theorem Raised.heightSum_eq_zero_iff (h : Raised offset samples) :
    heightSum offset samples = 0 ↔ Flat offset samples := by
  refine ⟨fun hzero => ?_, Flat.heightSum_eq⟩
  by_contra hnot
  obtain ⟨s, hs, hone⟩ := h.exists_one_le_heightInt hnot
  have hle : heightInt offset s ≤ heightSum offset samples := by
    apply List.single_le_sum _ _ (List.mem_map_of_mem hs)
    intro x hx
    obtain ⟨t, ht, rfl⟩ := List.mem_map.mp hx
    exact h.heightInt_nonneg t ht
  omega

theorem Flat.peakAt_eq {α : Type} [Arithmetic α] (h : Flat offset samples) {index : Nat}
    (hmax : IsFirstMax samples index s) :
    peakAt (α := α) samples index offset = (Point.ofSample offset s).height := by
  have hindex : index = 0 := by
    by_contra hpos
    have hlength := hmax.lt_length
    have hlt := hmax.lt 0 (by omega) _ (List.getElem?_eq_getElem (by omega))
    rw [h s (List.mem_of_getElem? hmax.getElem?_eq), h _ (List.getElem_mem _)] at hlt
    exact absurd hlt (UInt16.lt_irrefl _)
  exact peakAt_of_edge hmax.getElem?_eq (.inl hindex)

/-! ## In double precision -/

theorem Flat.exactSums (h : Flat offset samples) : ExactSums offset samples := by
  have hflat : ∀ before, before <+: samples → Flat offset before :=
    fun before hpart t ht => h t (hpart.subset ht)
  apply exactSums_of_lt
  · intro before hpart
    rw [(hflat before hpart).heightSum_eq]
    norm_num
  · intro before hpart
    rw [(hflat before hpart).momentSum_eq]
    norm_num

theorem Flat.datum_time_eq (h : Flat offset samples) :
    (moment (samples.map (.ofSample offset)) / integral (samples.map (.ofSample offset)) :
      Binary64).datum = .nan := by
  have hintegral := h.exactSums.integral_is
  have hmoment := h.exactSums.moment_is
  rw [h.heightSum_eq, Int.cast_zero] at hintegral
  rw [h.momentSum_eq, Int.cast_zero] at hmoment
  exact hmoment.datum_div_eq_nan hintegral

theorem Raised.exists_is_integral (h : Raised offset samples) :
    ∃ r, (integral (samples.map (.ofSample offset)) : Binary64).Is r ∧
      (¬ Flat offset samples → 1 ≤ r) := by
  have hlt : ∀ s ∈ samples, (heightInt offset s : Rat) < 2 ^ ((69 : Int) - 53) := by
    intro s _
    have hheight := (le_abs_self _).trans_lt (abs_heightInt_lt offset s)
    norm_num at hheight ⊢
    exact_mod_cast hheight
  obtain ⟨r, hr, -, -, hone⟩ := Binary64.exists_is_foldl_add (fun s _ => is_height offset s)
    (fun s hs => Int.cast_nonneg (h.heightInt_nonneg s hs)) hlt (by norm_num) (by norm_num)
  refine ⟨r, ?_, fun hnot => ?_⟩
  · unfold integral
    rwa [List.foldl_map]
  · obtain ⟨s, hs, hheight⟩ := h.exists_one_le_heightInt hnot
    exact hone ⟨s, hs, by exact_mod_cast hheight⟩

theorem Raised.exists_is_moment (h : Raised offset samples) :
    ∃ r, (moment (samples.map (.ofSample offset)) : Binary64).Is r ∧ 0 ≤ r ∧ r ≤ 2 ^ (101 : Int) := by
  have hnonneg : ∀ s ∈ samples, 0 ≤ bucketInt s * heightInt offset s :=
    fun s hs => mul_nonneg (Int.natCast_nonneg _) (h.heightInt_nonneg s hs)
  have hlt : ∀ s ∈ samples, ((bucketInt s * heightInt offset s : Int) : Rat) <
      2 ^ ((101 : Int) - 53) := by
    intro s _
    have hterm := (le_abs_self _).trans_lt (abs_bucketInt_mul_heightInt_lt offset s)
    norm_num at hterm ⊢
    exact_mod_cast hterm
  obtain ⟨r, hr, hzero, hle, -⟩ := Binary64.exists_is_foldl_add
    (fun s _ => is_bucket_mul_height offset s) (fun s hs => Int.cast_nonneg (hnonneg s hs)) hlt
    (by norm_num) (by norm_num)
  refine ⟨r, ?_, hzero, hle⟩
  unfold moment
  rwa [List.foldl_map]

theorem Raised.isFinite_time_eq_false_iff (h : Raised offset samples) :
    (moment (samples.map (.ofSample offset)) / integral (samples.map (.ofSample offset)) :
      Binary64).datum.isFinite = false ↔ Flat offset samples := by
  constructor
  · intro hfinite
    by_contra hnot
    obtain ⟨q, hq, hone⟩ := h.exists_is_integral
    obtain ⟨p, hp, hnonneg, hle⟩ := h.exists_is_moment
    have hone := hone hnot
    have hquotient : |p / q| < 2 ^ 1023 := by
      rw [abs_of_nonneg (div_nonneg hnonneg (by linarith))]
      calc p / q ≤ p := div_le_self hnonneg hone
        _ ≤ 2 ^ (101 : Int) := hle
        _ < 2 ^ 1023 := by
          rw [zpow_ofNat]
          exact pow_lt_pow_right₀ (by norm_num) (by norm_num)
    obtain ⟨r, hr⟩ := hp.exists_div hq (by linarith) hquotient
    rw [hr.isFinite_datum] at hfinite
    cases hfinite
  · intro hflat
    rw [hflat.datum_time_eq]
    rfl

end

end PulseHits.Pulse
