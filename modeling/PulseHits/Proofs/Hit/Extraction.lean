import PulseHits.Proofs.Pulse.Flat
import PulseHits.Proofs.Readout.Hits

/-!
# What is extracted from a trace

The hit of a trace against its definition: the baseline is the smaller end, the integral the sum of
the values less the baseline of each, the time the centroid of the heights and the peak the height
around the first of the highest samples. Of the traces that do not go below their baseline, the flat
ones are those with the integral zero, and those without a time (`ofTrace?_extracted`).
-/

namespace PulseHits.Hit

open Channel (Key Sample)
open Number (Binary64)
open Pulse (Features Flat IsFirstMax Raised features? peakAt valueSum)

/-- The hit was extracted from a trace with the baseline `offset`, and `exact` are the features of
the trace without rounding. -/
structure Extracted (samples : List Sample) (offset : UInt16) (exact : Features Rat) (hit : Hit) :
    Prop where
  /-- The baseline is the smaller end of the trace. -/
  exists_ends : ∃ first last, samples.head? = some first ∧ samples.getLast? = some last ∧
    offset.toNat = min first.value.toNat last.value.toNat
  features?_eq : features? samples = some exact
  /-- The hit has the same features in double precision. -/
  features?_double_eq : features? samples = some ⟨hit.time, hit.peak, hit.integral⟩
  integral_eq : exact.integral = (valueSum samples : Rat) - samples.length * offset.toNat
  time_mul_integral : exact.integral ≠ 0 → exact.time * exact.integral =
    (samples.map fun s => (s.bucket.toNat : Rat) * (s.value.toNat - offset.toNat)).sum
  /-- The peak is around the first of the highest samples. -/
  exists_peak : ∃ index s, IsFirstMax samples index s ∧
    exact.peak = peakAt samples index offset ∧ hit.peak = peakAt samples index offset

section
variable {cobo asad : UInt8} {key : Key} {samples : List Sample} {offset : UInt16}
  {exact : Features Rat} {hit : Hit}

theorem features?_of_ofTrace? (h : ofTrace? cobo asad key samples = some hit) :
    features? samples = some ⟨hit.time, hit.peak, hit.integral⟩ := by
  obtain ⟨f, hf, rfl⟩ := Option.map_eq_some_iff.mp h
  exact hf

theorem extracted_of_ofTrace? (h : ofTrace? cobo asad key samples = some hit)
    (hoffset : Pulse.baseline? samples = some offset) (hexact : features? samples = some exact) :
    Extracted samples offset exact hit := by
  have hne : samples ≠ [] := by
    rintro rfl
    cases hoffset
  obtain ⟨s, hmax⟩ := Pulse.exists_isFirstMax hne
  have hdouble := features?_of_ofTrace? h
  have hsum := Pulse.integral_exactPoints offset samples
  obtain rfl := Option.some.inj ((Pulse.features?_of_baseline? hoffset).symm.trans hexact)
  obtain ⟨-, hpeak, -⟩ := Features.mk.inj
    (Option.some.inj ((Pulse.features?_eq_some hoffset).symm.trans hdouble))
  refine ⟨Pulse.baseline?_eq_some_iff.mp hoffset, hexact, hdouble, ?_, fun hne => ?_,
    ⟨_, s, hmax, rfl, hpeak.symm⟩⟩
  · rw [hsum, Pulse.heightSum_eq]
    push_cast
    rfl
  · rw [div_mul_cancel₀ _ hne, Pulse.moment_eq_sum, Pulse.exactPoints, List.map_map]
    rfl

namespace Extracted

theorem integral_eq_heightSum (h : Extracted samples offset exact hit) :
    exact.integral = Pulse.heightSum offset samples := by
  rw [h.integral_eq, Pulse.heightSum_eq]
  push_cast
  rfl

theorem integral_nonneg (h : Extracted samples offset exact hit) (hraised : Raised offset samples) :
    0 ≤ exact.integral := by
  rw [h.integral_eq_heightSum]
  exact_mod_cast hraised.heightSum_nonneg

theorem integral_eq_zero_iff (h : Extracted samples offset exact hit)
    (hraised : Raised offset samples) : exact.integral = 0 ↔ Flat offset samples := by
  rw [h.integral_eq_heightSum, Int.cast_eq_zero]
  exact hraised.heightSum_eq_zero_iff

theorem baseline?_eq (h : Extracted samples offset exact hit) :
    Pulse.baseline? samples = some offset :=
  Pulse.baseline?_eq_some_iff.mpr h.exists_ends

theorem isFinite_time_eq_false_iff (h : Extracted samples offset exact hit)
    (hraised : Raised offset samples) :
    hit.time.datum.isFinite = false ↔ Flat offset samples := by
  obtain ⟨htime, -, -⟩ := Features.mk.inj (Option.some.inj
    ((Pulse.features?_eq_some h.baseline?_eq).symm.trans h.features?_double_eq))
  rw [← htime]
  exact hraised.isFinite_time_eq_false_iff

theorem peak_of_flat (h : Extracted samples offset exact hit) (hflat : Flat offset samples) :
    exact.peak = 0 ∧ hit.peak.Is 0 := by
  obtain ⟨index, s, hmax, hexact, hdouble⟩ := h.exists_peak
  have hvalue : s.value = offset := hflat s (List.mem_of_getElem? hmax.getElem?_eq)
  constructor
  · rw [hexact, hflat.peakAt_eq hmax, Pulse.height_ofSample, hvalue, sub_self]
  · have hheight := Pulse.is_height offset s
    rw [Pulse.heightInt_eq_zero_iff.mpr hvalue, Int.cast_zero] at hheight
    rwa [hdouble, hflat.peakAt_eq hmax]

end Extracted
end

/-- **What is extracted from a trace.** An empty trace has no hit. Any other has one, with the
features that it should have; and if no sample is below the baseline, the integral is not negative,
it is zero for flat traces only, these are the only ones without a finite time, and their peak is
zero. -/
theorem ofTrace?_extracted (cobo asad : UInt8) (key : Key) (samples : List Sample) :
    (ofTrace? cobo asad key samples = none ↔ samples = []) ∧
      (samples ≠ [] → ∃ offset exact hit, ofTrace? cobo asad key samples = some hit ∧
        Extracted samples offset exact hit ∧
        (Raised offset samples →
          0 ≤ exact.integral ∧ (exact.integral = 0 ↔ Flat offset samples) ∧
          (hit.time.datum.isFinite = false ↔ Flat offset samples) ∧
          (Flat offset samples → exact.peak = 0 ∧ hit.peak.Is 0))) := by
  refine ⟨ofTrace?_eq_none_iff, fun hne => ?_⟩
  obtain ⟨offset, hoffset⟩ := Pulse.exists_baseline? hne
  obtain ⟨hit, hhit⟩ := exists_ofTrace?_eq_some cobo asad key hne
  have h := extracted_of_ofTrace? hhit hoffset (Pulse.features?_of_baseline? hoffset)
  refine ⟨offset, _, hit, hhit, h, fun hraised => ?_⟩
  exact ⟨h.integral_nonneg hraised, h.integral_eq_zero_iff hraised,
    h.isFinite_time_eq_false_iff hraised, h.peak_of_flat⟩

/-- Two highest samples, in buckets without order. -/
def twoHighest : List Sample :=
  [⟨3, 50⟩, ⟨7, 90⟩, ⟨4, 90⟩, ⟨9, 52⟩]

def level : List Sample :=
  [⟨5, 20⟩, ⟨6, 20⟩]

theorem ofTrace?_extracted_twoHighest :
    (∃ exact hit, ofTrace? 1 2 ⟨3, 67⟩ twoHighest = some hit ∧ Extracted twoHighest 50 exact hit ∧
        exact = ⟨229 / 41, 125 / 2, 82⟩ ∧ hit.time.datum.isFinite = true) ∧
      ∃ exact hit, ofTrace? 1 2 ⟨3, 67⟩ level = some hit ∧ Extracted level 20 exact hit ∧
        exact.integral = 0 ∧ exact.peak = 0 ∧ hit.peak.Is 0 ∧ hit.time.datum.isFinite = false := by
  constructor
  · obtain ⟨offset, exact, hit, hhit, h, hraised⟩ :=
      (ofTrace?_extracted 1 2 ⟨3, 67⟩ twoHighest).2 nofun
    obtain rfl : offset = 50 := Option.some.inj (h.baseline?_eq.symm.trans (by decide))
    obtain rfl : exact = ⟨229 / 41, 125 / 2, 82⟩ :=
      Option.some.inj (h.features?_eq.symm.trans (by decide +kernel))
    obtain ⟨-, -, htime, -⟩ := hraised (by unfold Raised; decide)
    refine ⟨_, hit, hhit, h, rfl, ?_⟩
    rw [← Bool.not_eq_false, htime]
    unfold Flat
    decide
  · obtain ⟨offset, exact, hit, hhit, h, hraised⟩ :=
      (ofTrace?_extracted 1 2 ⟨3, 67⟩ level).2 nofun
    obtain rfl : offset = 20 := Option.some.inj (h.baseline?_eq.symm.trans (by decide))
    have hflat : Flat 20 level := by
      unfold Flat
      decide
    obtain ⟨-, hintegral, htime, hpeak⟩ := hraised (by unfold Raised; decide)
    exact ⟨exact, hit, hhit, h, hintegral.mpr hflat, (hpeak hflat).1, (hpeak hflat).2,
      htime.mpr hflat⟩

end PulseHits.Hit
