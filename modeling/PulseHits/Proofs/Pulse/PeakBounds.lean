import Mathlib.Tactic.Linarith
import Mathlib.Tactic.Positivity
import PulseHits.Proofs.Pulse.Interpolation
import PulseHits.Proofs.Pulse.Maximum

/-!
# How high the peak is

In a trace whose buckets increase, the highest sample is higher than the one before it and no lower
than the one behind it (`Peaked`). So the parabola through the three opens downwards, its vertex
lies between the middles of the two intervals, and its height is at least that of the highest
sample. With buckets that follow each other it is above that by an eighth, at most, of the larger
drop to a neighbour (`Peaked.height_le`). Both bounds hold for the peak of every such trace
(`exists_peakBounds`).
-/

namespace PulseHits.Pulse

open Channel (Sample)

/-! ## Around a highest point -/

/-- Three points in the order of their buckets, the middle one above the first and not below the
third. -/
structure Peaked (p q r : Point Rat) : Prop where
  rise_bucket : p.bucket < q.bucket
  fall_bucket : q.bucket < r.bucket
  rise_height : p.height < q.height
  fall_height : r.height ≤ q.height

namespace Peaked
variable {p q r : Point Rat}

theorem bend_neg (h : Peaked p q r) : bend p q r < 0 := by
  have hrise := mul_pos (sub_pos.mpr h.rise_height) (sub_pos.mpr h.fall_bucket)
  have hfall := mul_nonneg (sub_nonneg.mpr h.fall_height) (sub_nonneg.mpr h.rise_bucket.le)
  unfold bend
  linarith

theorem curved (h : Peaked p q r) : Curved p q r where
  first_ne := h.rise_bucket.ne
  second_ne := h.fall_bucket.ne
  third_ne := (h.rise_bucket.trans h.fall_bucket).ne'
  not_onLine := mt (bend_eq_zero_iff h.rise_bucket.ne).mpr h.bend_neg.ne

theorem curvature_neg (h : Peaked p q r) : (parabola p q r).curvature < 0 := by
  have hrise := sub_pos.mpr h.rise_bucket
  have hfall := sub_pos.mpr h.fall_bucket
  have hwhole := sub_pos.mpr (h.rise_bucket.trans h.fall_bucket)
  exact div_neg_of_neg_of_pos h.bend_neg (mul_pos (mul_pos hfall hrise) hwhole)

theorem height_ge (h : Peaked p q r) : q.height ≤ (parabola p q r).height := by
  have hsecond := h.curved.through.second
  have hsquare := mul_nonpos_of_nonpos_of_nonneg h.curvature_neg.le
    (sq_nonneg (q.bucket - (parabola p q r).vertex))
  unfold Parabola.value at hsecond
  linarith

theorem vertex_between (h : Peaked p q r) :
    (p.bucket + q.bucket) / 2 ≤ (parabola p q r).vertex ∧
      (parabola p q r).vertex ≤ (q.bucket + r.bucket) / 2 := by
  have hbend := h.bend_neg
  have hrise := sub_pos.mpr h.rise_height
  have hfall := sub_nonneg.mpr h.fall_height
  have hbefore := sub_pos.mpr h.rise_bucket
  have hbehind := sub_pos.mpr h.fall_bucket
  have hcross := mul_pos (mul_pos hrise hbehind) hbefore
  have hcross' := mul_nonneg (mul_nonneg hfall hbehind.le) hbefore.le
  have hsquare := mul_pos (mul_pos hrise hbehind) hbehind
  have hsquare' := mul_nonneg (mul_nonneg hfall hbefore.le) hbefore.le
  show _ ≤ vertexBucket p q r ∧ vertexBucket p q r ≤ _
  unfold vertexBucket
  have hneg : 2 * bend p q r < 0 := by linarith
  constructor
  · have hshift : -(q.bucket - p.bucket) / 2 ≤ ((p.height - q.height) * (r.bucket - q.bucket) ^ 2 -
        (r.height - q.height) * (q.bucket - p.bucket) ^ 2) / (2 * bend p q r) := by
      rw [le_div_iff_of_neg hneg]
      unfold bend
      linarith
    linarith
  · have hshift : ((p.height - q.height) * (r.bucket - q.bucket) ^ 2 -
        (r.height - q.height) * (q.bucket - p.bucket) ^ 2) / (2 * bend p q r) ≤
          (r.bucket - q.bucket) / 2 := by
      rw [div_le_iff_of_neg hneg]
      unfold bend
      linarith
    linarith

/-- What is left up to an eighth of the drop, for a vertex no farther than the middle of an
interval. -/
theorem room_nonneg {a t : Rat} (ha : a < 0) (hdrop : 0 ≤ -4 * a * t) (hhalf : t ≤ 1 / 2) :
    0 ≤ -a * (1 - 2 * t) * (1 + 4 * t) := by
  have ht : 0 ≤ t := nonneg_of_mul_nonneg_right hdrop (by linarith)
  apply mul_nonneg
  · exact mul_nonneg (by linarith) (by linarith)
  · linarith

/-- Between buckets that follow each other there is no room for more than an eighth of the drop. -/
theorem height_le (h : Peaked p q r) (hbefore : q.bucket = p.bucket + 1)
    (hbehind : r.bucket = q.bucket + 1) :
    (parabola p q r).height ≤ q.height + (q.height - min p.height r.height) / 8 := by
  have hcurvature := h.curvature_neg
  have hthrough := h.curved.through
  obtain ⟨hlow, hhigh⟩ := h.vertex_between
  obtain ⟨t, ht⟩ : ∃ t, (parabola p q r).vertex = q.bucket + t :=
    ⟨(parabola p q r).vertex - q.bucket, by ring⟩
  have hfirst := hthrough.first
  have hsecond := hthrough.second
  have hthird := hthrough.third
  unfold Parabola.value at hfirst hsecond hthird
  have hp : p.bucket = q.bucket - 1 := by linarith
  rw [ht, hp] at hfirst
  rw [ht] at hsecond
  rw [ht, hbehind] at hthird
  rw [ht, hp] at hlow
  rw [ht, hbehind] at hhigh
  generalize (parabola p q r).curvature = a at *
  generalize (parabola p q r).height = k at *
  -- the lower neighbour is the one that the vertex lies away from
  rcases le_total p.height r.height with hle | hle
  · have hroom : q.height + (q.height - p.height) / 8 - k = -a * (1 - 2 * t) * (1 + 4 * t) / 8 := by
      linear_combination (9 / 8) * hsecond - (1 / 8) * hfirst
    have hnonneg := room_nonneg (t := t) hcurvature (by linarith) (by linarith)
    rw [min_eq_left hle]
    linarith
  · have hroom : q.height + (q.height - r.height) / 8 - k =
        -a * (1 - 2 * -t) * (1 + 4 * -t) / 8 := by
      linear_combination (9 / 8) * hsecond - (1 / 8) * hthird
    have hnonneg := room_nonneg (t := -t) hcurvature (by linarith) (by linarith)
    rw [min_eq_right hle]
    linarith

end Peaked

/-! ## In a trace -/

/-- The buckets of the trace increase from sample to sample. -/
def Increasing (samples : List Sample) : Prop :=
  samples.Pairwise fun s t => s.bucket < t.bucket

/-- What is known of the peak of a trace whose highest sample is `s` at `index`. -/
structure PeakBounds (samples : List Sample) (offset : UInt16) (index : Nat) (s : Sample)
    (peak : Rat) : Prop where
  le_peak : (s.value.toNat : Rat) - offset.toNat ≤ peak
  eq_of_edge : index = 0 ∨ index + 1 = samples.length → peak = (s.value.toNat : Rat) - offset.toNat
  /-- Between two samples the peak is interpolated, and the vertex lies between the middles of the
  intervals. -/
  interpolated : ∀ before after, Around samples index before s after → ∃ x : Rat,
    vertex? (.ofSample offset before) (.ofSample offset s) (.ofSample offset after) = some x ∧
      parabolaAt? (.ofSample offset before) (.ofSample offset s) (.ofSample offset after) x =
        some peak ∧
      ((before.bucket.toNat : Rat) + s.bucket.toNat) / 2 ≤ x ∧
      x ≤ ((s.bucket.toNat : Rat) + after.bucket.toNat) / 2
  /-- The peak is above the sample by an eighth of the larger drop at most. -/
  peak_le : ∀ before after, Around samples index before s after →
    s.bucket.toNat = before.bucket.toNat + 1 → after.bucket.toNat = s.bucket.toNat + 1 →
      peak ≤ (s.value.toNat : Rat) - offset.toNat +
        ((s.value.toNat : Rat) - offset.toNat -
          min ((before.value.toNat : Rat) - offset.toNat)
            ((after.value.toNat : Rat) - offset.toNat)) / 8

section
variable {samples : List Sample} {offset : UInt16} {index : Nat} {before s after : Sample}

theorem Increasing.of_around (h : Increasing samples)
    (haround : Around samples index before s after) :
    before.bucket < s.bucket ∧ s.bucket < after.bucket := by
  obtain ⟨hpos, hbefore, hhere, hafter⟩ := haround
  obtain ⟨hi, rfl⟩ := List.getElem?_eq_some_iff.mp hbefore
  obtain ⟨hj, rfl⟩ := List.getElem?_eq_some_iff.mp hhere
  obtain ⟨hk, rfl⟩ := List.getElem?_eq_some_iff.mp hafter
  have hpairs := List.pairwise_iff_getElem.mp h
  exact ⟨hpairs _ _ hi hj (by omega), hpairs _ _ hj hk (by omega)⟩

theorem IsFirstMax.peaked (h : IsFirstMax samples index s) (hincreasing : Increasing samples)
    (haround : Around samples index before s after) (offset : UInt16) :
    Peaked (.ofSample offset before) (.ofSample offset s) (.ofSample offset after) := by
  obtain ⟨hbefore, hafter⟩ := hincreasing.of_around haround
  have hpos := haround.pos
  have hlower : before.value < s.value := h.lt _ (by omega) _ haround.before_eq
  have hleast : after.value ≤ s.value := h.le _ (List.mem_of_getElem? haround.after_eq)
  rw [UInt32.lt_iff_toNat_lt] at hbefore hafter
  rw [UInt16.lt_iff_toNat_lt] at hlower
  rw [UInt16.le_iff_toNat_le] at hleast
  refine ⟨?_, ?_, ?_, ?_⟩
  · simp only [bucket_ofSample]
    exact_mod_cast hbefore
  · simp only [bucket_ofSample]
    exact_mod_cast hafter
  · simp only [height_ofSample]
    exact sub_lt_sub_right (by exact_mod_cast hlower) _
  · simp only [height_ofSample]
    exact sub_le_sub_right (by exact_mod_cast hleast) _

theorem IsFirstMax.peakBounds (h : IsFirstMax samples index s) (hincreasing : Increasing samples)
    (offset : UInt16) :
    PeakBounds samples offset index s (peakAt samples index offset) := by
  have hlength := h.lt_length
  by_cases hedge : index = 0 ∨ samples.length ≤ index + 1
  · have hpeak : peakAt samples index offset = (s.value.toNat : Rat) - offset.toNat :=
      peakAt_of_edge h.getElem?_eq hedge
    have hnone : ∀ before after, ¬ Around samples index before s after := by
      intro before after haround
      have hpos := haround.pos
      have hlast := haround.lt_length
      omega
    refine ⟨hpeak.ge, fun _ => hpeak, ?_, ?_⟩
    · intro before after haround
      exact absurd haround (hnone before after)
    · intro before after haround
      exact absurd haround (hnone before after)
  · obtain ⟨before, after, haround⟩ := exists_around h.getElem?_eq hedge
    have hpeaked := h.peaked hincreasing haround offset
    have hpeak := peakAt_of_curved haround hpeaked.curved
    have hthrough := hpeaked.curved.through
    -- there is one pair of neighbours
    have honly : ∀ before' after', Around samples index before' s after' →
        before' = before ∧ after' = after := by
      intro before' after' haround'
      exact ⟨Option.some.inj (haround'.before_eq.symm.trans haround.before_eq),
        Option.some.inj (haround'.after_eq.symm.trans haround.after_eq)⟩
    rw [hpeak]
    refine ⟨hpeaked.height_ge, fun hedge' => absurd hedge' (by omega), ?_, ?_⟩
    · intro before' after' haround'
      obtain ⟨rfl, rfl⟩ := honly before' after' haround'
      refine ⟨_, hthrough.vertex?_eq_some hpeaked.curved.bend_ne_zero, ?_, hpeaked.vertex_between⟩
      rw [hthrough.parabolaAt?_eq_some hpeaked.curved.first_ne hpeaked.curved.second_ne
        hpeaked.curved.third_ne]
      simp [Parabola.value]
    · intro before' after' haround' hbefore hafter
      obtain ⟨rfl, rfl⟩ := honly before' after' haround'
      apply hpeaked.height_le
      · simp only [bucket_ofSample]
        exact_mod_cast hbefore
      · simp only [bucket_ofSample]
        exact_mod_cast hafter

theorem exists_peakBounds (hne : samples ≠ []) (hincreasing : Increasing samples) :
    ∃ offset f index s, baseline? samples = some offset ∧ features? (α := Rat) samples = some f ∧
      IsFirstMax samples index s ∧ PeakBounds samples offset index s f.peak := by
  obtain ⟨offset, hoffset⟩ := exists_baseline? hne
  obtain ⟨s, hmax⟩ := exists_isFirstMax hne
  exact ⟨offset, _, _, s, hoffset, features?_of_baseline? hoffset, hmax,
    hmax.peakBounds hincreasing offset⟩

end

end PulseHits.Pulse
