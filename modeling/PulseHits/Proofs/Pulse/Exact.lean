import Mathlib.Algebra.BigOperators.Group.List.Basic
import Mathlib.Algebra.Order.Field.Rat
import PulseHits.Pulse.Extract

/-!
# The pulse formulas over the rationals

Read over the rationals, the integral and the moment of a trace are sums over its points
(`integral_eq_sum`, `moment_eq_sum`). A trace that is not empty has a baseline, and with it all of
its features (`exists_baseline?`, `features?_of_baseline?`).
-/

namespace PulseHits.Pulse

open Channel (Sample)

/-- The samples above the baseline, with exact heights. -/
def exactPoints (offset : UInt16) (samples : List Sample) : List (Point Rat) :=
  samples.map (Point.ofSample offset)

@[simp] theorem bucket_ofSample (offset : UInt16) (s : Sample) :
    (Point.ofSample offset s : Point Rat).bucket = s.bucket.toNat := rfl

@[simp] theorem height_ofSample (offset : UInt16) (s : Sample) :
    (Point.ofSample offset s : Point Rat).height = (s.value.toNat : Rat) - offset.toNat := rfl

/-! ## Sums -/

theorem foldl_add_eq_sum (g : Point Rat → Rat) (start : Rat) (points : List (Point Rat)) :
    points.foldl (fun sum p => sum + g p) start = start + (points.map g).sum := by
  induction points generalizing start with
  | nil => simp
  | cons p points ih =>
    rw [List.foldl_cons, ih, List.map_cons, List.sum_cons, add_assoc]

theorem integral_eq_sum (points : List (Point Rat)) :
    integral points = (points.map (·.height)).sum :=
  (foldl_add_eq_sum (·.height) 0 points).trans (zero_add _)

theorem moment_eq_sum (points : List (Point Rat)) :
    moment points = (points.map fun p => p.bucket * p.height).sum :=
  (foldl_add_eq_sum (fun p => p.bucket * p.height) 0 points).trans (zero_add _)

/-! ## Features -/

theorem exists_baseline? {samples : List Sample} (h : samples ≠ []) :
    ∃ offset, baseline? samples = some offset := by
  cases samples with
  | nil => exact absurd rfl h
  | cons s samples => simp [baseline?, List.getLast?_cons]

theorem toNat_min (a b : UInt16) : (min a b).toNat = min a.toNat b.toNat := by
  have hmin : min a b = if a ≤ b then a else b := rfl
  rw [hmin]
  split
  · next hle => exact (Nat.min_eq_left (UInt16.le_iff_toNat_le.mp hle)).symm
  · next hnot => exact (Nat.min_eq_right (Nat.le_of_not_le (mt UInt16.le_iff_toNat_le.mpr hnot))).symm

theorem baseline?_eq_some_iff {samples : List Sample} {offset : UInt16} :
    baseline? samples = some offset ↔ ∃ first last, samples.head? = some first ∧
      samples.getLast? = some last ∧ offset.toNat = min first.value.toNat last.value.toNat := by
  simp only [← toNat_min, UInt16.toNat_inj]
  unfold baseline?
  cases samples.head? with
  | none => simp
  | some first =>
    cases samples.getLast? with
    | none => simp
    | some last => simp [eq_comm]

theorem features?_eq_some {α : Type} [Arithmetic α] {samples : List Sample} {offset : UInt16}
    (h : baseline? samples = some offset) :
    features? (α := α) samples = some {
      time := moment (samples.map (.ofSample offset)) / integral (samples.map (.ofSample offset))
      peak := peakAt samples (peakIndex samples) offset
      integral := integral (samples.map (.ofSample offset)) } := by
  unfold features?
  rw [h]
  rfl

theorem features?_of_baseline? {samples : List Sample} {offset : UInt16}
    (h : baseline? samples = some offset) :
    features? (α := Rat) samples = some {
      time := moment (exactPoints offset samples) / integral (exactPoints offset samples)
      peak := peakAt samples (peakIndex samples) offset
      integral := integral (exactPoints offset samples) } :=
  features?_eq_some h

end PulseHits.Pulse
