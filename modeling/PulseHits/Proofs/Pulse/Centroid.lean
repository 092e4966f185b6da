import Mathlib.Algebra.Order.BigOperators.Group.List
import Mathlib.Tactic.Linarith
import Mathlib.Tactic.Ring
import PulseHits.Proofs.Pulse.Exact

/-!
# Where the centroid lies

The time of a pulse is the centroid of its heights. The baseline is the lower end of the trace and
not its lowest sample, so samples in between may lie below it, and these pull the centroid away from
where they are. What lies below is set off against what lies above (`integral_eq`), and the centroid
leaves the buckets of the trace by no more than `overhang`: not at all where no sample, or every
sample that counts, lies below the baseline (`time_within`).
-/

namespace PulseHits.Pulse

open Channel (Sample)

/-! ## Above and below the baseline -/

/-- The sum of the heights above the baseline. -/
def above (points : List (Point Rat)) : Rat :=
  (points.map fun p => max p.height 0).sum

/-- The sum of the depths below the baseline. -/
def below (points : List (Point Rat)) : Rat :=
  (points.map fun p => max (-p.height) 0).sum

theorem above_nonneg (points : List (Point Rat)) : 0 ≤ above points := by
  apply List.sum_nonneg
  simp

theorem below_nonneg (points : List (Point Rat)) : 0 ≤ below points := by
  apply List.sum_nonneg
  simp

theorem above_eq_zero {points : List (Point Rat)} (h : ∀ p ∈ points, p.height ≤ 0) :
    above points = 0 := by
  apply List.sum_eq_zero
  intro x hx
  obtain ⟨p, hp, rfl⟩ := List.mem_map.mp hx
  exact max_eq_right (h p hp)

theorem below_eq_zero {points : List (Point Rat)} (h : ∀ p ∈ points, 0 ≤ p.height) :
    below points = 0 := by
  apply List.sum_eq_zero
  intro x hx
  obtain ⟨p, hp, rfl⟩ := List.mem_map.mp hx
  exact max_eq_right (neg_nonpos.mpr (h p hp))

theorem integral_eq (points : List (Point Rat)) :
    integral points = above points - below points := by
  rw [integral_eq_sum]
  unfold above below
  induction points with
  | nil => simp
  | cons p points ih =>
    have hparts : p.height = max p.height 0 - max (-p.height) 0 := by
      rcases le_total 0 p.height with h | h
      · rw [max_eq_left h, max_eq_right (neg_nonpos.mpr h), sub_zero]
      · rw [max_eq_right h, max_eq_left (neg_nonneg.mpr h), zero_sub, neg_neg]
    simp only [List.map_cons, List.sum_cons]
    linarith

/-! ## The moment -/

section
variable {lo hi : Rat}

/-- Wherever a height lies, it counts no more than at one end and no less than at the other; a depth
the other way round. -/
theorem mul_height_between {x y : Rat} (hlo : lo ≤ x) (hhi : x ≤ hi) :
    lo * max y 0 - hi * max (-y) 0 ≤ x * y ∧ x * y ≤ hi * max y 0 - lo * max (-y) 0 := by
  rcases le_total 0 y with hy | hy
  · have hleft := mul_le_mul_of_nonneg_right hlo hy
    have hright := mul_le_mul_of_nonneg_right hhi hy
    rw [max_eq_left hy, max_eq_right (neg_nonpos.mpr hy)]
    constructor
    · linarith
    · linarith
  · have hleft := mul_le_mul_of_nonpos_right hlo hy
    have hright := mul_le_mul_of_nonpos_right hhi hy
    rw [max_eq_right hy, max_eq_left (neg_nonneg.mpr hy)]
    constructor
    · linarith
    · linarith

/-- At most, all that lies above is in the last bucket and all that lies below in the first. -/
theorem moment_between {points : List (Point Rat)}
    (h : ∀ p ∈ points, lo ≤ p.bucket ∧ p.bucket ≤ hi) :
    lo * above points - hi * below points ≤ moment points ∧
      moment points ≤ hi * above points - lo * below points := by
  rw [moment_eq_sum]
  unfold above below
  induction points with
  | nil => simp
  | cons p points ih =>
    obtain ⟨⟨hlo, hhi⟩, hrest⟩ := List.forall_mem_cons.mp h
    obtain ⟨hlower, hupper⟩ := mul_height_between (y := p.height) hlo hhi
    obtain ⟨ihlower, ihupper⟩ := ih hrest
    simp only [List.map_cons, List.sum_cons]
    constructor
    · linarith
    · linarith

/-! ## The centroid -/

/-- How far outside its buckets the centroid of a trace can lie, if they span `span`. -/
def overhang (points : List (Point Rat)) (span : Rat) : Rat :=
  span * min (above points) (below points) / |above points - below points|

theorem overhang_eq_zero {points : List (Point Rat)}
    (h : (∀ p ∈ points, 0 ≤ p.height) ∨ ∀ p ∈ points, p.height ≤ 0) (span : Rat) :
    overhang points span = 0 := by
  have hmin : min (above points) (below points) = 0 := by
    rcases h with h | h
    · rw [below_eq_zero h, min_eq_right (above_nonneg points)]
    · rw [above_eq_zero h, min_eq_left (below_nonneg points)]
  rw [overhang, hmin, mul_zero, zero_div]

theorem centroid_within {points : List (Point Rat)}
    (h : ∀ p ∈ points, lo ≤ p.bucket ∧ p.bucket ≤ hi) (hsum : integral points ≠ 0) :
    lo - overhang points (hi - lo) ≤ moment points / integral points ∧
      moment points / integral points ≤ hi + overhang points (hi - lo) := by
  obtain ⟨hlower, hupper⟩ := moment_between h
  rw [integral_eq] at hsum ⊢
  unfold overhang
  generalize above points = a at *
  generalize below points = b at *
  generalize moment points = m at *
  rcases lt_or_gt_of_ne hsum with hneg | hpos
  · -- more lies below than above
    have hflip : m / (a - b) = -m / (b - a) := by rw [← neg_sub b a, div_neg, neg_div]
    have hpos : 0 < b - a := by linarith
    rw [min_eq_left (by linarith), abs_of_neg hneg, neg_sub, hflip]
    constructor
    · rw [le_div_iff₀ hpos, sub_mul, div_mul_cancel₀ _ hpos.ne']
      linarith
    · rw [div_le_iff₀ hpos, add_mul, div_mul_cancel₀ _ hpos.ne']
      linarith
  · have hpos : 0 < a - b := hpos
    rw [min_eq_right (by linarith), abs_of_pos hpos]
    constructor
    · rw [le_div_iff₀ hpos, sub_mul, div_mul_cancel₀ _ hpos.ne']
      linarith
    · rw [div_le_iff₀ hpos, add_mul, div_mul_cancel₀ _ hpos.ne']
      linarith

end

/-- **Where the centroid lies.** The time of a trace whose heights do not sum to zero is at most by
the overhang outside its buckets, and so it is inside if the heights do not have both signs. -/
theorem time_within {samples : List Sample} (h : samples ≠ []) :
    ∃ offset f, baseline? samples = some offset ∧ features? (α := Rat) samples = some f ∧
      (((exactPoints offset samples).map (·.height)).sum ≠ 0 →
        ∀ lo hi : Rat, (∀ s ∈ samples, lo ≤ s.bucket.toNat ∧ s.bucket.toNat ≤ hi) →
          (lo - overhang (exactPoints offset samples) (hi - lo) ≤ f.time ∧
            f.time ≤ hi + overhang (exactPoints offset samples) (hi - lo)) ∧
          ((∀ p ∈ exactPoints offset samples, 0 ≤ p.height) ∨
              (∀ p ∈ exactPoints offset samples, p.height ≤ 0) →
            lo ≤ f.time ∧ f.time ≤ hi)) := by
  obtain ⟨offset, hoffset⟩ := exists_baseline? h
  refine ⟨offset, _, hoffset, features?_of_baseline? hoffset, ?_⟩
  intro hsum lo hi hbuckets
  rw [← integral_eq_sum] at hsum
  have hpoints : ∀ p ∈ exactPoints offset samples, lo ≤ p.bucket ∧ p.bucket ≤ hi := by
    intro p hp
    obtain ⟨s, hs, rfl⟩ := List.mem_map.mp hp
    exact hbuckets s hs
  have hwithin := centroid_within hpoints hsum
  refine ⟨hwithin, fun hsign => ?_⟩
  rwa [overhang_eq_zero hsign, sub_zero, add_zero] at hwithin

/-- A pulse that comes back to its baseline, in buckets without order. -/
def scattered : List Sample :=
  [⟨40, 5⟩, ⟨12, 90⟩, ⟨300, 30⟩, ⟨77, 5⟩]

/-- A trace that drops below its baseline before it rises, as early and as late as its buckets go.
-/
def undershoot : List Sample :=
  [⟨1, 10⟩, ⟨0, 0⟩, ⟨3, 25⟩, ⟨2, 10⟩]

/-- The first centroid is inside the buckets, and the second is as far outside as it can be. -/
theorem time_within_undershoot :
    (∃ f, features? (α := Rat) scattered = some f ∧ 12 ≤ f.time ∧ f.time ≤ 300) ∧
      ∃ f, features? (α := Rat) undershoot = some f ∧ f.time ≤ 3 + 6 ∧ f.time = 9 := by
  constructor
  · obtain ⟨offset, f, hoffset, hf, hwithin⟩ := time_within (show scattered ≠ [] by decide)
    obtain rfl : offset = 5 :=
      Option.some.inj (hoffset.symm.trans (show baseline? scattered = some 5 by decide))
    have hbounds := hwithin (by decide +kernel) 12 300 (by decide +kernel)
    exact ⟨f, hf, hbounds.2 (.inl (by decide +kernel))⟩
  · obtain ⟨offset, f, hoffset, hf, hwithin⟩ := time_within (show undershoot ≠ [] by decide)
    obtain rfl : offset = 10 :=
      Option.some.inj (hoffset.symm.trans (show baseline? undershoot = some 10 by decide))
    obtain ⟨⟨-, hle⟩, -⟩ := hwithin (by decide +kernel) 0 3 (by decide +kernel)
    have hoverhang : overhang (exactPoints 10 undershoot) (3 - 0) = 6 := by decide +kernel
    have htime : (features? (α := Rat) undershoot).map (·.time) = some 9 := by decide +kernel
    rw [hf, Option.map_some, Option.some.injEq] at htime
    rw [hoverhang] at hle
    exact ⟨f, hf, hle, htime⟩

/-- A sample below the baseline can push the centroid out of the buckets. -/
theorem not_forall_time_within :
    ¬ ∀ samples f, features? (α := Rat) samples = some f → f.integral ≠ 0 →
      ∀ lo hi : Rat, (∀ s ∈ samples, lo ≤ s.bucket.toNat ∧ s.bucket.toNat ≤ hi) →
        lo ≤ f.time ∧ f.time ≤ hi := by
  intro h
  have hfeatures : features? (α := Rat) [⟨0, 10⟩, ⟨1, 0⟩, ⟨2, 25⟩, ⟨3, 10⟩] =
      some ⟨4, 245 / 16, 5⟩ := by decide +kernel
  have htime := (h _ _ hfeatures (by decide) 0 3 (by decide +kernel)).2
  exact absurd htime (by decide +kernel)

end PulseHits.Pulse
