import Mathlib.Tactic.FieldSimp
import Mathlib.Tactic.LinearCombination
import Mathlib.Tactic.Ring
import PulseHits.Proofs.Pulse.Exact

/-!
# The parabola through three points

Three points with different buckets lie either on a line or on one parabola (`Curved.through`,
`Parabola.Through.eq_parabola`), in whatever order and at whatever distances the buckets are. Where
there is a parabola, the two formulas of the interpolation find its vertex and its value there
(`Parabola.Through.vertex?_eq_some`, `Parabola.Through.parabolaAt?_eq_some`); where there is none,
one of them has no answer (`vertex?_eq_none_iff`, `parabolaAt?_eq_none_iff`).
-/

namespace PulseHits.Pulse

/-- A parabola with an upright axis. -/
@[ext]
structure Parabola where
  curvature : Rat
  /-- The bucket of the vertex. -/
  vertex : Rat
  /-- The height of the vertex. -/
  height : Rat

namespace Parabola

/-- The height of the parabola at a bucket. -/
def value (c : Parabola) (x : Rat) : Rat :=
  c.curvature * (x - c.vertex) ^ 2 + c.height

/-- The parabola is curved and goes through three points. -/
structure Through (c : Parabola) (p q r : Point Rat) : Prop where
  curved : c.curvature ≠ 0
  first : p.height = c.value p.bucket
  second : q.height = c.value q.bucket
  third : r.height = c.value r.bucket

end Parabola

/-- The points lie on a line that is not upright. -/
def OnLine (p q r : Point Rat) : Prop :=
  ∃ slope start : Rat, p.height = slope * p.bucket + start ∧ q.height = slope * q.bucket + start ∧
    r.height = slope * r.bucket + start

/-- The points have a parabola: their buckets are different and they do not lie on a line. -/
structure Curved (p q r : Point Rat) : Prop where
  first_ne : p.bucket ≠ q.bucket
  second_ne : q.bucket ≠ r.bucket
  third_ne : r.bucket ≠ p.bucket
  not_onLine : ¬ OnLine p q r

/-! ## Where there is no parabola -/

/-- The area that tells whether three points lie on a line, up to a factor. -/
def bend (p q r : Point Rat) : Rat :=
  (p.height - q.height) * (r.bucket - q.bucket) + (r.height - q.height) * (q.bucket - p.bucket)

section
variable {p q r : Point Rat}

theorem vertex?_eq (p q r : Point Rat) : vertex? p q r =
    if bend p q r = 0 then none
    else some (q.bucket + ((p.height - q.height) * (r.bucket - q.bucket) ^ 2 -
      (r.height - q.height) * (q.bucket - p.bucket) ^ 2) / (2 * bend p q r)) := by
  have hzero : ∀ x : Rat, (Arithmetic.isZero x = true) = (x = 0) := fun x => beq_iff_eq.eq
  simp only [vertex?, hzero, pow_two]
  rfl

theorem vertex?_eq_none_iff : vertex? p q r = none ↔ bend p q r = 0 := by
  rw [vertex?_eq]
  split <;> simp_all

theorem parabolaAt?_eq (p q r : Point Rat) (x : Rat) : parabolaAt? p q r x =
    if (p.bucket - q.bucket) * (p.bucket - r.bucket) *
        ((q.bucket - r.bucket) * (q.bucket - p.bucket)) *
        ((r.bucket - p.bucket) * (r.bucket - q.bucket)) = 0 then none
    else some
      (p.height * (x - q.bucket) * (x - r.bucket) /
          ((p.bucket - q.bucket) * (p.bucket - r.bucket)) +
        q.height * (x - r.bucket) * (x - p.bucket) /
          ((q.bucket - r.bucket) * (q.bucket - p.bucket)) +
        r.height * (x - p.bucket) * (x - q.bucket) /
          ((r.bucket - p.bucket) * (r.bucket - q.bucket))) := by
  have hzero : ∀ x : Rat, (Arithmetic.isZero x = true) = (x = 0) := fun x => beq_iff_eq.eq
  simp only [parabolaAt?, hzero]

theorem parabolaAt?_eq_none_iff {x : Rat} : parabolaAt? p q r x = none ↔
    p.bucket = q.bucket ∨ q.bucket = r.bucket ∨ r.bucket = p.bucket := by
  rw [parabolaAt?_eq]
  simp only [ite_eq_left_iff, reduceCtorEq, imp_false, not_not, mul_eq_zero, sub_eq_zero]
  tauto

theorem bend_eq_zero_iff (hne : p.bucket ≠ q.bucket) : bend p q r = 0 ↔ OnLine p q r := by
  have hne' : q.bucket - p.bucket ≠ 0 := sub_ne_zero.mpr hne.symm
  unfold bend
  constructor
  · intro h
    refine ⟨(q.height - p.height) / (q.bucket - p.bucket),
      p.height - (q.height - p.height) / (q.bucket - p.bucket) * p.bucket, ?_, ?_, ?_⟩
    · ring
    · field_simp
      ring
    · field_simp
      linear_combination h
  · rintro ⟨slope, start, hp, hq, hr⟩
    rw [hp, hq, hr]
    ring

/-- The interpolation has an answer in both of its steps if and only if there is a parabola. -/
theorem curved_iff : Curved p q r ↔ vertex? p q r ≠ none ∧ ∀ x, parabolaAt? p q r x ≠ none := by
  simp only [ne_eq, vertex?_eq_none_iff, parabolaAt?_eq_none_iff, not_or]
  constructor
  · rintro ⟨h₁, h₂, h₃, hline⟩
    exact ⟨mt (bend_eq_zero_iff h₁).mp hline, fun _ => ⟨h₁, h₂, h₃⟩⟩
  · rintro ⟨hbend, hne⟩
    obtain ⟨h₁, h₂, h₃⟩ := hne 0
    exact ⟨h₁, h₂, h₃, mt (bend_eq_zero_iff h₁).mpr hbend⟩

/-! ## Where there is one -/

namespace Parabola.Through
variable {c : Parabola}

theorem bend_eq (h : c.Through p q r) : bend p q r =
    c.curvature * ((r.bucket - q.bucket) * (q.bucket - p.bucket) * (r.bucket - p.bucket)) := by
  rw [bend, h.first, h.second, h.third]
  unfold Parabola.value
  ring

theorem vertex?_eq_some (h : c.Through p q r) (hbend : bend p q r ≠ 0) :
    vertex? p q r = some c.vertex := by
  have hnumer : (p.height - q.height) * (r.bucket - q.bucket) ^ 2 -
      (r.height - q.height) * (q.bucket - p.bucket) ^ 2 =
        2 * bend p q r * (c.vertex - q.bucket) := by
    rw [h.bend_eq, h.first, h.second, h.third]
    unfold Parabola.value
    ring
  rw [vertex?_eq, if_neg hbend, hnumer, mul_div_cancel_left₀ _ (mul_ne_zero two_ne_zero hbend),
    add_sub_cancel]

theorem parabolaAt?_eq_some (h : c.Through p q r) (h₁ : p.bucket ≠ q.bucket)
    (h₂ : q.bucket ≠ r.bucket) (h₃ : r.bucket ≠ p.bucket) (x : Rat) :
    parabolaAt? p q r x = some (c.value x) := by
  have hpq := sub_ne_zero.mpr h₁
  have hqp := sub_ne_zero.mpr h₁.symm
  have hqr := sub_ne_zero.mpr h₂
  have hrq := sub_ne_zero.mpr h₂.symm
  have hrp := sub_ne_zero.mpr h₃
  have hpr := sub_ne_zero.mpr h₃.symm
  rw [parabolaAt?_eq, if_neg (by simp [hpq, hqp, hqr, hrq, hrp, hpr]), h.first, h.second, h.third,
    Option.some.injEq]
  unfold Parabola.value
  field_simp
  ring

end Parabola.Through

/-- The curvature of the parabola through three points. -/
def curvature (p q r : Point Rat) : Rat :=
  bend p q r / ((r.bucket - q.bucket) * (q.bucket - p.bucket) * (r.bucket - p.bucket))

/-- The bucket of its vertex. -/
def vertexBucket (p q r : Point Rat) : Rat :=
  q.bucket + ((p.height - q.height) * (r.bucket - q.bucket) ^ 2 -
    (r.height - q.height) * (q.bucket - p.bucket) ^ 2) / (2 * bend p q r)

/-- The parabola through three points. -/
def parabola (p q r : Point Rat) : Parabola where
  curvature := curvature p q r
  vertex := vertexBucket p q r
  height := q.height - curvature p q r * (q.bucket - vertexBucket p q r) ^ 2

theorem Curved.bend_ne_zero (h : Curved p q r) : bend p q r ≠ 0 :=
  mt (bend_eq_zero_iff h.first_ne).mp h.not_onLine

theorem Curved.through (h : Curved p q r) : (parabola p q r).Through p q r := by
  have hbend := h.bend_ne_zero
  have hqp := sub_ne_zero.mpr h.first_ne.symm
  have hrq := sub_ne_zero.mpr h.second_ne.symm
  have hrp := sub_ne_zero.mpr h.third_ne
  refine ⟨div_ne_zero hbend (mul_ne_zero (mul_ne_zero hrq hqp) hrp), ?_, ?_, ?_⟩
  · unfold Parabola.value parabola curvature vertexBucket
    simp only
    field_simp
    unfold bend
    ring
  · unfold Parabola.value parabola
    ring
  · unfold Parabola.value parabola curvature vertexBucket
    simp only
    field_simp
    unfold bend
    ring

theorem Parabola.Through.eq_parabola {c : Parabola} (hc : c.Through p q r) (h : Curved p q r) :
    c = parabola p q r := by
  have hbend := h.bend_ne_zero
  have hvertex : c.vertex = (parabola p q r).vertex := by
    rw [← Option.some.injEq, ← hc.vertex?_eq_some hbend, h.through.vertex?_eq_some hbend]
  have hcurvature : c.curvature = (parabola p q r).curvature := by
    apply mul_right_cancel₀ (mul_ne_zero (mul_ne_zero (sub_ne_zero.mpr h.second_ne.symm)
      (sub_ne_zero.mpr h.first_ne.symm)) (sub_ne_zero.mpr h.third_ne))
    rw [← hc.bend_eq, h.through.bend_eq]
  have hheight : c.height = (parabola p q r).height := by
    have hq := hc.second.symm.trans h.through.second
    unfold Parabola.value at hq
    rw [hvertex, hcurvature] at hq
    exact add_left_cancel hq
  exact Parabola.ext hcurvature hvertex hheight

end

end PulseHits.Pulse
