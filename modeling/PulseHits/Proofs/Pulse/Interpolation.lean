import PulseHits.Proofs.Number.Exactness
import PulseHits.Proofs.Pulse.Parabola

/-!
# Interpolation around a sample

The height that is given for a sample is that of the vertex of the parabola through the sample and
its two neighbours, if it has them and they have a parabola, and else the height of the sample alone
(`peakAt_interpolates`). In double precision it is the same triples of samples that have a parabola:
the bend is computed without rounding, and the product of the distances is rounded, but never to
zero (`vertex?_double_eq_none_iff`, `parabolaAt?_double_eq_none_iff`).
-/

namespace PulseHits.Pulse

open Channel (Sample)
open Number (Binary64)

/-- The sample at an index and its neighbours on both sides. -/
structure Around (samples : List Sample) (index : Nat) (before here after : Sample) : Prop where
  pos : 0 < index
  before_eq : samples[index - 1]? = some before
  here_eq : samples[index]? = some here
  after_eq : samples[index + 1]? = some after

/-! ## The three cases -/

section
variable {α : Type} [Arithmetic α] {samples : List Sample} {index : Nat} {offset : UInt16}
  {before here after : Sample}

theorem exists_around (hhere : samples[index]? = some here)
    (hedge : ¬ (index = 0 ∨ samples.length ≤ index + 1)) :
    ∃ before after, Around samples index before here after := by
  have hbefore : index - 1 < samples.length := by omega
  have hafter : index + 1 < samples.length := by omega
  exact ⟨samples[index - 1], samples[index + 1], by omega, List.getElem?_eq_getElem hbefore, hhere,
    List.getElem?_eq_getElem hafter⟩

theorem Around.lt_length (h : Around samples index before here after) :
    index + 1 < samples.length :=
  (List.getElem?_eq_some_iff.mp h.after_eq).1

theorem peakAt_of_length_le (h : samples.length ≤ index) :
    peakAt (α := α) samples index offset = ((0 : Nat) : α) := by
  unfold peakAt
  rw [List.getElem?_eq_none h]

theorem peakAt_of_edge (hhere : samples[index]? = some here)
    (hedge : index = 0 ∨ samples.length ≤ index + 1) :
    peakAt (α := α) samples index offset = (Point.ofSample offset here).height := by
  unfold peakAt
  rw [hhere]
  rcases hedge with rfl | hlast
  · rfl
  · cases index with
    | zero => rfl
    | succ index =>
      simp only [List.getElem?_eq_none hlast]
      cases samples[index]? <;> rfl

theorem peakAt_of_around (h : Around samples index before here after) :
    peakAt (α := α) samples index offset =
      ((vertex? (.ofSample offset before) (.ofSample offset here) (.ofSample offset after)).bind
        (parabolaAt? (.ofSample offset before) (.ofSample offset here)
          (.ofSample offset after))).getD (Point.ofSample offset here).height := by
  obtain ⟨hpos, hbefore, hhere, hafter⟩ := h
  obtain ⟨k, rfl⟩ : ∃ k, index = k + 1 := ⟨index - 1, by omega⟩
  rw [Nat.add_sub_cancel] at hbefore
  unfold peakAt
  rw [hhere]
  simp only [hbefore, hafter]

end

/-! ## Exactly -/

section
variable {samples : List Sample} {index : Nat} {offset : UInt16} {before here after : Sample}

theorem peakAt_of_curved (h : Around samples index before here after)
    (hcurved : Curved (.ofSample offset before) (.ofSample offset here) (.ofSample offset after)) :
    peakAt (α := Rat) samples index offset =
      (parabola (.ofSample offset before) (.ofSample offset here)
        (.ofSample offset after)).height := by
  have hthrough := hcurved.through
  rw [peakAt_of_around h, hthrough.vertex?_eq_some hcurved.bend_ne_zero, Option.bind_some,
    hthrough.parabolaAt?_eq_some hcurved.first_ne hcurved.second_ne hcurved.third_ne,
    Option.getD_some]
  simp [Parabola.value]

theorem bind_eq_none_of_not_curved {p q r : Point Rat} (h : ¬ Curved p q r) :
    (vertex? p q r).bind (parabolaAt? p q r) = none := by
  rw [curved_iff, not_and_or, not_not] at h
  rcases h with hvertex | hvalue
  · rw [hvertex, Option.bind_none]
  · obtain ⟨x, hx⟩ := not_forall_not.mp hvalue
    have hnone : ∀ y, parabolaAt? p q r y = none :=
      fun y => parabolaAt?_eq_none_iff.mpr (parabolaAt?_eq_none_iff.mp hx)
    cases vertex? p q r with
    | none => rfl
    | some y => exact hnone y

theorem peakAt_of_not_curved (hhere : samples[index]? = some here)
    (h : ∀ before after, Around samples index before here after →
      ¬ Curved (.ofSample offset before) (.ofSample offset here) (.ofSample offset after)) :
    peakAt (α := Rat) samples index offset = (Point.ofSample offset here).height := by
  by_cases hedge : index = 0 ∨ samples.length ≤ index + 1
  · exact peakAt_of_edge hhere hedge
  · obtain ⟨before, after, haround⟩ := exists_around hhere hedge
    rw [peakAt_of_around haround, bind_eq_none_of_not_curved (h _ _ haround), Option.getD_none]

end

/-! ## In double precision -/

section
variable (offset : UInt16) (s s₁ s₂ s₃ : Sample)

/-- The bucket of a sample as an integer. -/
def bucketInt : Int := s.bucket.toNat

/-- The height of a sample as an integer. -/
def heightInt : Int := s.value.toNat - offset.toNat

theorem abs_bucketInt_sub_lt : |bucketInt s₁ - bucketInt s₂| < 2 ^ 32 := by
  have h₁ := s₁.bucket.toNat_lt
  have h₂ := s₂.bucket.toNat_lt
  unfold bucketInt
  rw [abs_lt]
  omega

theorem abs_heightInt_sub_lt : |heightInt offset s₁ - heightInt offset s₂| < 2 ^ 16 := by
  have h₁ := s₁.value.toNat_lt
  have h₂ := s₂.value.toNat_lt
  unfold heightInt
  rw [abs_lt]
  omega

theorem is_bucket : (Point.ofSample offset s : Point Binary64).bucket.Is (bucketInt s) := by
  have hlt := s.bucket.toNat_lt
  exact Binary64.is_natCast (by omega)

theorem is_height : (Point.ofSample offset s : Point Binary64).height.Is (heightInt offset s) := by
  have hvalue := s.value.toNat_lt
  have hoffset := offset.toNat_lt
  have h₁ : Binary64.Is (s.value.toNat : Binary64) ((s.value.toNat : Int) : Rat) :=
    Binary64.is_natCast (by omega)
  have h₂ : Binary64.Is (offset.toNat : Binary64) ((offset.toNat : Int) : Rat) :=
    Binary64.is_natCast (by omega)
  apply h₁.sub_intCast h₂
  rw [abs_lt]
  omega

theorem is_bucket_sub :
    ((Point.ofSample offset s₁ : Point Binary64).bucket -
      (Point.ofSample offset s₂ : Point Binary64).bucket).Is (bucketInt s₁ - bucketInt s₂ : Int) :=
  (is_bucket offset s₁).sub_intCast (is_bucket offset s₂)
    ((abs_bucketInt_sub_lt s₁ s₂).trans (by norm_num))

theorem is_height_sub :
    ((Point.ofSample offset s₁ : Point Binary64).height -
      (Point.ofSample offset s₂ : Point Binary64).height).Is
        (heightInt offset s₁ - heightInt offset s₂ : Int) :=
  (is_height offset s₁).sub_intCast (is_height offset s₂)
    ((abs_heightInt_sub_lt offset s₁ s₂).trans (by norm_num))

theorem is_bend :
    (((Point.ofSample offset s₁ : Point Binary64).height -
          (Point.ofSample offset s₂ : Point Binary64).height) *
        ((Point.ofSample offset s₃ : Point Binary64).bucket -
          (Point.ofSample offset s₂ : Point Binary64).bucket) +
      ((Point.ofSample offset s₃ : Point Binary64).height -
          (Point.ofSample offset s₂ : Point Binary64).height) *
        ((Point.ofSample offset s₂ : Point Binary64).bucket -
          (Point.ofSample offset s₁ : Point Binary64).bucket)).Is
      (bend (.ofSample offset s₁) (.ofSample offset s₂) (.ofSample offset s₃)) := by
  have hbound : ∀ {m n : Int}, |m| < 2 ^ 16 → |n| < 2 ^ 32 → |m * n| < 2 ^ 48 := by
    intro m n hm hn
    rw [abs_mul]
    exact mul_lt_mul'' hm hn (abs_nonneg m) (abs_nonneg n)
  have hleft := hbound (abs_heightInt_sub_lt offset s₁ s₂) (abs_bucketInt_sub_lt s₃ s₂)
  have hright := hbound (abs_heightInt_sub_lt offset s₃ s₂) (abs_bucketInt_sub_lt s₂ s₁)
  have hsum := ((is_height_sub offset s₁ s₂).mul_intCast (is_bucket_sub offset s₃ s₂)
      (hleft.trans (by norm_num))).add_intCast
    ((is_height_sub offset s₃ s₂).mul_intCast (is_bucket_sub offset s₂ s₁)
      (hright.trans (by norm_num)))
    ((abs_add_le _ _).trans_lt ((add_lt_add hleft hright).trans (by norm_num)))
  convert hsum using 1
  simp [bend, bucketInt, heightInt]

theorem vertex?_double_eq_none_iff :
    vertex? (α := Binary64) (.ofSample offset s₁) (.ofSample offset s₂) (.ofSample offset s₃) =
        none ↔
      vertex? (α := Rat) (.ofSample offset s₁) (.ofSample offset s₂) (.ofSample offset s₃) =
        none := by
  rw [vertex?_eq_none_iff]
  unfold vertex?
  simp only [(is_bend offset s₁ s₂ s₃).isZero_eq, ite_eq_left_iff, reduceCtorEq, imp_false,
    not_not, beq_iff_eq]

/-- The product of the distances of a bucket from two others. -/
def spread (p q r : Point Binary64) : Binary64 :=
  (p.bucket - q.bucket) * (p.bucket - r.bucket)

def spreadInt : Int :=
  (bucketInt s₁ - bucketInt s₂) * (bucketInt s₁ - bucketInt s₃)

theorem abs_spreadInt_lt : |spreadInt s₁ s₂ s₃| < 2 ^ 64 := by
  unfold spreadInt
  rw [abs_mul]
  exact mul_lt_mul'' (abs_bucketInt_sub_lt s₁ s₂) (abs_bucketInt_sub_lt s₁ s₃) (abs_nonneg _)
    (abs_nonneg _)

theorem near_spread :
    (spread (.ofSample offset s₁) (.ofSample offset s₂) (.ofSample offset s₃)).Near
      (spreadInt s₁ s₂ s₃) 1 := by
  have hbound : |spreadInt s₁ s₂ s₃| < 2 ^ 200 :=
    (abs_spreadInt_lt s₁ s₂ s₃).trans (by norm_num)
  have hproduct := (is_bucket_sub offset s₁ s₂).near.mul_intCast (is_bucket_sub offset s₁ s₃).near
    hbound (by norm_num)
  exact hproduct

/-- In double precision the product of all distances is rounded five times, by less than a factor of
two each time. -/
theorem near_spreads :
    (spread (.ofSample offset s₁) (.ofSample offset s₂) (.ofSample offset s₃) *
        spread (.ofSample offset s₂) (.ofSample offset s₃) (.ofSample offset s₁) *
        spread (.ofSample offset s₃) (.ofSample offset s₁) (.ofSample offset s₂)).Near
      (spreadInt s₁ s₂ s₃ * spreadInt s₂ s₃ s₁ * spreadInt s₃ s₁ s₂ : Int) 5 := by
  have htwo : |spreadInt s₁ s₂ s₃ * spreadInt s₂ s₃ s₁| < 2 ^ 64 * 2 ^ 64 := by
    rw [abs_mul]
    exact mul_lt_mul'' (abs_spreadInt_lt s₁ s₂ s₃) (abs_spreadInt_lt s₂ s₃ s₁) (abs_nonneg _)
      (abs_nonneg _)
  have hthree : |spreadInt s₁ s₂ s₃ * spreadInt s₂ s₃ s₁ * spreadInt s₃ s₁ s₂| <
      2 ^ 64 * 2 ^ 64 * 2 ^ 64 := by
    rw [abs_mul]
    exact mul_lt_mul'' htwo (abs_spreadInt_lt s₃ s₁ s₂) (abs_nonneg _) (abs_nonneg _)
  have htwo' := (near_spread offset s₁ s₂ s₃).mul_intCast (near_spread offset s₂ s₃ s₁)
    (htwo.trans (by norm_num)) (by norm_num)
  have hthree' := htwo'.mul_intCast (near_spread offset s₃ s₁ s₂) (hthree.trans (by norm_num))
    (by norm_num)
  exact hthree'

theorem parabolaAt?_double_eq_none_iff (x : Binary64) (x' : Rat) :
    parabolaAt? (α := Binary64) (.ofSample offset s₁) (.ofSample offset s₂) (.ofSample offset s₃)
        x = none ↔
      parabolaAt? (α := Rat) (.ofSample offset s₁) (.ofSample offset s₂) (.ofSample offset s₃)
        x' = none := by
  have hzero := (near_spreads offset s₁ s₂ s₃).isZero_eq
  unfold spread at hzero
  rw [parabolaAt?_eq_none_iff]
  unfold parabolaAt?
  simp only [hzero, ite_eq_left_iff, reduceCtorEq, imp_false, not_not, beq_iff_eq, Int.cast_eq_zero]
  simp only [spreadInt, bucketInt, mul_eq_zero, sub_eq_zero, bucket_ofSample, Nat.cast_inj]
  tauto

end

/-! ## Both together -/

/-- **The interpolation is exact.** An index without a sample has the height zero. A sample that has
no two neighbours with which it has a parabola keeps its own height. Any other sample has the height
of the vertex of the one parabola through the three, wherever their buckets are. In double precision
the same three samples have no vertex, and the same have no value, as have none exactly. -/
theorem peakAt_interpolates (samples : List Sample) (index : Nat) (offset : UInt16) :
    let exact : Sample → Point Rat := .ofSample offset
    let double : Sample → Point Binary64 := .ofSample offset
    (samples.length ≤ index → peakAt (α := Rat) samples index offset = 0) ∧
      (∀ s, samples[index]? = some s →
        (∀ before after, Around samples index before s after →
          ¬ Curved (exact before) (exact s) (exact after)) →
        peakAt (α := Rat) samples index offset = (s.value.toNat : Rat) - offset.toNat) ∧
      (∀ before s after, Around samples index before s after →
        Curved (exact before) (exact s) (exact after) →
        ∃ c : Parabola,
          (∀ c' : Parabola, c'.Through (exact before) (exact s) (exact after) ↔ c' = c) ∧
          vertex? (exact before) (exact s) (exact after) = some c.vertex ∧
          peakAt (α := Rat) samples index offset = c.height) ∧
      ∀ s₁ s₂ s₃,
        (vertex? (double s₁) (double s₂) (double s₃) = none ↔
          vertex? (exact s₁) (exact s₂) (exact s₃) = none) ∧
        ∀ x x', parabolaAt? (double s₁) (double s₂) (double s₃) x = none ↔
          parabolaAt? (exact s₁) (exact s₂) (exact s₃) x' = none := by
  intro exact double
  refine ⟨fun h => peakAt_of_length_le h, fun s hs h => peakAt_of_not_curved hs h, ?_, ?_⟩
  · intro before s after haround hcurved
    refine ⟨parabola (exact before) (exact s) (exact after), fun c => ?_, ?_, ?_⟩
    · constructor
      · intro hthrough
        exact hthrough.eq_parabola hcurved
      · rintro rfl
        exact hcurved.through
    · exact hcurved.through.vertex?_eq_some hcurved.bend_ne_zero
    · exact peakAt_of_curved haround hcurved
  · intro s₁ s₂ s₃
    exact ⟨vertex?_double_eq_none_iff offset s₁ s₂ s₃,
      parabolaAt?_double_eq_none_iff offset s₁ s₂ s₃⟩

/-- Three samples of the parabola with the vertex 13 and the height 200, in no order, and two more.
-/
def sparse : List Sample :=
  [⟨16, 191⟩, ⟨10, 191⟩, ⟨12, 199⟩, ⟨12, 100⟩, ⟨20, 7⟩]

theorem peakAt_sparse :
    peakAt (α := Rat) sparse 5 7 = 0 ∧ peakAt (α := Rat) sparse 0 7 = 184 ∧
      peakAt (α := Rat) sparse 1 7 = 193 ∧ peakAt (α := Rat) sparse 2 7 = 192 := by
  have hcurved : Curved (.ofSample 7 ⟨16, 191⟩) (.ofSample 7 ⟨10, 191⟩) (.ofSample 7 ⟨12, 199⟩) :=
    curved_iff.mpr ⟨by decide +kernel, fun x => by
      rw [ne_eq, parabolaAt?_eq_none_iff]
      decide +kernel⟩
  refine ⟨(peakAt_interpolates sparse 5 7).1 (by decide), ?_, ?_, ?_⟩
  · have hedge := (peakAt_interpolates sparse 0 7).2.1 ⟨16, 191⟩ rfl
    refine (hedge fun before after haround => ?_).trans (by decide +kernel)
    exact absurd haround.pos (by decide)
  · obtain ⟨c, honly, -, hpeak⟩ := (peakAt_interpolates sparse 1 7).2.2.1 _ _ _
      ⟨by decide, rfl, rfl, rfl⟩ hcurved
    have hthrough : (⟨-1, 13, 193⟩ : Parabola).Through (.ofSample 7 ⟨16, 191⟩)
        (.ofSample 7 ⟨10, 191⟩) (.ofSample 7 ⟨12, 199⟩) :=
      ⟨by decide, by decide +kernel, by decide +kernel, by decide +kernel⟩
    rw [hpeak, ← (honly _).mp hthrough]
  · have hrepeated := (peakAt_interpolates sparse 2 7).2.1 ⟨12, 199⟩ rfl
    refine (hrepeated fun before after haround hcurved => ?_).trans (by decide +kernel)
    obtain rfl := Option.some.inj (haround.after_eq.symm.trans
      (show sparse[2 + 1]? = some ⟨12, 100⟩ by rfl))
    exact hcurved.second_ne rfl

end PulseHits.Pulse
