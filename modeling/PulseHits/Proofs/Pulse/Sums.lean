import PulseHits.Proofs.Pulse.Interpolation

/-!
# Sums without rounding

The integral and the moment of a trace are summed up sample by sample, and heights may have either
sign, so a sum can be larger on the way than it is at the end. As long as all the magnitudes together
stay below `2 ^ 53`, every sum on the way is an integer below that too and is not rounded
(`exactSums_of_bounds`). The integral is the sum of the values less the baseline of each
(`heightSum_eq`).
-/

namespace PulseHits.Pulse

open Channel (Sample)
open Number (Binary64)

/-! ## Sums of integers -/

/-- The sum of the heights, as an integer. -/
def heightSum (offset : UInt16) (samples : List Sample) : Int :=
  (samples.map (heightInt offset)).sum

/-- The sum of the heights, each weighted with its bucket, as an integer. -/
def momentSum (offset : UInt16) (samples : List Sample) : Int :=
  (samples.map fun s => bucketInt s * heightInt offset s).sum

def valueSum (samples : List Sample) : Nat :=
  (samples.map (·.value.toNat)).sum

def bucketSum (samples : List Sample) : Nat :=
  (samples.map (·.bucket.toNat)).sum

theorem heightSum_eq (offset : UInt16) (samples : List Sample) :
    heightSum offset samples = valueSum samples - samples.length * offset.toNat := by
  unfold heightSum valueSum
  induction samples with
  | nil => simp
  | cons s samples ih =>
    simp only [List.map_cons, List.sum_cons, ih, heightInt, List.length_cons]
    push_cast
    ring

theorem integral_exactPoints (offset : UInt16) (samples : List Sample) :
    integral (exactPoints offset samples) = heightSum offset samples := by
  rw [integral_eq_sum, exactPoints, heightSum, List.map_map]
  induction samples with
  | nil => simp
  | cons s samples ih =>
    simp only [List.map_cons, List.sum_cons, ih, Function.comp_apply, height_ofSample, heightInt]
    push_cast
    rfl

section
variable {offset : UInt16} {samples : List Sample} {bound : Nat}

theorem abs_heightSum_le (h : ∀ s ∈ samples, |heightInt offset s| ≤ bound) :
    |heightSum offset samples| ≤ bound * samples.length := by
  unfold heightSum
  induction samples with
  | nil => simp
  | cons s samples ih =>
    obtain ⟨hs, hrest⟩ := List.forall_mem_cons.mp h
    have htriangle := abs_add_le (heightInt offset s) (samples.map (heightInt offset)).sum
    have ih := ih hrest
    rw [List.map_cons, List.sum_cons, List.length_cons]
    push_cast
    linarith

theorem abs_momentSum_le (h : ∀ s ∈ samples, |heightInt offset s| ≤ bound) :
    |momentSum offset samples| ≤ bound * bucketSum samples := by
  unfold momentSum bucketSum
  induction samples with
  | nil => simp
  | cons s samples ih =>
    obtain ⟨hs, hrest⟩ := List.forall_mem_cons.mp h
    have htriangle := abs_add_le (bucketInt s * heightInt offset s)
      (samples.map fun s => bucketInt s * heightInt offset s).sum
    have hterm : |bucketInt s * heightInt offset s| ≤ s.bucket.toNat * bound := by
      have hbucket : |bucketInt s| = s.bucket.toNat := Nat.abs_cast _
      rw [abs_mul, hbucket]
      exact mul_le_mul_of_nonneg_left hs (Int.natCast_nonneg _)
    have ih := ih hrest
    rw [List.map_cons, List.sum_cons, List.map_cons, List.sum_cons, Nat.cast_add]
    linarith

end

theorem bucketSum_mono {before samples : List Sample} (h : before <+: samples) :
    bucketSum before ≤ bucketSum samples := by
  obtain ⟨rest, rfl⟩ := h
  simp [bucketSum]

/-! ## Sums of doubles -/

theorem is_foldl_add {term : Sample → Binary64} {exact : Sample → Int}
    (hterm : ∀ s, (term s).Is (exact s : Int)) {samples : List Sample}
    (h : ∀ before, before <+: samples → |(before.map exact).sum| < 2 ^ 53) :
    (samples.foldl (fun sum s => sum + term s) ((0 : Nat) : Binary64)).Is
      ((samples.map exact).sum : Int) := by
  induction samples using List.reverseRecOn with
  | nil => exact_mod_cast Binary64.is_natCast (n := 0) (by norm_num)
  | append_singleton samples s ih =>
    have hbefore := ih fun before hpart => h before (hpart.trans (List.prefix_append _ _))
    have hwhole := h _ List.prefix_rfl
    rw [List.map_append, List.sum_append, List.map_singleton, List.sum_singleton] at hwhole ⊢
    rw [List.foldl_append]
    exact hbefore.add_intCast (hterm s) hwhole

/-- After the samples `before` of a trace, both sums are below `2 ^ 53` and have not been rounded. -/
structure ExactSums (offset : UInt16) (before : List Sample) : Prop where
  heightSum_lt : |heightSum offset before| < 2 ^ 53
  momentSum_lt : |momentSum offset before| < 2 ^ 53
  integral_is : (integral (before.map (.ofSample offset)) : Binary64).Is (heightSum offset before)
  moment_is : (moment (before.map (.ofSample offset)) : Binary64).Is (momentSum offset before)

theorem abs_bucketInt_lt (s : Sample) : |bucketInt s| < 2 ^ 32 := by
  have hlt := s.bucket.toNat_lt
  have habs : |bucketInt s| = s.bucket.toNat := Nat.abs_cast _
  omega

theorem abs_heightInt_lt (offset : UInt16) (s : Sample) : |heightInt offset s| < 2 ^ 16 := by
  have hvalue := s.value.toNat_lt
  have hoffset := offset.toNat_lt
  unfold heightInt
  rw [abs_lt]
  omega

theorem abs_bucketInt_mul_heightInt_lt (offset : UInt16) (s : Sample) :
    |bucketInt s * heightInt offset s| < 2 ^ 48 := by
  rw [abs_mul]
  exact mul_lt_mul'' (abs_bucketInt_lt s) (abs_heightInt_lt offset s) (abs_nonneg _) (abs_nonneg _)

theorem is_bucket_mul_height (offset : UInt16) (s : Sample) :
    ((Point.ofSample offset s : Point Binary64).bucket *
      (Point.ofSample offset s : Point Binary64).height).Is (bucketInt s * heightInt offset s : Int) :=
  (is_bucket offset s).mul_intCast (is_height offset s)
    ((abs_bucketInt_mul_heightInt_lt offset s).trans (by norm_num))

theorem exactSums_of_lt {offset : UInt16} {samples : List Sample}
    (hheights : ∀ before, before <+: samples → |heightSum offset before| < 2 ^ 53)
    (hmoments : ∀ before, before <+: samples → |momentSum offset before| < 2 ^ 53) :
    ExactSums offset samples where
  heightSum_lt := hheights samples List.prefix_rfl
  momentSum_lt := hmoments samples List.prefix_rfl
  integral_is := by
    unfold integral
    rw [List.foldl_map]
    exact is_foldl_add (is_height offset) hheights
  moment_is := by
    unfold moment
    rw [List.foldl_map]
    exact is_foldl_add (is_bucket_mul_height offset) hmoments

theorem exactSums_of_bounds {offset : UInt16} {samples : List Sample} {bound : Nat}
    (hbound : ∀ s ∈ samples, |heightInt offset s| ≤ bound)
    (hlength : bound * samples.length < 2 ^ 53) (hbuckets : bound * bucketSum samples < 2 ^ 53)
    {before : List Sample} (hpart : before <+: samples) : ExactSums offset before := by
  have hsub : ∀ earlier, earlier <+: before → earlier <+: samples := fun _ h => h.trans hpart
  have hmem : ∀ earlier, earlier <+: samples → ∀ s ∈ earlier, |heightInt offset s| ≤ bound :=
    fun _ h s hs => hbound s (h.subset hs)
  apply exactSums_of_lt
  · intro earlier hearlier
    have hearlier := hsub earlier hearlier
    have hle : bound * earlier.length ≤ bound * samples.length :=
      Nat.mul_le_mul_left bound hearlier.length_le
    refine (abs_heightSum_le (hmem earlier hearlier)).trans_lt ?_
    exact_mod_cast hle.trans_lt hlength
  · intro earlier hearlier
    have hearlier := hsub earlier hearlier
    have hle : bound * bucketSum earlier ≤ bound * bucketSum samples :=
      Nat.mul_le_mul_left bound (bucketSum_mono hearlier)
    refine (abs_momentSum_le (hmem earlier hearlier)).trans_lt ?_
    exact_mod_cast hle.trans_lt hbuckets

/-! ## The baseline -/

theorem exists_value_eq_baseline {samples : List Sample} {offset : UInt16}
    (h : baseline? samples = some offset) : ∃ s ∈ samples, s.value.toNat = offset.toNat := by
  obtain ⟨first, last, hfirst, hlast, hoffset⟩ := baseline?_eq_some_iff.mp h
  rcases min_choice first.value.toNat last.value.toNat with hmin | hmin
  · exact ⟨first, List.mem_of_head? hfirst, (hoffset.trans hmin).symm⟩
  · exact ⟨last, List.mem_of_getLast? hlast, (hoffset.trans hmin).symm⟩

theorem abs_heightInt_le {samples : List Sample} {offset : UInt16} {bound : Nat}
    (hoffset : baseline? samples = some offset) (hvalues : ∀ s ∈ samples, s.value.toNat ≤ bound) :
    ∀ s ∈ samples, |heightInt offset s| ≤ bound := by
  intro s hs
  obtain ⟨t, ht, heq⟩ := exists_value_eq_baseline hoffset
  have hvalue := hvalues s hs
  have hbaseline := hvalues t ht
  unfold heightInt
  rw [abs_le]
  omega

end PulseHits.Pulse
