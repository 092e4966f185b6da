import Mathlib.Algebra.BigOperators.Ring.List
import PulseHits.Hit.Basic
import PulseHits.Proofs.Pulse.Interpolation
import PulseHits.Proofs.Pulse.Maximum

/-!
# Traces on another pedestal and at another time

A trace is only looked at through its points above the baseline. If all of its values are raised
alike, the baseline is raised with them and the points stay the same, also in double precision, and
so does the hit. If all of its buckets are delayed alike, the highest sample stays where it is, the
parabola around it moves along, vertex and all (`vertex?_delay`, `parabolaAt?_delay`), and the
centroid is delayed as much (`ofTrace?_shifted`).
-/

namespace PulseHits

open Channel (Sample)
open Number (Binary64)

/-! ## Shifted samples -/

namespace Channel.Sample

/-- The sample with its value raised by `c`. -/
def raise (c : Int) (s : Sample) : Sample :=
  { s with value := (s.value.toNat + c).toNat.toUInt16 }

/-- The sample with its bucket delayed by `d`. -/
def delay (d : Int) (s : Sample) : Sample :=
  { s with bucket := (s.bucket.toNat + d).toNat.toUInt32 }

/-- The raised value is one of 16 bits. -/
def Raisable (c : Int) (s : Sample) : Prop :=
  0 ≤ s.value.toNat + c ∧ s.value.toNat + c < 2 ^ 16

/-- The delayed bucket is one of 32 bits. -/
def Delayable (d : Int) (s : Sample) : Prop :=
  0 ≤ s.bucket.toNat + d ∧ s.bucket.toNat + d < 2 ^ 32

theorem Raisable.toNat_value_raise {c : Int} {s : Sample} (h : s.Raisable c) :
    ((s.raise c).value.toNat : Int) = s.value.toNat + c := by
  obtain ⟨hnonneg, hlt⟩ := h
  have hmod : (s.raise c).value.toNat = (s.value.toNat + c).toNat % 2 ^ 16 := rfl
  omega

theorem Delayable.toNat_bucket_delay {d : Int} {s : Sample} (h : s.Delayable d) :
    ((s.delay d).bucket.toNat : Int) = s.bucket.toNat + d := by
  obtain ⟨hnonneg, hlt⟩ := h
  have hmod : (s.delay d).bucket.toNat = (s.bucket.toNat + d).toNat % 2 ^ 32 := rfl
  omega

end Channel.Sample

namespace Pulse

/-! ## Features by points -/

section
variable {α : Type} [Arithmetic α]

/-- The height around the point at `index`. -/
def peakOf (points : List (Point α)) (index : Nat) : α :=
  match points[index]? with
  | none => ((0 : Nat) : α)
  | some q =>
    match index with
    | 0 => q.height
    | before + 1 =>
      match points[before]?, points[index + 1]? with
      | some p, some r => ((vertex? p q r).bind (parabolaAt? p q r)).getD q.height
      | _, _ => q.height

theorem peakAt_eq_peakOf (samples : List Sample) (index : Nat) (offset : UInt16) :
    peakAt (α := α) samples index offset = peakOf (samples.map (.ofSample offset)) index := by
  unfold peakAt peakOf
  simp only [List.getElem?_map]
  cases samples[index]? with
  | none => rfl
  | some s =>
    cases index with
    | zero => rfl
    | succ before =>
      simp only [Option.map_some]
      cases samples[before]? with
      | none => rfl
      | some s₁ => cases samples[before + 1 + 1]? <;> rfl

theorem features?_eq_of_points {samples samples' : List Sample} {offset offset' : UInt16}
    (hoffset : baseline? samples = some offset) (hoffset' : baseline? samples' = some offset')
    (hindex : peakIndex samples' = peakIndex samples)
    (hpoints : samples'.map (Point.ofSample offset') =
      samples.map (Point.ofSample offset : Sample → Point α)) :
    features? (α := α) samples' = features? samples := by
  rw [features?_eq_some hoffset, features?_eq_some hoffset', peakAt_eq_peakOf, peakAt_eq_peakOf,
    hindex, hpoints]

end

/-! ## The highest sample -/

theorem IsFirstMax.index_eq {samples : List Sample} {i j : Nat} {s t : Sample}
    (h : IsFirstMax samples i s) (h' : IsFirstMax samples j t) : i = j := by
  have hle := h.le t (List.mem_of_getElem? h'.getElem?_eq)
  have hle' := h'.le s (List.mem_of_getElem? h.getElem?_eq)
  rcases Nat.lt_trichotomy i j with hlt | heq | hlt
  · exact absurd hle (UInt16.not_le.mpr (h'.lt i hlt s h.getElem?_eq))
  · exact heq
  · exact absurd hle' (UInt16.not_le.mpr (h.lt j hlt t h'.getElem?_eq))

theorem peakIndex_map {f : Sample → Sample} {samples : List Sample}
    (h : ∀ s ∈ samples, ∀ t ∈ samples, (f s).value < (f t).value ↔ s.value < t.value) :
    peakIndex (samples.map f) = peakIndex samples := by
  by_cases hne : samples = []
  · rw [hne]
    rfl
  obtain ⟨s, hmax⟩ := exists_isFirstMax hne
  obtain ⟨t, hmax'⟩ := exists_isFirstMax (mt List.map_eq_nil_iff.mp hne : samples.map f ≠ [])
  have hs := List.mem_of_getElem? hmax.getElem?_eq
  refine hmax'.index_eq (t := f s) ⟨?_, ?_, ?_⟩
  · rw [List.getElem?_map, hmax.getElem?_eq, Option.map_some]
  · intro u hu
    obtain ⟨v, hv, rfl⟩ := List.mem_map.mp hu
    exact UInt16.not_lt.mp (mt (h s hs v hv).mp (UInt16.not_lt.mpr (hmax.le v hv)))
  · intro i hi u hu
    rw [List.getElem?_map, Option.map_eq_some_iff] at hu
    obtain ⟨v, hv, rfl⟩ := hu
    exact (h v (List.mem_of_getElem? hv) s hs).mpr (hmax.lt i hi v hv)

/-! ## Raised values -/

section
variable {samples : List Sample} {offset offset' : UInt16} {s t : Sample} {c : Int}

theorem exists_baseline?_raise (hoffset : baseline? samples = some offset)
    (h : ∀ s ∈ samples, s.Raisable c) :
    ∃ offset', baseline? (samples.map (Sample.raise c)) = some offset' ∧
      (offset'.toNat : Int) = offset.toNat + c := by
  have hne : samples.map (Sample.raise c) ≠ [] := by
    rintro hempty
    rw [List.map_eq_nil_iff.mp hempty] at hoffset
    cases hoffset
  obtain ⟨offset', hoffset'⟩ := exists_baseline? hne
  refine ⟨offset', hoffset', ?_⟩
  obtain ⟨first, last, hfirst, hlast, hmin⟩ := baseline?_eq_some_iff.mp hoffset
  obtain ⟨first', last', hfirst', hlast', hmin'⟩ := baseline?_eq_some_iff.mp hoffset'
  rw [List.head?_map, hfirst, Option.map_some, Option.some.injEq] at hfirst'
  rw [List.getLast?_map, hlast, Option.map_some, Option.some.injEq] at hlast'
  have hvalue := (h first (List.mem_of_head? hfirst)).toNat_value_raise
  have hvalue' := (h last (List.mem_of_getLast? hlast)).toNat_value_raise
  rw [hfirst'] at hvalue
  rw [hlast'] at hvalue'
  omega

theorem peakIndex_map_raise (h : ∀ s ∈ samples, s.Raisable c) :
    peakIndex (samples.map (Sample.raise c)) = peakIndex samples := by
  apply peakIndex_map
  intro s hs t ht
  have hvalue := (h s hs).toNat_value_raise
  have hvalue' := (h t ht).toNat_value_raise
  rw [UInt16.lt_iff_toNat_lt, UInt16.lt_iff_toNat_lt]
  omega

theorem ofSample_eq (hbucket : t.bucket = s.bucket)
    (hheight : heightInt offset' t = heightInt offset s) :
    (Point.ofSample offset' t : Point Rat) = .ofSample offset s := by
  unfold Point.ofSample
  rw [hbucket, Point.mk.injEq]
  refine ⟨rfl, ?_⟩
  unfold heightInt at hheight
  exact_mod_cast hheight

/-- In double precision too a height does not tell its baseline. -/
theorem ofSample_double_eq (hbucket : t.bucket = s.bucket)
    (hheight : heightInt offset' t = heightInt offset s) :
    (Point.ofSample offset' t : Point Binary64) = .ofSample offset s := by
  have hlt : ∀ v : UInt16, v.toNat < 2 ^ 53 := fun v => v.toNat_lt.trans (by norm_num)
  unfold Point.ofSample
  rw [hbucket, Binary64.natCast_sub_natCast (hlt _) (hlt _),
    Binary64.natCast_sub_natCast (hlt _) (hlt _), Point.mk.injEq]
  refine ⟨rfl, congrArg Binary64.ofRat ?_⟩
  unfold heightInt at hheight
  exact_mod_cast hheight

theorem map_ofSample_raise {α : Type} [Arithmetic α]
    (hpoint : ∀ {s t : Sample}, t.bucket = s.bucket → heightInt offset' t = heightInt offset s →
      (Point.ofSample offset' t : Point α) = .ofSample offset s)
    (hoffset : (offset'.toNat : Int) = offset.toNat + c) (h : ∀ s ∈ samples, s.Raisable c) :
    (samples.map (Sample.raise c)).map (Point.ofSample offset') =
      samples.map (Point.ofSample offset : Sample → Point α) := by
  rw [List.map_map]
  refine List.map_congr_left fun s hs => hpoint rfl ?_
  have hvalue := (h s hs).toNat_value_raise
  unfold heightInt
  omega

theorem features?_map_raise (h : ∀ s ∈ samples, s.Raisable c) :
    features? (α := Rat) (samples.map (Sample.raise c)) = features? samples ∧
      features? (α := Binary64) (samples.map (Sample.raise c)) = features? samples := by
  by_cases hne : samples = []
  · rw [hne]
    exact ⟨rfl, rfl⟩
  obtain ⟨offset, hoffset⟩ := exists_baseline? hne
  obtain ⟨offset', hoffset', hraised⟩ := exists_baseline?_raise hoffset h
  have hindex := peakIndex_map_raise h
  exact ⟨features?_eq_of_points hoffset hoffset' hindex (map_ofSample_raise ofSample_eq hraised h),
    features?_eq_of_points hoffset hoffset' hindex
      (map_ofSample_raise ofSample_double_eq hraised h)⟩

end

/-! ## Delayed points -/

/-- The point with its bucket delayed by `d`. -/
def Point.delay (d : Rat) (p : Point Rat) : Point Rat :=
  { p with bucket := p.bucket + d }

section
variable (d : Rat) (p q r : Point Rat) (points : List (Point Rat))

@[simp] theorem bucket_delay : (p.delay d).bucket = p.bucket + d := rfl

@[simp] theorem height_delay : (p.delay d).height = p.height := rfl

theorem bend_delay : bend (p.delay d) (q.delay d) (r.delay d) = bend p q r := by
  simp [bend]

theorem vertex?_delay :
    vertex? (p.delay d) (q.delay d) (r.delay d) = (vertex? p q r).map (· + d) := by
  rw [vertex?_eq, vertex?_eq, bend_delay]
  split
  · rfl
  · simp only [bucket_delay, height_delay, add_sub_add_right_eq_sub, Option.map_some]
    rw [add_right_comm]

theorem parabolaAt?_delay (x : Rat) :
    parabolaAt? (p.delay d) (q.delay d) (r.delay d) (x + d) = parabolaAt? p q r x := by
  simp only [parabolaAt?_eq, bucket_delay, height_delay, add_sub_add_right_eq_sub]

theorem peakOf_map_delay (index : Nat) :
    peakOf (points.map (.delay d)) index = peakOf points index := by
  have hheight : ∀ p q r : Point Rat, (vertex? (p.delay d) (q.delay d) (r.delay d)).bind
      (parabolaAt? (p.delay d) (q.delay d) (r.delay d)) =
        (vertex? p q r).bind (parabolaAt? p q r) := by
    intro p q r
    rw [vertex?_delay, Option.bind_map]
    exact Option.bind_congr fun x _ => parabolaAt?_delay d p q r x
  unfold peakOf
  simp only [List.getElem?_map]
  cases points[index]? with
  | none => rfl
  | some q =>
    cases index with
    | zero => rfl
    | succ before =>
      simp only [Option.map_some]
      cases points[before]? with
      | none => rfl
      | some p =>
        cases points[before + 1 + 1]? with
        | none => rfl
        | some r => exact congrArg (·.getD q.height) (hheight p q r)

theorem integral_map_delay : integral (points.map (.delay d)) = integral points := by
  rw [integral_eq_sum, integral_eq_sum, List.map_map]
  rfl

theorem moment_map_delay :
    moment (points.map (.delay d)) = moment points + d * integral points := by
  rw [moment_eq_sum, moment_eq_sum, integral_eq_sum, List.map_map, ← List.sum_map_mul_left,
    ← List.sum_map_add]
  refine congrArg List.sum (List.map_congr_left fun p _ => ?_)
  exact add_mul p.bucket d p.height

end

/-! ## Delayed buckets -/

section
variable {samples : List Sample} {offset : UInt16} {d : Int}

theorem exactPoints_map_delay (h : ∀ s ∈ samples, s.Delayable d) (offset : UInt16) :
    exactPoints offset (samples.map (Sample.delay d)) =
      (exactPoints offset samples).map (.delay d) := by
  unfold exactPoints
  rw [List.map_map, List.map_map]
  refine List.map_congr_left fun s hs => ?_
  have hbucket := (h s hs).toNat_bucket_delay
  simp only [Function.comp_apply, Point.ofSample, Point.delay, Point.mk.injEq]
  refine ⟨?_, rfl⟩
  exact_mod_cast hbucket

theorem baseline?_map_delay : baseline? (samples.map (Sample.delay d)) = baseline? samples := by
  unfold baseline?
  rw [List.head?_map, List.getLast?_map]
  cases samples.head? <;> cases samples.getLast? <;> rfl

theorem peakIndex_map_delay : peakIndex (samples.map (Sample.delay d)) = peakIndex samples :=
  peakIndex_map fun _ _ _ _ => Iff.rfl

theorem integral_map_ofSample_delay {α : Type} [Arithmetic α] :
    (integral ((samples.map (Sample.delay d)).map (.ofSample offset)) : α) =
      integral (samples.map (.ofSample offset)) := by
  unfold integral
  rw [List.foldl_map, List.foldl_map, List.foldl_map]
  rfl

/-- The features of a trace and of the trace delayed by `d`. -/
structure Delayed (d : Int) (f f' : Features Rat) : Prop where
  peak_eq : f'.peak = f.peak
  integral_eq : f'.integral = f.integral
  time_eq : f.integral ≠ 0 → f'.time = f.time + d

theorem exists_delayed (hne : samples ≠ []) (h : ∀ s ∈ samples, s.Delayable d) :
    ∃ f f', features? samples = some f ∧ features? (samples.map (Sample.delay d)) = some f' ∧
      Delayed d f f' := by
  obtain ⟨offset, hoffset⟩ := exists_baseline? hne
  have hoffset' := baseline?_map_delay (d := d).trans hoffset
  have hpoints := exactPoints_map_delay h offset
  refine ⟨_, _, features?_of_baseline? hoffset, features?_of_baseline? hoffset', ?_, ?_, ?_⟩
  · simp only [peakAt_eq_peakOf, peakIndex_map_delay]
    exact (congrArg (peakOf · _) hpoints).trans (peakOf_map_delay d _ _)
  · exact (congrArg integral hpoints).trans (integral_map_delay d _)
  · intro hsum
    simp only at hsum ⊢
    rw [hpoints, moment_map_delay, integral_map_delay, add_div, mul_div_cancel_right₀ _ hsum]

end

end Pulse

namespace Hit

open Channel (Key)
open Pulse (Delayed Features features?)

theorem exists_integral_eq_delayed (cobo asad : UInt8) (key : Key) {samples : List Sample}
    (hne : samples ≠ []) (d : Int) : ∃ hit hit', ofTrace? cobo asad key samples = some hit ∧
      ofTrace? cobo asad key (samples.map (Sample.delay d)) = some hit' ∧
      hit'.integral = hit.integral := by
  obtain ⟨offset, hoffset⟩ := Pulse.exists_baseline? hne
  have hoffset' := Pulse.baseline?_map_delay (d := d).trans hoffset
  unfold ofTrace?
  rw [Pulse.features?_eq_some hoffset, Pulse.features?_eq_some hoffset']
  exact ⟨_, _, rfl, rfl, Pulse.integral_map_ofSample_delay⟩

/-- **Pedestal and time shifts.** If all values of a trace are raised by one number, its features
stay the same, and so does every bit of its hit. If all buckets are delayed by one number, the peak
and the integral stay the same, and the centroid is delayed by it. -/
theorem ofTrace?_shifted (cobo asad : UInt8) (key : Key) (samples : List Sample)
    (hne : samples ≠ []) :
    (∀ c : Int, (∀ s ∈ samples, s.Raisable c) →
        ofTrace? cobo asad key (samples.map (Sample.raise c)) = ofTrace? cobo asad key samples ∧
          features? (α := Rat) (samples.map (Sample.raise c)) = features? samples) ∧
      ∀ d : Int, (∀ s ∈ samples, s.Delayable d) →
        (∃ f f', features? samples = some f ∧ features? (samples.map (Sample.delay d)) = some f' ∧
          Delayed d f f') ∧
        ∃ hit hit', ofTrace? cobo asad key samples = some hit ∧
          ofTrace? cobo asad key (samples.map (Sample.delay d)) = some hit' ∧
          hit'.integral = hit.integral := by
  constructor
  · intro c h
    obtain ⟨hexact, hdouble⟩ := Pulse.features?_map_raise h
    refine ⟨?_, hexact⟩
    unfold ofTrace?
    rw [hdouble]
  · intro d h
    exact ⟨Pulse.exists_delayed hne h, exists_integral_eq_delayed cobo asad key hne d⟩

/-- A pulse between its samples on a pedestal of 7. -/
def pulse : List Sample :=
  [⟨10, 7⟩, ⟨12, 20⟩, ⟨14, 28⟩, ⟨16, 24⟩, ⟨18, 9⟩]

/-- The pulse without its pedestal, and as late as can be. -/
theorem ofTrace?_shifted_pulse :
    ofTrace? 0 1 ⟨2, 3⟩ (pulse.map (Sample.raise (-7))) = ofTrace? 0 1 ⟨2, 3⟩ pulse ∧
      features? (pulse.map (Sample.raise (-7))) = some (⟨758 / 53, 127 / 6, 53⟩ : Features Rat) ∧
      ∃ f : Features Rat, features? (pulse.map (Sample.delay 4294967277)) = some f ∧
        f.peak = 127 / 6 ∧ f.integral = 53 ∧ f.time = 758 / 53 + 4294967277 := by
  have hfeatures : features? pulse = some (⟨758 / 53, 127 / 6, 53⟩ : Features Rat) := by
    decide +kernel
  obtain ⟨hraise, hdelay⟩ := ofTrace?_shifted 0 1 ⟨2, 3⟩ pulse nofun
  obtain ⟨hhit, hexact⟩ := hraise (-7) (by unfold Channel.Sample.Raisable; decide)
  obtain ⟨⟨f, f', hf, hf', hdelayed⟩, -⟩ :=
    hdelay 4294967277 (by unfold Channel.Sample.Delayable; decide)
  obtain rfl := Option.some.inj (hfeatures.symm.trans hf)
  exact ⟨hhit, hexact.trans hfeatures, f', hf', hdelayed.peak_eq, hdelayed.integral_eq,
    hdelayed.time_eq (by decide)⟩

end Hit

end PulseHits
