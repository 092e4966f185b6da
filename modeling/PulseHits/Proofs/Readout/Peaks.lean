import PulseHits.Proofs.Frame.Encode
import PulseHits.Proofs.Pulse.PeakBounds
import PulseHits.Proofs.Readout.FullDecoding
import PulseHits.Proofs.Readout.HeaderFields
import PulseHits.Proofs.Readout.Hits

/-!
# The peaks of a full readout

The channels of a full readout take turns, so the buckets of each follow each other from zero on
(`map_bucket_samplesFor_fullReadout`), as long as they can be counted in 32 bits. Every trace is in
the order of time, then, and the bounds on its peak hold with an eighth of the drop
(`process_peakBounds`). A frame declares the number of its items in 32 bits, so its channels are
never too long.
-/

namespace PulseHits.Readout

open Channel (Key Sample channelCount)
open Pulse (Around Features Increasing IsFirstMax PeakBounds)

/-! ## Buckets of a full readout -/

theorem map_bucket_samplesFor_fullReadout (items : List Item) (key : Key) :
    (samplesFor .fullReadout items key).map (·.bucket) =
      (List.range (samplesFor .fullReadout items key).length).map Nat.toUInt32 := by
  rw [samplesFor_fullReadout_eq]
  refine List.ext_getElem (by simp) fun t _ _ => ?_
  rw [List.getElem_map, List.getElem_mapIdx, List.getElem_map, List.getElem_range]

theorem length_samplesFor_fullReadout_le (items : List Item) (key : Key) :
    (samplesFor .fullReadout items key).length ≤ items.length := by
  unfold samplesFor
  rw [List.length_map]
  refine (List.length_filter_le _ _).trans (Nat.le_of_eq ?_)
  rw [contents, List.length_mapIdx]

section
variable {items : List Item} {key : Key}

theorem toNat_bucket_samplesFor (hlength : (samplesFor .fullReadout items key).length ≤ 2 ^ 32)
    {t : Nat} {s : Sample} (h : (samplesFor .fullReadout items key)[t]? = some s) :
    s.bucket.toNat = t := by
  have ht := (List.getElem?_eq_some_iff.mp h).1
  have hbuckets := congrArg (·[t]?) (map_bucket_samplesFor_fullReadout items key)
  simp only [List.getElem?_map, h, List.getElem?_range ht, Option.map_some,
    Option.some.injEq] at hbuckets
  rw [hbuckets]
  exact Nat.mod_eq_of_lt (by omega)

theorem increasing_samplesFor (hlength : (samplesFor .fullReadout items key).length ≤ 2 ^ 32) :
    Increasing (samplesFor .fullReadout items key) := by
  apply List.pairwise_iff_getElem.mpr
  intro i j hi hj hlt
  have hfirst := toNat_bucket_samplesFor hlength (List.getElem?_eq_getElem hi)
  have hsecond := toNat_bucket_samplesFor hlength (List.getElem?_eq_getElem hj)
  rw [UInt32.lt_iff_toNat_lt, hfirst, hsecond]
  exact hlt

/-! ## The peak of a hit -/

/-- The hit is that of a channel with the samples `trace`, the highest of which is `s` at `index`,
and `f` are its features in exact arithmetic. -/
structure HasPeak (c : Class) (trace : List Sample) (key : Key) (hit : Hit) (offset : UInt16)
    (f : Features Rat) (index : Nat) (s : Sample) : Prop where
  isOn : hit.IsOn key
  ofTrace?_eq : Hit.ofTrace? c.cobo c.asad key trace = some hit
  baseline?_eq : Pulse.baseline? trace = some offset
  features?_eq : Pulse.features? trace = some f
  isFirstMax : IsFirstMax trace index s
  bounds : PeakBounds trace offset index s f.peak
  /-- The neighbours are always one bucket away. -/
  peak_le : ∀ before after, Around trace index before s after →
    f.peak ≤ (s.value.toNat : Rat) - offset.toNat +
      ((s.value.toNat : Rat) - offset.toNat -
        min ((before.value.toNat : Rat) - offset.toNat)
          ((after.value.toNat : Rat) - offset.toNat)) / 8

theorem exists_hasPeak {c : Class} {hit : Hit}
    (hhit : Hit.ofTrace? c.cobo c.asad key (samplesFor .fullReadout items key) = some hit)
    (hlength : (samplesFor .fullReadout items key).length ≤ 2 ^ 32) :
    ∃ offset f index s,
      HasPeak c (samplesFor .fullReadout items key) key hit offset f index s := by
  have hne : samplesFor .fullReadout items key ≠ [] := by
    intro hempty
    rw [Hit.ofTrace?_eq_none_iff.mpr hempty] at hhit
    cases hhit
  obtain ⟨offset, f, index, s, hoffset, hf, hmax, hbounds⟩ :=
    Pulse.exists_peakBounds hne (increasing_samplesFor hlength)
  refine ⟨offset, f, index, s, (Hit.of_ofTrace?_eq_some hhit).2.2, hhit, hoffset, hf, hmax, hbounds,
    ?_⟩
  intro before after haround
  have hpos := haround.pos
  have hbefore := toNat_bucket_samplesFor hlength haround.before_eq
  have hhere := toNat_bucket_samplesFor hlength haround.here_eq
  have hafter := toNat_bucket_samplesFor hlength haround.after_eq
  exact hbounds.peak_le before after haround (by omega) (by omega)

end

theorem length_samplesFor_view_le (f : Frame) (key : Key) :
    (samplesFor .fullReadout f.view.items key).length ≤ 2 ^ 32 := by
  have hcount : f.header.itemCount < 2 ^ 32 :=
    (f.headerField_view ⟨96, 32, Frame.Header.itemCount⟩ (by simp [Frame.Header.fields])).2
  have hle := length_samplesFor_fullReadout_le f.view.items key
  rw [Frame.items_view, List.length_map, List.length_range] at hle
  rw [Frame.items_view]
  omega

section
variable {v : View}

theorem exists_hits_of_fullReadout (hkind : (classify v).kind = .fullReadout) :
    ∃ hits, (process v).result = .ok hits ∧ ∀ hit ∈ hits, ∃ key, hit.IsOn key ∧
      ((samplesFor .fullReadout v.items key).length ≤ 2 ^ 32 → ∃ offset f index s,
        HasPeak (classify v) (samplesFor .fullReadout v.items key) key hit offset f index s) := by
  have hsized := wellSized_of_fullReadout hkind v.items
  refine ⟨_, result_process_eq_ok_iff.mpr ⟨hsized, rfl⟩, ?_⟩
  intro hit hmem
  obtain ⟨key, hhit⟩ := mem_channelHits.mp hmem
  rw [hkind] at hhit
  exact ⟨key, (Hit.of_ofTrace?_eq_some hhit).2.2, exists_hasPeak hhit⟩

end

/-- **The peak is no lower than the highest sample.** In exact arithmetic the peak of a trace whose
buckets increase is at least its greatest height, and just that at an edge of the trace; between two
samples it is always interpolated, at a vertex between the middles of the two intervals, and no more
than an eighth of the larger drop above that height if the buckets follow each other. So it is for
every hit of a full readout, as long as the buckets of its channel can be counted in 32 bits; and
for every hit of a full readout frame. -/
theorem process_peakBounds :
    (∀ trace : List Sample, trace ≠ [] → Increasing trace →
      ∃ offset f index s, Pulse.baseline? trace = some offset ∧
        Pulse.features? (α := Rat) trace = some f ∧ IsFirstMax trace index s ∧
        PeakBounds trace offset index s f.peak) ∧
      (∀ v : View, (classify v).kind = .fullReadout →
        ∃ hits, (process v).result = .ok hits ∧ ∀ hit ∈ hits, ∃ key, hit.IsOn key ∧
          ((samplesFor .fullReadout v.items key).length ≤ 2 ^ 32 → ∃ offset f index s,
            HasPeak (classify v) (samplesFor .fullReadout v.items key) key hit offset f index s)) ∧
      ∀ frame : Frame, (classify frame.view).kind = .fullReadout →
        ∃ hits, (process frame.view).result = .ok hits ∧
          ∀ hit ∈ hits, ∃ key offset f index s,
            HasPeak (classify frame.view) (samplesFor .fullReadout frame.view.items key) key hit
              offset f index s := by
  refine ⟨fun _ => Pulse.exists_peakBounds, fun _ => exists_hits_of_fullReadout, ?_⟩
  intro frame hkind
  obtain ⟨hits, hok, hpeaks⟩ := exists_hits_of_fullReadout hkind
  refine ⟨hits, hok, ?_⟩
  intro hit hmem
  obtain ⟨key, -, hpeak⟩ := hpeaks hit hmem
  exact ⟨key, hpeak (length_samplesFor_view_le frame key)⟩

/-- Three rounds of one chip, the second of which is higher. -/
def threeRounds : Frame.Contents :=
  let item (i : Nat) : FullItem := ⟨⟨1, by decide⟩, if i / channelCount = 1 then 300 else 200⟩
  ⟨2, 7, 1, 5, 500, fullItemSize, (List.range (3 * channelCount)).flatMap fun i => (item i).encode⟩

/-- Buckets that increase unevenly, with the vertex in the middle of the two highest samples, and
the peaks of a frame. -/
theorem process_peakBounds_threeRounds :
    (∃ offset index s, Pulse.baseline? [⟨1, 10⟩, ⟨4, 30⟩, ⟨6, 30⟩, ⟨7, 10⟩] = some offset ∧
        IsFirstMax [⟨1, 10⟩, ⟨4, 30⟩, ⟨6, 30⟩, ⟨7, 10⟩] index s ∧
        PeakBounds [⟨1, 10⟩, ⟨4, 30⟩, ⟨6, 30⟩, ⟨7, 10⟩] offset index s (64 / 3)) ∧
      ∃ frame hits, Frame.parse threeRounds.encode = .ok frame ∧
        (process frame.view).result = .ok hits ∧ ∃ hit ∈ hits, ∃ key offset f index s,
          HasPeak (classify frame.view) (samplesFor .fullReadout frame.view.items key) key hit
            offset f index s := by
  obtain ⟨htrace, -, hframe⟩ := process_peakBounds
  constructor
  · obtain ⟨offset, f, index, s, hoffset, hf, hmax, hbounds⟩ :=
      htrace [⟨1, 10⟩, ⟨4, 30⟩, ⟨6, 30⟩, ⟨7, 10⟩] (by decide) (by unfold Increasing; decide)
    have hpeak : f.peak = 64 / 3 := by
      have hmap := congrArg (Option.map Features.peak) hf
      exact Option.some.inj (hmap.symm.trans (by decide +kernel))
    exact ⟨offset, index, s, hoffset, hmax, hpeak ▸ hbounds⟩
  · have hfits : threeRounds.Fits :=
      ⟨by decide, by decide, by decide, by decide, by decide, by decide, by decide,
        by decide +kernel⟩
    obtain ⟨frame, hparse, hwritten⟩ := Frame.parse_encode hfits
    have hkind : (classify frame.view).kind = .fullReadout := by
      rw [(classify_view frame).1, hwritten.header_eq]
      rfl
    obtain ⟨hits, hok, hpeaks⟩ := hframe frame hkind
    have hmem : ∃ hit, hit ∈ hits := by
      obtain ⟨-, rfl⟩ := result_process_eq_ok_iff.mp hok
      have hitems :=
        hwritten.items_view hfits.itemSize_pos (fun _ _ => Bytes.length_ofNatBE _ _) rfl
      have hkey : ∃ p ∈ contents (classify frame.view).kind frame.view.items,
          p.key? = some ⟨1, 0⟩ := by
        rw [hkind, hitems]
        decide +kernel
      obtain ⟨hit, hmem, -⟩ := exists_mem_channelHits_iff.mpr hkey
      exact ⟨hit, hmem⟩
    obtain ⟨hit, hmem⟩ := hmem
    exact ⟨frame, hits, hparse, hok, hit, hmem, hpeaks hit hmem⟩

end PulseHits.Readout
