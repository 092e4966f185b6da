import PulseHits.Proofs.Pulse.Sums
import PulseHits.Proofs.Readout.PartialDecoding
import PulseHits.Proofs.Readout.Peaks

/-!
# The sums of a frame are not rounded

Values have twelve bits, and so have heights. The items of a partial readout have nine bits of bucket,
and a frame that is measured in 24 bits holds less than `2 ^ 30` of them
(`itemCount_lt_of_itemSize`). In a full readout the buckets grow with the trace, and `2 ^ 21` samples
are as many as can be summed up for certain (`bucketSum_samplesFor_fullReadout_le`). Within these
bounds the sums of every channel are exact at every sample (`process_exactSums`).
-/

namespace PulseHits.Readout

open Channel (Key Sample)
open Pulse (ExactSums bucketSum valueSum)

/-! ## Values and buckets -/

theorem PartialItem.value_ofItem_lt (item : Item) : (ofItem item).sample.value.toNat < 4096 := by
  have hfield : item.field 0 12 < 2 ^ 12 := by
    rw [← Nat.one_shiftLeft]
    exact item.field_lt 0 12
  exact Nat.lt_of_le_of_lt (Nat.mod_le _ _) hfield

theorem PartialItem.bucket_ofItem_lt (item : Item) : (ofItem item).sample.bucket.toNat < 512 := by
  have hfield : item.field 14 9 < 2 ^ 9 := by
    rw [← Nat.one_shiftLeft]
    exact item.field_lt 14 9
  exact Nat.lt_of_le_of_lt (Nat.mod_le _ _) hfield

section
variable {kind : Kind} {items : List Item} {key : Key}

theorem exists_mem_contents_of_mem_samplesFor {s : Sample} (h : s ∈ samplesFor kind items key) :
    ∃ p ∈ contents kind items, p.sample = s := by
  obtain ⟨p, hp, hs⟩ := List.mem_map.mp h
  exact ⟨p, List.mem_of_mem_filter hp, hs⟩

theorem value_le_of_mem_samplesFor :
    ∀ s ∈ samplesFor kind items key, s.value.toNat ≤ 4095 := by
  intro s hs
  obtain ⟨p, hp, rfl⟩ := exists_mem_contents_of_mem_samplesFor hs
  cases kind with
  | partialReadout =>
    obtain ⟨item, -, rfl⟩ := List.mem_map.mp hp
    exact Nat.le_of_lt_succ (PartialItem.value_ofItem_lt item)
  | fullReadout =>
    obtain ⟨i, hi, rfl⟩ := List.mem_mapIdx.mp hp
    exact Nat.le_of_lt_succ (FullItem.value_ofItem_lt _)
  | unrecognized code => cases hp

theorem bucketSum_samplesFor_partialReadout_le (items : List Item) (key : Key) :
    bucketSum (samplesFor .partialReadout items key) ≤
      (samplesFor .partialReadout items key).length * 511 := by
  have hsum := List.sum_le_card_nsmul
    ((samplesFor .partialReadout items key).map (·.bucket.toNat)) 511 (by
      intro x hx
      obtain ⟨s, hs, rfl⟩ := List.mem_map.mp hx
      obtain ⟨p, hp, rfl⟩ := exists_mem_contents_of_mem_samplesFor hs
      obtain ⟨item, -, rfl⟩ := List.mem_map.mp hp
      exact Nat.le_of_lt_succ (PartialItem.bucket_ofItem_lt item))
  rwa [List.length_map, smul_eq_mul] at hsum

end

theorem sum_range_toUInt32_le (n : Nat) :
    2 * ((List.range n).map fun i => i.toUInt32.toNat).sum ≤ n * n := by
  induction n with
  | zero => simp
  | succ n ih =>
    have hlast : n.toUInt32.toNat ≤ n := Nat.mod_le _ _
    rw [List.range_succ, List.map_append, List.sum_append, List.map_singleton, List.sum_singleton]
    linarith

theorem bucketSum_samplesFor_fullReadout_le (items : List Item) (key : Key) :
    2 * bucketSum (samplesFor .fullReadout items key) ≤
      (samplesFor .fullReadout items key).length * (samplesFor .fullReadout items key).length := by
  have hbuckets : (samplesFor .fullReadout items key).map (·.bucket.toNat) =
      (List.range (samplesFor .fullReadout items key).length).map fun i => i.toUInt32.toNat := by
    have h := congrArg (List.map UInt32.toNat) (map_bucket_samplesFor_fullReadout items key)
    rwa [List.map_map, List.map_map] at h
  rw [bucketSum, hbuckets]
  exact sum_range_toUInt32_le _

/-! ## Items of a frame -/

/-- The length of a frame is counted in 24 bits, and its header takes a block at least. -/
theorem itemCount_lt_of_itemSize {f : Frame} (h : f.header.itemSize = 4) :
    f.header.itemCount < 2 ^ 30 := by
  have hframe : f.header.frameSize < 2 ^ 24 :=
    (f.headerField_view ⟨8, 24, Frame.Header.frameSize⟩ (by simp [Frame.Header.fields])).2
  have hheader := f.consistent.header_ge
  have hitems := f.consistent.items_le
  simp only [h, Frame.Header.frameBytes, Frame.Header.headerBytes, Frame.blockSize,
    Frame.minHeaderSize] at hheader hitems
  omega

theorem length_items_lt_of_ok {f : Frame} (htype : f.header.frameType = 1) {hits : List Hit}
    (hok : (process f.view).result = .ok hits) : f.view.items.length < 2 ^ 30 := by
  rw [f.items_view, List.length_map, List.length_range]
  by_cases hsize : f.header.itemSize = 4
  · exact itemCount_lt_of_itemSize hsize
  · have hzero : f.header.itemCount = 0 := by
      by_contra hpos
      have herror := (result_process_eq_error_iff_of_frameType htype).mpr
        ⟨Nat.pos_of_ne_zero hpos, hsize, rfl⟩
      rw [hok] at herror
      cases herror
    rw [hzero]
    norm_num

theorem length_samplesFor_partialReadout_le (items : List Item) (key : Key) :
    (samplesFor .partialReadout items key).length ≤ items.length := by
  rw [samplesFor_partialReadout, List.length_map]
  exact List.length_filter_le _ _

/-! ## Channels -/

/-- The samples `trace` of a channel are summed up without rounding, and `hit` is what they give. -/
structure Summed (trace : List Sample) (hits : List Hit) (key : Key) (offset : UInt16) (hit : Hit) :
    Prop where
  baseline?_eq : Pulse.baseline? trace = some offset
  exactSums : ∀ before, before <+: trace → ExactSums offset before
  mem : hit ∈ hits
  isOn : hit.IsOn key
  integral_is : hit.integral.Is ((valueSum trace : Rat) - trace.length * offset.toNat)

section
variable {v : View} {hits : List Hit} {key : Key}

theorem exists_summed (hok : (process v).result = .ok hits)
    (hne : samplesFor (classify v).kind v.items key ≠ [])
    (hlength : (samplesFor (classify v).kind v.items key).length ≤ 2 ^ 30)
    (hbuckets : bucketSum (samplesFor (classify v).kind v.items key) ≤ 2 ^ 41) :
    ∃ offset hit, Summed (samplesFor (classify v).kind v.items key) hits key offset hit := by
  obtain ⟨-, rfl⟩ := result_process_eq_ok_iff.mp hok
  obtain ⟨offset, hoffset⟩ := Pulse.exists_baseline? hne
  have hexact : ∀ before, before <+: samplesFor (classify v).kind v.items key →
      ExactSums offset before := fun before hpart =>
    Pulse.exactSums_of_bounds (Pulse.abs_heightInt_le hoffset value_le_of_mem_samplesFor)
      (by omega) (by omega) hpart
  obtain ⟨hit, hhit⟩ := Hit.exists_ofTrace?_eq_some (classify v).cobo (classify v).asad key hne
  refine ⟨offset, hit, hoffset, hexact, mem_channelHits.mpr ⟨key, hhit⟩,
    (Hit.of_ofTrace?_eq_some hhit).2.2, ?_⟩
  have hintegral := (hexact _ List.prefix_rfl).integral_is
  rw [Pulse.heightSum_eq] at hintegral
  rw [Hit.ofTrace?, Pulse.features?_eq_some hoffset, Option.map_some, Option.some.injEq] at hhit
  rw [← hhit]
  exact_mod_cast hintegral

end

/-- **The sums of a frame are not rounded.** In every frame of a partial readout that has hits, however
long it is, and in every frame of a full readout that has at most `2 ^ 21` samples for each channel,
both sums of each channel are below `2 ^ 53` after every sample and exact, and the integral of its hit
is the sum of the values less the baseline of each. -/
theorem process_exactSums :
    (∀ f : Frame, f.header.frameType = 1 → ∀ hits, (process f.view).result = .ok hits →
        ∀ key, (process f.view).channels.samples key ≠ [] → ∃ offset hit,
          Summed ((process f.view).channels.samples key) hits key offset hit) ∧
      ∀ f : Frame, f.header.frameType = 2 →
        (∀ key, ((process f.view).channels.samples key).length ≤ 2 ^ 21) →
        ∃ hits, (process f.view).result = .ok hits ∧
          ∀ key, (process f.view).channels.samples key ≠ [] → ∃ offset hit,
            Summed ((process f.view).channels.samples key) hits key offset hit := by
  constructor
  · intro f htype hits hok key hne
    have hkind : (classify f.view).kind = .partialReadout := kind_view_of_frameType htype
    have hcount := length_items_lt_of_ok htype hok
    have hlength := length_samplesFor_partialReadout_le f.view.items key
    have hsum := bucketSum_samplesFor_partialReadout_le f.view.items key
    rw [samples_process (result_process_eq_ok_iff.mp hok).1] at hne ⊢
    rw [← hkind] at hsum hlength
    exact exists_summed hok hne (by omega) (by omega)
  · intro f htype hshort
    have hkind : (classify f.view).kind = .fullReadout := kind_view_of_frameType htype
    have hsized := wellSized_of_fullReadout hkind f.view.items
    have hok := result_process_eq_ok_iff.mpr ⟨hsized, rfl⟩
    refine ⟨_, hok, fun key hne => ?_⟩
    have hlength := hshort key
    have hsum := bucketSum_samplesFor_fullReadout_le f.view.items key
    rw [samples_process hsized] at hne hlength ⊢
    rw [← hkind] at hsum
    have hsquare := Nat.mul_le_mul hlength hlength
    exact exists_summed hok hne (by omega) (by omega)

/-- Four samples of one channel, the second far below the baseline, in buckets without order. -/
def dippedItems : List PartialItem :=
  [⟨2, 5, ⟨100, 10⟩⟩, ⟨2, 5, ⟨511, 0⟩⟩, ⟨2, 5, ⟨3, 4095⟩⟩, ⟨2, 5, ⟨0, 10⟩⟩]

/-- Two rounds of one chip, the second of which is lower, and the start of a third. -/
def dippedRounds (aget : Fin Channel.chipCount) : List FullItem :=
  List.replicate 68 ⟨aget, 300⟩ ++ List.replicate 68 ⟨aget, 0⟩ ++ [⟨aget, 300⟩]

theorem exists_frame_dippedItems :
    ∃ f, Frame.parse (Frame.Contents.encode
        ⟨1, 0, 0, 5, 500, 4, dippedItems.flatMap (·.encode)⟩) = .ok f ∧
      f.header.frameType = 1 ∧ WellSized (classify f.view).kind f.view.items ∧
      (process f.view).channels.samples ⟨2, 5⟩ =
        [⟨100, 10⟩, ⟨511, 0⟩, ⟨3, 4095⟩, ⟨0, 10⟩] := by
  obtain ⟨f, hparse, hwritten⟩ := Frame.parse_encode
    (c := ⟨1, 0, 0, 5, 500, 4, dippedItems.flatMap (·.encode)⟩)
    ⟨by decide, by decide, by decide, by decide, by decide, by decide, by decide,
      by decide +kernel⟩
  have htype : f.header.frameType = 1 := by rw [hwritten.header_eq]
  have hitems := hwritten.items_view (by decide) (fun _ _ => Bytes.length_ofNatBE _ _) rfl
  have hkind : (classify f.view).kind = .partialReadout := kind_view_of_frameType htype
  have hsized : WellSized (classify f.view).kind f.view.items := by
    intro _ item hitem
    rw [hitems] at hitem
    obtain ⟨p, -, rfl⟩ := List.mem_map.mp hitem
    exact Bytes.length_ofNatBE _ _
  refine ⟨f, hparse, htype, hsized, ?_⟩
  rw [samples_process hsized, hkind, hitems]
  decide +kernel

theorem exists_frame_dippedRounds :
    ∃ f, Frame.parse (Frame.Contents.encode
        ⟨2, 0, 0, 5, 500, 2, (dippedRounds 1).flatMap (·.encode)⟩) = .ok f ∧
      f.header.frameType = 2 ∧
      (∀ key, ((process f.view).channels.samples key).length ≤ 2 ^ 21) ∧
      (process f.view).channels.samples ⟨1, 0⟩ = [⟨0, 300⟩, ⟨1, 0⟩, ⟨2, 300⟩] := by
  obtain ⟨f, hparse, hwritten⟩ := Frame.parse_encode
    (c := ⟨2, 0, 0, 5, 500, 2, (dippedRounds 1).flatMap (·.encode)⟩)
    ⟨by decide, by decide, by decide, by decide, by decide, by decide, by decide,
      by decide +kernel⟩
  have htype : f.header.frameType = 2 := by rw [hwritten.header_eq]
  have hitems := hwritten.items_view (by decide) (fun _ _ => Bytes.length_ofNatBE _ _) rfl
  have hkind : (classify f.view).kind = .fullReadout := kind_view_of_frameType htype
  have hsized := wellSized_of_fullReadout hkind f.view.items
  refine ⟨f, hparse, htype, fun key => ?_, ?_⟩
  · have hcount : f.view.items.length = 137 := by
      rw [hitems]
      rfl
    have hlength := length_samplesFor_fullReadout_le f.view.items key
    rw [samples_process hsized, hkind]
    omega
  · rw [samples_process hsized, hkind, hitems]
    decide +kernel

theorem process_exactSums_dipped :
    (∃ f hits offset hit,
        Frame.parse (Frame.Contents.encode
          ⟨1, 0, 0, 5, 500, 4, dippedItems.flatMap (·.encode)⟩) = .ok f ∧
          (process f.view).result = .ok hits ∧
          Summed [⟨100, 10⟩, ⟨511, 0⟩, ⟨3, 4095⟩, ⟨0, 10⟩] hits ⟨2, 5⟩ offset hit ∧
          hit.integral.Is 4075) ∧
      ∃ f hits offset hit,
        Frame.parse (Frame.Contents.encode
          ⟨2, 0, 0, 5, 500, 2, (dippedRounds 1).flatMap (·.encode)⟩) = .ok f ∧
          (process f.view).result = .ok hits ∧
          Summed [⟨0, 300⟩, ⟨1, 0⟩, ⟨2, 300⟩] hits ⟨1, 0⟩ offset hit ∧ hit.integral.Is (-300) := by
  obtain ⟨hpartial, hfull⟩ := process_exactSums
  constructor
  · obtain ⟨f, hparse, htype, hsized, htrace⟩ := exists_frame_dippedItems
    have hok := result_process_eq_ok_iff.mpr ⟨hsized, rfl⟩
    obtain ⟨offset, hit, hsummed⟩ := hpartial f htype _ hok ⟨2, 5⟩ (by rw [htrace]; nofun)
    rw [htrace] at hsummed
    obtain rfl : offset = 10 := Option.some.inj (hsummed.baseline?_eq.symm.trans (by decide))
    refine ⟨f, _, 10, hit, hparse, hok, hsummed, ?_⟩
    convert hsummed.integral_is using 1
    decide +kernel
  · obtain ⟨f, hparse, htype, hshort, htrace⟩ := exists_frame_dippedRounds
    obtain ⟨hits, hok, hsummed⟩ := hfull f htype hshort
    obtain ⟨offset, hit, hsummed⟩ := hsummed ⟨1, 0⟩ (by rw [htrace]; nofun)
    rw [htrace] at hsummed
    obtain rfl : offset = 300 := Option.some.inj (hsummed.baseline?_eq.symm.trans (by decide))
    refine ⟨f, hits, 300, hit, hparse, hok, hsummed, ?_⟩
    convert hsummed.integral_is using 1
    decide +kernel

end PulseHits.Readout
