import Mathlib.Data.List.Basic
import PulseHits.Proofs.Frame.View
import PulseHits.Proofs.Readout.Attribution
import PulseHits.Proofs.Readout.Words
import PulseHits.Readout.Hits

/-!
# The hits of a frame, channel by channel

What becomes of a frame is decided by its class and, for each channel, by the samples that its items
have for that channel (`result_process_eq_ok_iff`): the hits are those of `channelHits`, in the order
of the channels and one for each channel that got an item. Frames that pass through the same channels
one after the other give what each of them gives alone (`processEach_independent`).
-/

namespace PulseHits

open Channel (Accumulator Key Sample)

/-! ## Hits and their channels -/

namespace Hit

/-- The place of a hit among the channels of its board. -/
def place (h : Hit) : Nat :=
  h.aget.toNat * Channel.channelCount + h.channel.toNat

/-- The hit was seen on this channel. -/
def IsOn (h : Hit) (key : Key) : Prop :=
  h.aget.toNat = key.aget ∧ h.channel.toNat = key.channel

theorem IsOn.place_eq {h : Hit} {key : Key} (hon : h.IsOn key) : h.place = key.index := by
  rw [place, hon.1, hon.2]
  rfl

theorem IsOn.key_eq {h : Hit} {key key' : Key} (hon : h.IsOn key) (hon' : h.IsOn key') :
    key = key' := by
  obtain ⟨aget, channel⟩ := key
  obtain ⟨aget', channel'⟩ := key'
  rw [Key.mk.injEq]
  exact ⟨Fin.ext (hon.1.symm.trans hon'.1), Fin.ext (hon.2.symm.trans hon'.2)⟩

theorem ofTrace?_eq_none_iff {cobo asad : UInt8} {key : Key} {samples : List Sample} :
    ofTrace? cobo asad key samples = none ↔ samples = [] := by
  rw [ofTrace?, Option.map_eq_none_iff, Pulse.features?, Option.map_eq_none_iff, Pulse.baseline?]
  cases samples with
  | nil => simp
  | cons s samples => simp [List.getLast?_cons]

theorem exists_ofTrace?_eq_some (cobo asad : UInt8) (key : Key) {samples : List Sample}
    (h : samples ≠ []) : ∃ hit, ofTrace? cobo asad key samples = some hit :=
  Option.ne_none_iff_exists'.mp (mt ofTrace?_eq_none_iff.mp h)

theorem of_ofTrace?_eq_some {cobo asad : UInt8} {key : Key} {samples : List Sample} {h : Hit}
    (hh : ofTrace? cobo asad key samples = some h) :
    h.cobo = cobo.toUInt32 ∧ h.asad = asad.toUInt32 ∧ h.IsOn key := by
  obtain ⟨f, -, rfl⟩ := Option.map_eq_some_iff.mp hh
  have haget : key.aget.val < 2 ^ 32 := Nat.lt_trans key.aget.isLt (by decide)
  have hchannel : key.channel.val < 2 ^ 32 := Nat.lt_trans key.channel.isLt (by decide)
  exact ⟨rfl, rfl, Nat.mod_eq_of_lt haget, Nat.mod_eq_of_lt hchannel⟩

end Hit

namespace Readout

/-! ## One hit for each channel with samples -/

/-- The hits that items give, channel by channel. -/
def channelHits (c : Class) (items : List Item) : List Hit :=
  Key.all.filterMap fun key => Hit.ofTrace? c.cobo c.asad key (samplesFor c.kind items key)

section channelHits
variable {c : Class} {items : List Item} {h : Hit} {key : Key}

theorem mem_channelHits : h ∈ channelHits c items ↔
    ∃ key, Hit.ofTrace? c.cobo c.asad key (samplesFor c.kind items key) = some h := by
  simp [channelHits, Key.mem_all]

theorem mem_channelHits_of_isOn (hon : h.IsOn key) : h ∈ channelHits c items ↔
    Hit.ofTrace? c.cobo c.asad key (samplesFor c.kind items key) = some h := by
  rw [mem_channelHits]
  constructor
  · rintro ⟨key', hh⟩
    rwa [hon.key_eq (Hit.of_ofTrace?_eq_some hh).2.2]
  · exact fun hh => ⟨key, hh⟩

theorem exists_mem_channelHits_iff : (∃ h ∈ channelHits c items, h.IsOn key) ↔
    ∃ p ∈ contents c.kind items, p.key? = some key := by
  have hsome : samplesFor c.kind items key ≠ [] ↔
      ∃ h, Hit.ofTrace? c.cobo c.asad key (samplesFor c.kind items key) = some h := by
    rw [← Option.isSome_iff_exists, Option.isSome_iff_ne_none, Ne, Ne, Hit.ofTrace?_eq_none_iff]
  rw [← samplesFor_ne_nil_iff, hsome]
  constructor
  · rintro ⟨h, hmem, hon⟩
    exact ⟨h, (mem_channelHits_of_isOn hon).mp hmem⟩
  · rintro ⟨h, hh⟩
    have hon := (Hit.of_ofTrace?_eq_some hh).2.2
    exact ⟨h, (mem_channelHits_of_isOn hon).mpr hh, hon⟩

theorem pairwise_place_channelHits (c : Class) (items : List Item) :
    (channelHits c items).Pairwise fun h h' => h.place < h'.place := by
  refine List.Pairwise.filterMap _ ?_ Key.pairwise_all
  intro key key' hlt h hh h' hh'
  rw [(Hit.of_ofTrace?_eq_some hh).2.2.place_eq, (Hit.of_ofTrace?_eq_some hh').2.2.place_eq]
  exact hlt

theorem length_channelHits_le (c : Class) (items : List Item) :
    (channelHits c items).length ≤ Channel.keyCount :=
  Nat.le_trans (List.length_filterMap_le _ _) (Nat.le_of_eq Key.length_all)

end channelHits

/-! ## What becomes of a frame -/

section hitsOf
variable (c : Class) (channels : Accumulator)

theorem hitsOf_eq : hitsOf c channels =
    Key.all.filterMap fun key => Hit.ofTrace? c.cobo c.asad key (channels.samples key) := by
  rw [hitsOf, Accumulator.active, Accumulator.activeKeys, List.filterMap_map,
    List.filterMap_filter]
  refine List.filterMap_congr fun key _ => ?_
  simp only [Accumulator.count_eq_length, decide_eq_true_eq, List.length_pos_iff]
  split
  · rfl
  · next hempty => exact (Hit.ofTrace?_eq_none_iff.mpr (not_not.mp hempty)).symm

theorem length_hitsOf : (hitsOf c channels).length = channels.activeCount := by
  have hsome : ∀ k ∈ channels.activeKeys,
      (Hit.ofTrace? c.cobo c.asad k (channels.samples k)).isSome = true := by
    intro k hk
    rw [Option.isSome_iff_ne_none, Ne, Hit.ofTrace?_eq_none_iff]
    exact Accumulator.mem_activeKeys.mp hk
  rw [hitsOf, Accumulator.active, List.filterMap_map, List.length_filterMap_eq_countP,
    Accumulator.activeCount, List.countP_eq_length]
  exact hsome

end hitsOf

/-- The items have the size that their readout asks for. A full readout asks for none. -/
def WellSized (kind : Kind) (items : List Item) : Prop :=
  kind = .partialReadout → ∀ item ∈ items, item.size = partialItemSize

theorem wellSized_of_fullReadout {kind : Kind} (h : kind = .fullReadout) (items : List Item) :
    WellSized kind items := by
  intro hpartial
  rw [h] at hpartial
  cases hpartial

section process
variable {v : View}

theorem result_process_of_wellSized (h : WellSized (classify v).kind v.items) :
    (process v).result = .ok (hitsOf (classify v) (process v).channels) := by
  simp only [process, processWith, Accumulator.clear_eq_empty]
  split
  · next hkind =>
    have hnone := (error?_decodePartial_eq_none_iff .empty).mpr (h hkind)
    simp only [hnone]
  · rfl
  · rw [hitsOf_eq]
    simp [Hit.ofTrace?_eq_none_iff]

theorem result_process_of_not_wellSized (h : ¬ WellSized (classify v).kind v.items) :
    ∃ e, (process v).result = .error e := by
  obtain ⟨hkind, hsize⟩ := Classical.not_imp.mp h
  have hsome : (decodePartial v.items .empty).error? ≠ none :=
    fun hnone => hsize ((error?_decodePartial_eq_none_iff _).mp hnone)
  obtain ⟨e, he⟩ := Option.ne_none_iff_exists'.mp hsome
  exact ⟨e, by simp only [process, processWith, Accumulator.clear_eq_empty, hkind, he]⟩

theorem samples_process (h : WellSized (classify v).kind v.items) (key : Key) :
    (process v).channels.samples key = samplesFor (classify v).kind v.items key := by
  simp only [process, processWith, Accumulator.clear_eq_empty]
  split
  · next hkind =>
    have hnone := (error?_decodePartial_eq_none_iff .empty).mpr (h hkind)
    simp only [hnone]
    rw [samples_decodePartial (h hkind), Accumulator.samples_empty, List.nil_append, hkind]
  · next hkind =>
    rw [samples_decodeFull, Accumulator.count_eq_length, Accumulator.samples_empty, hkind]
    simp
  · next hkind =>
    rw [Accumulator.samples_empty, hkind, samplesFor_unrecognized]

/-- **What becomes of a frame.** Only items of the wrong size prevent its hits. -/
theorem result_process_eq_ok_iff {hits : List Hit} : (process v).result = .ok hits ↔
    WellSized (classify v).kind v.items ∧ hits = channelHits (classify v) v.items := by
  by_cases hsized : WellSized (classify v).kind v.items
  · have hhits : hitsOf (classify v) (process v).channels = channelHits (classify v) v.items := by
      rw [hitsOf_eq, channelHits]
      simp only [samples_process hsized]
    rw [result_process_of_wellSized hsized, hhits, Except.ok.injEq]
    exact ⟨fun h => ⟨hsized, h.symm⟩, fun h => h.2.symm⟩
  · obtain ⟨e, he⟩ := result_process_of_not_wellSized hsized
    rw [he]
    exact ⟨nofun, fun h => absurd h.1 hsized⟩

theorem activeCount_process {hits : List Hit} (h : (process v).result = .ok hits) :
    (process v).channels.activeCount = hits.length := by
  have hsized := (result_process_eq_ok_iff.mp h).1
  rw [result_process_of_wellSized hsized, Except.ok.injEq] at h
  rw [← h, length_hitsOf]

end process

/-! ## Frames one after the other -/

/-- What frames give one after the other, when each finds the channels as the one before left
them. -/
def processEach (channels : Accumulator) : List View → List Outcome
  | [] => []
  | v :: rest =>
    let outcome := processWith v channels
    outcome :: processEach outcome.channels rest

theorem processEach_eq_map (channels : Accumulator) (views : List View) :
    processEach channels views = views.map process := by
  induction views generalizing channels with
  | nil => rfl
  | cons v views ih => rw [processEach, processWith_eq_process, ih, List.map_cons]

/-- **No frame leaves a trace in the next.** Whatever the channels hold at first and whichever frames
cannot be decoded, every frame gives what it gives with empty channels; and behind a frame that was
decoded, just as many channels have samples as there are hits. -/
theorem processEach_independent (channels : Accumulator) (views : List View) :
    processEach channels views = views.map process ∧
      ∀ outcome ∈ processEach channels views, ∀ hits, outcome.result = .ok hits →
        outcome.channels.activeCount = hits.length := by
  refine ⟨processEach_eq_map channels views, ?_⟩
  intro outcome houtcome hits hok
  rw [processEach_eq_map] at houtcome
  obtain ⟨v, -, rfl⟩ := List.mem_map.mp houtcome
  exact activeCount_process hok

/-- The second frame breaks off behind its first item, and the third continues the channel of that
item. -/
theorem processEach_brokenOff :
    let first := View.ofItems 1 0 0 [PartialItem.toItem ⟨0, 0, ⟨1, 10⟩⟩]
    let second := View.ofItems 1 0 0 [PartialItem.toItem ⟨3, 0, ⟨1, 10⟩⟩, ⟨[0, 0]⟩]
    let third := View.ofItems 2 0 0 [⟨[0xC0, 1]⟩]
    let dirty := Accumulator.empty.push ⟨3, 0⟩ ⟨7, 7⟩
    (processEach dirty [first, second, third]).map (·.result) =
        [(process first).result, .error (.itemSize 1 2), (process third).result] ∧
      (process third).channels.activeCount = 1 := by
  intro first second third dirty
  obtain ⟨heach, hcount⟩ := processEach_independent dirty [first, second, third]
  have hsecond : (process second).result = .error (.itemSize 1 2) := by decide +kernel
  have hthird : (process third).result = .ok (channelHits (classify third) third.items) :=
    result_process_eq_ok_iff.mpr ⟨nofun, rfl⟩
  have hlength : (channelHits (classify third) third.items).length = 1 := by decide +kernel
  refine ⟨?_, ?_⟩
  · rw [heach]
    simp only [List.map_cons, List.map_nil, hsecond]
  · rw [hcount _ (by rw [heach]; simp) _ hthird, hlength]

end Readout

end PulseHits
