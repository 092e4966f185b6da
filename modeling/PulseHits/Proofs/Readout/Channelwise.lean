import PulseHits.Proofs.Readout.Hits

/-!
# Channels do not disturb each other

The hits of a frame are described channel by channel (`ChannelHits`), and the hit of a channel
depends on the samples of that channel alone. So the items of a frame may be put into any order that
keeps the items of a channel in order, or, where only chips are named, the items of a chip
(`Reordered`), and the hits stay what they are (`process_channelwise`).
-/

namespace PulseHits.Readout

open Channel (Key Sample chipCount channelCount keyCount)

/-- The hits of a frame, channel by channel. -/
structure ChannelHits (v : View) (hits : List Hit) : Prop where
  increasing : hits.Pairwise fun h h' => h.place < h'.place
  length_le : hits.length ≤ keyCount
  aget_lt : ∀ h ∈ hits, h.aget.toNat < chipCount
  channel_lt : ∀ h ∈ hits, h.channel.toNat < channelCount
  cobo_eq : ∀ h ∈ hits, h.cobo = (classify v).cobo.toUInt32
  asad_eq : ∀ h ∈ hits, h.asad = (classify v).asad.toUInt32
  unique : ∀ key, ∀ h ∈ hits, ∀ h' ∈ hits, h.IsOn key → h'.IsOn key → h = h'
  /-- A channel has a hit if and only if some item is attributed to it. -/
  exists_iff : ∀ key, (∃ h ∈ hits, h.IsOn key) ↔
    ∃ p ∈ contents (classify v).kind v.items, p.key? = some key
  eq_nil : ∀ code, (classify v).kind = .unrecognized code → hits = []

theorem channelHits_channelHits (v : View) : ChannelHits v (channelHits (classify v) v.items) where
  increasing := pairwise_place_channelHits _ _
  length_le := length_channelHits_le _ _
  aget_lt := by
    intro h hh
    obtain ⟨key, hkey⟩ := mem_channelHits.mp hh
    rw [(Hit.of_ofTrace?_eq_some hkey).2.2.1]
    exact key.aget.isLt
  channel_lt := by
    intro h hh
    obtain ⟨key, hkey⟩ := mem_channelHits.mp hh
    rw [(Hit.of_ofTrace?_eq_some hkey).2.2.2]
    exact key.channel.isLt
  cobo_eq := by
    intro h hh
    obtain ⟨key, hkey⟩ := mem_channelHits.mp hh
    exact (Hit.of_ofTrace?_eq_some hkey).1
  asad_eq := by
    intro h hh
    obtain ⟨key, hkey⟩ := mem_channelHits.mp hh
    exact (Hit.of_ofTrace?_eq_some hkey).2.1
  unique := by
    intro key h hh h' hh' hon hon'
    have hkey := (mem_channelHits_of_isOn hon).mp hh
    have hkey' := (mem_channelHits_of_isOn hon').mp hh'
    exact Option.some.inj (hkey.symm.trans hkey')
  exists_iff key := exists_mem_channelHits_iff
  eq_nil := by
    intro code hkind
    refine List.filterMap_eq_nil_iff.mpr fun key _ => ?_
    rw [hkind, samplesFor_unrecognized, Hit.ofTrace?_eq_none_iff]

/-! ## Items in another order -/

/-- `items'` are `items` in another order, one that keeps the items of each channel in order in a
partial readout and the items of each chip in a full one. -/
structure Reordered (kind : Kind) (items items' : List Item) : Prop where
  perm : items'.Perm items
  channels : kind = .partialReadout → ∀ key,
    (items'.filter fun i => (PartialItem.ofItem i).key? = some key) =
      items.filter fun i => (PartialItem.ofItem i).key? = some key
  chips : kind = .fullReadout → ∀ aget,
    (items'.filter fun i => (FullItem.ofItem i).aget = aget) =
      items.filter fun i => (FullItem.ofItem i).aget = aget

namespace Reordered
variable {kind : Kind} {items items' : List Item}

theorem samplesFor_eq (h : Reordered kind items items') (key : Key) :
    samplesFor kind items' key = samplesFor kind items key := by
  cases kind with
  | partialReadout =>
    rw [samplesFor_partialReadout, samplesFor_partialReadout, h.channels rfl]
  | fullReadout => exact samplesFor_fullReadout_congr (h.chips rfl key.aget)
  | unrecognized code => rfl

theorem wellSized (h : Reordered kind items items') (hsized : WellSized kind items) :
    WellSized kind items' := by
  intro hkind item hitem
  exact hsized hkind item (h.perm.mem_iff.mp hitem)

end Reordered

/-- **The hits of a frame, channel by channel.** They come in the order of the channels, one for each
channel to which an item is attributed. Of two frames of the same class, a channel with the same
samples in both has the same hit in both, whatever the other channels hold; and a frame with the
items in another order that no channel notices has the same hits. -/
theorem process_channelwise {v : View} {hits : List Hit} (h : (process v).result = .ok hits) :
    ChannelHits v hits ∧ ∀ v', classify v' = classify v →
      (∀ hits', (process v').result = .ok hits' → ∀ key,
        samplesFor (classify v).kind v'.items key = samplesFor (classify v).kind v.items key →
          ∀ hit : Hit, hit.IsOn key → (hit ∈ hits' ↔ hit ∈ hits)) ∧
      (Reordered (classify v).kind v.items v'.items → (process v').result = .ok hits) := by
  obtain ⟨hsized, rfl⟩ := result_process_eq_ok_iff.mp h
  refine ⟨channelHits_channelHits v, fun v' hclass => ⟨?_, ?_⟩⟩
  · intro hits' h' key hsamples hit hon
    obtain ⟨-, rfl⟩ := result_process_eq_ok_iff.mp h'
    rw [mem_channelHits_of_isOn hon, mem_channelHits_of_isOn hon, hclass, hsamples]
  · intro hreordered
    rw [result_process_eq_ok_iff, hclass]
    refine ⟨hreordered.wellSized hsized, ?_⟩
    simp only [channelHits, hreordered.samplesFor_eq]

/-- Two samples of one channel, and between them one of another channel and one of no channel. -/
def fourItems : List PartialItem :=
  [⟨0, 5, ⟨20, 5⟩⟩, ⟨2, 3, ⟨3, 7⟩⟩, ⟨1, 100, ⟨0, 1⟩⟩, ⟨0, 5, ⟨21, 60⟩⟩]

/-- The same, the latter two in front and in the other order. -/
def fourItemsReordered : List PartialItem :=
  [⟨1, 100, ⟨0, 1⟩⟩, ⟨2, 3, ⟨3, 7⟩⟩, ⟨0, 5, ⟨20, 5⟩⟩, ⟨0, 5, ⟨21, 60⟩⟩]

theorem reordered_fourItems : Reordered .partialReadout (fourItems.map (·.toItem))
    (fourItemsReordered.map (·.toItem)) := by
  have hperm : fourItemsReordered.Perm fourItems := by decide
  refine ⟨hperm.map _, fun _ key => ?_, nofun⟩
  have hitems : ∀ p ∈ fourItems, PartialItem.ofItem p.toItem = p := by decide +kernel
  have hfilter : ∀ ps : List PartialItem, ps.Perm fourItems →
      ((ps.map (·.toItem)).filter fun i => (PartialItem.ofItem i).key? = some key) =
        (ps.filter fun p => p.key? = some key).map (·.toItem) := by
    intro ps hps
    rw [List.filter_map]
    refine congrArg _ (List.filter_congr fun p hp => ?_)
    rw [Function.comp_apply, hitems p (hps.mem_iff.mp hp)]
  rw [hfilter _ hperm, hfilter _ (.refl _)]
  have hkeys : ∀ key, key ∈ Key.all →
      (fourItemsReordered.filter fun p => p.key? = some key) =
        fourItems.filter fun p => p.key? = some key := by decide +kernel
  rw [hkeys key (Key.mem_all key)]

theorem process_fourItems :
    let first := View.ofItems 1 2 3 (fourItems.map (·.toItem))
    let second := View.ofItems 1 2 3 (fourItemsReordered.map (·.toItem))
    ∃ hits, (process first).result = .ok hits ∧ hits.length = 2 ∧ ChannelHits first hits ∧
      (process second).result = .ok hits := by
  intro first second
  have hfirst : first.items = fourItems.map (·.toItem) := View.items_ofItems ..
  have hsecond : second.items = fourItemsReordered.map (·.toItem) := View.items_ofItems ..
  have hsized : WellSized (classify first).kind first.items := by
    intro _ item hitem
    rw [hfirst] at hitem
    obtain ⟨p, -, rfl⟩ := List.mem_map.mp hitem
    exact p.size_toItem
  have hhits := result_process_eq_ok_iff.mpr ⟨hsized, rfl⟩
  have hlength : (channelHits (classify first) first.items).length = 2 := by
    rw [hfirst]
    decide +kernel
  obtain ⟨hchannels, hother⟩ := process_channelwise hhits
  have hreordered : Reordered (classify first).kind first.items second.items := by
    rw [hfirst, hsecond]
    exact reordered_fourItems
  exact ⟨_, hhits, hlength, hchannels, (hother second rfl).2 hreordered⟩

end PulseHits.Readout
