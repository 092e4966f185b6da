import PulseHits.Proofs.Readout.Hits

/-!
# Two formats for the same samples

What the place of a full readout item implies can be written out: `spellOut` turns the items of a full
readout into partial readout items that name channel and bucket. As long as no bucket outgrows its
field, both kinds of items have the same `contents`, and a frame of either kind gives the same hits
(`process_spellOut`).
-/

namespace PulseHits.Readout

open Channel (channelCount chipCount)

/-- How many buckets a partial readout item can tell apart. -/
def bucketCount : Nat := 512

/-- Full readout items as items of a partial readout: item `j` of a chip, counted from zero, becomes
the word of this chip with channel `j % channelCount`, bucket `j / channelCount` and the same value. -/
def spellOut (items : List Item) : List Item :=
  items.mapIdx fun i item => (PartialItem.ofTurn (items.take i) item).toItem

/-- No chip has more items than the buckets of its channels can hold. -/
def InRange (items : List Item) : Prop :=
  ∀ aget, chipItems aget items ≤ bucketCount * channelCount

theorem chipItems_take_lt {items : List Item} {i : Nat} (hi : i < items.length) :
    chipItems (FullItem.ofItem items[i]).aget (items.take i) <
      chipItems (FullItem.ofItem items[i]).aget items := by
  have hnext : chipItems (FullItem.ofItem items[i]).aget (items.take (i + 1)) =
      chipItems (FullItem.ofItem items[i]).aget (items.take i) + 1 := by
    rw [List.take_succ_eq_append_getElem hi, chipItems_concat, if_pos rfl]
  have hle : chipItems (FullItem.ofItem items[i]).aget (items.take (i + 1)) ≤
      chipItems (FullItem.ofItem items[i]).aget items :=
    (List.take_sublist _ _).countP_le
  omega

theorem fits_ofTurn {before : List Item} {item : Item}
    (h : chipItems (FullItem.ofItem item).aget before < bucketCount * channelCount) :
    (PartialItem.ofTurn before item).Fits where
  aget_lt := (FullItem.ofItem item).aget.isLt
  channel_lt := by
    have hturn : chipItems (FullItem.ofItem item).aget before % 68 < 68 :=
      Nat.mod_lt _ (by decide)
    exact Nat.lt_trans hturn (by decide)
  bucket_lt := by
    have hrange : chipItems (FullItem.ofItem item).aget before < 512 * 68 := h
    have hbucket : chipItems (FullItem.ofItem item).aget before / 68 < 512 := by omega
    exact Nat.lt_of_le_of_lt (Nat.mod_le _ _) hbucket
  value_lt := FullItem.value_ofItem_lt item

theorem contents_spellOut {items : List Item} (h : InRange items) :
    contents .partialReadout (spellOut items) = contents .fullReadout items := by
  refine List.ext_getElem (by simp [contents, spellOut]) fun i _ hi => ?_
  have hi : i < items.length := by simpa [contents] using hi
  have hfits : (PartialItem.ofTurn (items.take i) items[i]).Fits :=
    fits_ofTurn (Nat.lt_of_lt_of_le (chipItems_take_lt hi) (h _))
  simp only [contents, spellOut, List.getElem_map, List.getElem_mapIdx]
  exact PartialItem.ofItem_toItem hfits

theorem wellSized_spellOut (items : List Item) : WellSized .partialReadout (spellOut items) := by
  intro _ item hitem
  obtain ⟨i, hi, rfl⟩ := List.mem_mapIdx.mp hitem
  exact PartialItem.size_toItem _

/-- **The two formats agree.** A full readout frame and the partial readout frame of the same boards
that spells its items out both have hits, and they have the same hits. -/
theorem process_spellOut {full spelled : View} {cobo asad : UInt8}
    (hfull : classify full = ⟨.fullReadout, cobo, asad⟩)
    (hspelled : classify spelled = ⟨.partialReadout, cobo, asad⟩)
    (hitems : spelled.items = spellOut full.items) (hrange : InRange full.items) :
    ∃ hits, (process full).result = .ok hits ∧ (process spelled).result = .ok hits := by
  refine ⟨channelHits (classify full) full.items, ?_, ?_⟩
  · refine result_process_eq_ok_iff.mpr ⟨?_, rfl⟩
    rw [hfull]
    exact nofun
  · refine result_process_eq_ok_iff.mpr ⟨?_, ?_⟩
    · rw [hspelled, hitems]
      exact wellSized_spellOut full.items
    · simp only [channelHits, hfull, hspelled, hitems, samplesFor, contents_spellOut hrange]

/-- Two chips in turn, each with two items more than it has channels. -/
theorem process_spellOut_twoRounds :
    let items := (List.range 140).map fun i => Item.mk (.ofNatBE fullItemSize ((i % 2) <<< 14 + i))
    let full := View.ofItems 2 1 3 items
    let spelled := View.ofItems 1 1 3 (spellOut items)
    ∃ hits, (process full).result = .ok hits ∧ (process spelled).result = .ok hits := by
  intro items full spelled
  have hfull : full.items = items := View.items_ofItems ..
  have hspelled : spelled.items = spellOut items := View.items_ofItems ..
  have hclass : classify full = ⟨.fullReadout, 1, 3⟩ := View.classify_ofItems ..
  have hclass' : classify spelled = ⟨.partialReadout, 1, 3⟩ := View.classify_ofItems ..
  refine process_spellOut hclass hclass' (by rw [hfull, hspelled]) ?_
  intro aget
  have hle : chipItems aget items ≤ items.length := List.countP_le_length
  have hlength : items.length = 140 := rfl
  rw [hfull]
  exact Nat.le_trans hle (by rw [hlength]; decide)

end PulseHits.Readout
