import PulseHits.Proofs.Frame.Encode
import PulseHits.Proofs.Readout.Attribution
import PulseHits.Proofs.Readout.Words

/-!
# Samples through a frame and back

Samples that are packed into the items of a partial readout frame come out of it again, channel by
channel and in their order (`decode_encode`). The two bits of an item that say nothing may hold
anything.
-/

namespace PulseHits.Readout

open Channel (Accumulator Key channelCount chipCount)
open PulseHits.Frame (Contents)

/-- The item is one of a channel that a board has, and its bucket and its value fit their fields. -/
structure PartialItem.OnBoard (p : PartialItem) : Prop where
  aget_lt : p.aget < chipCount
  channel_lt : p.channel < channelCount
  bucket_lt : p.sample.bucket.toNat < 512
  value_lt : p.sample.value.toNat < 4096

theorem PartialItem.OnBoard.fits {p : PartialItem} (h : p.OnBoard) : p.Fits where
  aget_lt := h.aget_lt
  channel_lt := Nat.lt_trans h.channel_lt (by decide)
  bucket_lt := h.bucket_lt
  value_lt := h.value_lt

/-- The bytes of an item with something in its two unused bits. -/
def PartialItem.packWith (p : PartialItem) (unused : Fin 4) : Bytes :=
  .ofNatBE partialItemSize (p.word + unused.val <<< 12)

theorem PartialItem.packWith_zero (p : PartialItem) : p.packWith 0 = p.encode := by
  show Bytes.ofNatBE partialItemSize (p.word + 0 <<< 12) = .ofNatBE partialItemSize p.word
  rw [Nat.zero_shiftLeft, Nat.add_zero]

/-! ## What decoding looks at -/

theorem decodePartialFrom_congr {items items' : List Item}
    (h : List.Forall₂ (fun i i' => i.size = i'.size ∧ PartialItem.ofItem i = .ofItem i')
      items items') (index : Nat) (channels : Accumulator) (notices : List Notice) :
    decodePartialFrom index items channels notices =
      decodePartialFrom index items' channels notices := by
  induction h generalizing index channels notices with
  | nil => rfl
  | cons hitem _ ih =>
    obtain ⟨hsize, hread⟩ := hitem
    rw [decodePartialFrom, decodePartialFrom, hsize, hread]
    split
    · rfl
    · simp only
      split
      · exact ih ..
      · exact ih ..

/-- The words are the same but for the two unused bits. -/
def SameButUnused (n n' : Nat) : Prop :=
  ∀ i, i ≠ 12 → i ≠ 13 → n.testBit i = n'.testBit i

/-- The item of a word. -/
def wordItem (n : Nat) : Item :=
  ⟨.ofNatBE partialItemSize n⟩

theorem decodePartial_congr {words words' : List Nat} (h : List.Forall₂ SameButUnused words words')
    (channels : Accumulator) :
    decodePartial (words.map wordItem) channels = decodePartial (words'.map wordItem) channels := by
  refine decodePartialFrom_congr ?_ 0 channels []
  rw [List.forall₂_map_left_iff, List.forall₂_map_right_iff]
  refine h.imp fun n n' hn => ⟨?_, PartialItem.ofItem_congr hn⟩
  show (Bytes.ofNatBE partialItemSize n).length = (Bytes.ofNatBE partialItemSize n').length
  rw [Bytes.length_ofNatBE, Bytes.length_ofNatBE]

/-! ## There and back -/

theorem samples_decodePartial_packed {words : List (PartialItem × Fin 4)}
    (hwords : ∀ w ∈ words, w.1.OnBoard) (key : Key) :
    (decodePartial (words.map fun w => ⟨w.1.packWith w.2⟩) .empty).channels.samples key =
      ((words.map (·.1)).filter fun p =>
        p.aget = key.aget.val ∧ p.channel = key.channel.val).map (·.sample) := by
  have hsize : ∀ item ∈ words.map (fun w => Item.mk (w.1.packWith w.2)),
      item.size = partialItemSize := by
    intro item hitem
    obtain ⟨w, -, rfl⟩ := List.mem_map.mp hitem
    exact Bytes.length_ofNatBE ..
  have hcontents : contents .partialReadout (words.map fun w => ⟨w.1.packWith w.2⟩) =
      words.map (·.1) := by
    rw [contents, List.map_map]
    refine List.map_congr_left fun w hw => ?_
    exact PartialItem.ofItem_ofNatBE (hwords w hw).fits w.2.isLt
  rw [samples_decodePartial hsize, Accumulator.samples_empty, List.nil_append, samplesFor,
    hcontents]
  refine congrArg _ (List.filter_congr fun p _ => decide_eq_decide.mpr ?_)
  rw [PartialItem.key?, Key.ofPair?_eq_some_iff]
  exact ⟨fun h => ⟨h.1.symm, h.2.symm⟩, fun h => ⟨h.1.symm, h.2.symm⟩⟩

/-- **Decoding undoes encoding.** The frame that is written for contents is read back with the
header and the items that it was written for. If the items are packed samples, each channel gets its
own, in their order; and the unused bits of words have no influence. -/
theorem decode_encode {c : Contents} (h : c.Fits) :
    (∃ f, Frame.parse c.encode = .ok f ∧ f.IsWritten c ∧
      ∀ words : List (PartialItem × Fin 4), (∀ w ∈ words, w.1.OnBoard) →
        c.itemSize = partialItemSize → c.body = words.flatMap (fun w => w.1.packWith w.2) →
          let decoded := decodePartial f.view.items .empty
          decoded.error? = none ∧ ∀ key, decoded.channels.samples key =
            ((words.map (·.1)).filter fun p =>
              p.aget = key.aget.val ∧ p.channel = key.channel.val).map (·.sample)) ∧
    ∀ words words', List.Forall₂ SameButUnused words words' → ∀ channels,
      decodePartial (words.map wordItem) channels =
        decodePartial (words'.map wordItem) channels := by
  refine ⟨?_, fun words words' hwords => decodePartial_congr hwords⟩
  obtain ⟨f, hf, hwritten⟩ := Frame.parse_encode h
  refine ⟨f, hf, hwritten, fun words hwords hitemSize hbody => ?_⟩
  have hsize : ∀ w ∈ words, (PartialItem.packWith w.1 w.2).length = c.itemSize := by
    intro w _
    rw [hitemSize]
    exact Bytes.length_ofNatBE ..
  rw [hwritten.items_view h.itemSize_pos hsize hbody]
  refine ⟨(error?_decodePartial_eq_none_iff _).mpr fun item hitem => ?_,
    samples_decodePartial_packed hwords⟩
  obtain ⟨w, -, rfl⟩ := List.mem_map.mp hitem
  exact Bytes.length_ofNatBE ..

/-- Two samples of one channel around one of another, with all that the unused bits can hold. -/
def threeWords : List (PartialItem × Fin 4) :=
  [(⟨2, 5, ⟨100, 0xABC⟩⟩, ⟨0, by decide⟩), (⟨3, 67, ⟨511, 4095⟩⟩, ⟨3, by decide⟩),
    (⟨2, 5, ⟨3, 4⟩⟩, ⟨2, by decide⟩)]

theorem decode_threeWords :
    let c : Contents := ⟨1, 2, 3, 5, 500, 4, threeWords.flatMap fun w => w.1.packWith w.2⟩
    c.Fits ∧ ∃ f, Frame.parse c.encode = .ok f ∧ f.IsWritten c ∧
      (decodePartial f.view.items .empty).channels.samples ⟨2, 5⟩ = [⟨100, 0xABC⟩, ⟨3, 4⟩] := by
  intro c
  have hfits : c.Fits :=
    ⟨by decide, by decide, by decide, by decide, by decide, by decide, by decide, by decide⟩
  have hwords : ∀ w ∈ threeWords, w.1.OnBoard := by
    simp only [threeWords, List.forall_mem_cons]
    exact ⟨⟨by decide, by decide, by decide, by decide⟩,
      ⟨by decide, by decide, by decide, by decide⟩,
      ⟨by decide, by decide, by decide, by decide⟩, by simp⟩
  obtain ⟨f, hf, hwritten, hdecoded⟩ := (decode_encode hfits).1
  refine ⟨hfits, f, hf, hwritten, ?_⟩
  rw [(hdecoded threeWords hwords rfl rfl).2]
  decide

end PulseHits.Readout
