import PulseHits.Proofs.Readout.HeaderFields
import PulseHits.Proofs.Readout.ItemSizes

/-!
# What a partial readout decodes to

Seen as a number, an item of a partial readout has its chip, channel, bucket and value at fixed bits
(`PartialItem.ofItem_eq_ofBits`). Decoding items of the right size gives every channel what the items
that name it say, and one notice for each item that names no channel (`partialDecoded_decodePartial`).
Decoding stops at the first item of another size and leaves things as the items before it left them
(`decodePartial_of_first_missized`). In a frame all items have one size, so it is the first that
decides (`result_process_eq_error_iff_of_frameType`).
-/

namespace PulseHits

/-- The number in the bits `first` to `last` of an item, counted from its last bit. -/
def Item.bits (i : Item) (first last : Nat) : Nat :=
  i.bytes.toNatBE / 2 ^ first % 2 ^ (last + 1 - first)

theorem Item.field_eq_bits {i : Item} {offset width : Nat} (hpos : 0 < width)
    (hmax : width ≤ Bits.maxWidth) (hinside : offset + width ≤ 8 * i.size) :
    i.field offset width = i.bits offset (offset + width - 1) := by
  have hwidth : offset + width - 1 + 1 - offset = width := by omega
  rw [bits, hwidth]
  exact Bits.loadFromEnd_eq hpos hmax hinside

theorem Channel.Key.ofPair?_eq_none_iff {aget channel : Nat} :
    ofPair? aget channel = none ↔ ¬ (aget < chipCount ∧ channel < channelCount) := by
  unfold ofPair?
  split
  · next h => simp [h]
  · next h => simp [h]

namespace Readout

open Channel (Accumulator Key Sample)

/-! ## Items -/

/-- The contents of a partial readout item, read off the bits of its number. -/
def PartialItem.ofBits (i : Item) : PartialItem where
  aget := i.bits 30 31
  channel := i.bits 23 29
  sample := ⟨(i.bits 14 22).toUInt32, (i.bits 0 11).toUInt16⟩

theorem PartialItem.ofItem_eq_ofBits {i : Item} (h : i.size = 4) : ofItem i = ofBits i := by
  have hfield : ∀ {offset width : Nat}, 0 < width → offset + width ≤ 32 →
      i.field offset width = i.bits offset (offset + width - 1) := by
    intro offset width hpos hinside
    exact Item.field_eq_bits hpos (by simp only [Bits.maxWidth]; omega) (by omega)
  simp only [ofItem, ofBits, hfield (show 0 < 2 by decide) (show 30 + 2 ≤ 32 by decide),
    hfield (show 0 < 7 by decide) (show 23 + 7 ≤ 32 by decide),
    hfield (show 0 < 9 by decide) (show 14 + 9 ≤ 32 by decide),
    hfield (show 0 < 12 by decide) (show 0 + 12 ≤ 32 by decide)]

theorem PartialItem.key?_ofItem_eq_some_iff {i : Item} (h : i.size = 4) {key : Key} :
    (ofItem i).key? = some key ↔ i.bits 30 31 = key.aget.val ∧ i.bits 23 29 = key.channel.val := by
  rw [ofItem_eq_ofBits h, key?, Key.ofPair?_eq_some_iff]
  exact and_congr eq_comm eq_comm

/-- Two bits always name a chip, but seven bits can name a channel that no chip has. -/
theorem PartialItem.key?_ofItem_eq_none_iff {i : Item} (h : i.size = 4) :
    (ofItem i).key? = none ↔ 68 ≤ i.bits 23 29 := by
  have haget : (ofBits i).aget < Channel.chipCount := Nat.mod_lt _ (by decide)
  rw [ofItem_eq_ofBits h, key?, Key.ofPair?_eq_none_iff, not_and]
  exact ⟨fun hnot => Nat.le_of_not_lt (hnot haget), fun hle _ => Nat.not_lt.mpr hle⟩

/-! ## Items of the right size -/

/-- The notices for the items of which no chip has the channel, the first of them numbered `index`. -/
def droppedNotices (index : Nat) (items : List Item) : List Notice :=
  ((items.zipIdx index).filter fun (i, _) => 68 ≤ i.bits 23 29).map fun (i, place) =>
    (PartialItem.ofBits i).droppedNotice place

theorem notices_decodePartialFrom (index : Nat) {items : List Item}
    (h : ∀ item ∈ items, item.size = 4) (channels : Accumulator) (notices : List Notice) :
    (decodePartialFrom index items channels notices).notices =
      notices.reverse ++ droppedNotices index items := by
  induction items generalizing index channels notices with
  | nil => simp [decodePartialFrom, droppedNotices]
  | cons item items ih =>
    obtain ⟨hsize, hrest⟩ := List.forall_mem_cons.mp h
    rw [decodePartialFrom_cons (decide_eq_true hsize), droppedNotices, List.zipIdx_cons]
    cases hkey : (PartialItem.ofItem item).key? with
    | none =>
      have hdropped := (PartialItem.key?_ofItem_eq_none_iff hsize).mp hkey
      simp only [ih (index + 1) hrest, PartialItem.ofItem_eq_ofBits hsize, List.reverse_cons,
        List.append_assoc, List.filter_cons, hdropped, decide_true, if_true, List.map_cons]
      rfl
    | some key =>
      have hkept : ¬ 68 ≤ item.bits 23 29 := by
        rw [← PartialItem.key?_ofItem_eq_none_iff hsize, hkey]
        exact Option.some_ne_none key
      simp only [ih (index + 1) hrest, List.filter_cons, hkept, decide_false, Bool.false_eq_true,
        if_false]
      rfl

/-- The decoding went through all items: each channel got the buckets and values of the items that
name it, in the order of the items, and there is a notice for each of the others. -/
structure PartialDecoded (items : List Item) (channels : Accumulator) (d : Decoded) : Prop where
  error?_eq : d.error? = none
  samples_eq : ∀ key : Key, d.channels.samples key = channels.samples key ++
    (items.filter fun i => i.bits 30 31 = key.aget.val ∧ i.bits 23 29 = key.channel.val).map fun i =>
      ⟨(i.bits 14 22).toUInt32, (i.bits 0 11).toUInt16⟩
  notices_eq : d.notices = droppedNotices 0 items

theorem partialDecoded_decodePartial {items : List Item} (h : ∀ item ∈ items, item.size = 4)
    (channels : Accumulator) : PartialDecoded items channels (decodePartial items channels) where
  error?_eq := (error?_decodePartial_eq_none_iff channels).mpr h
  samples_eq := by
    intro key
    have hnamed : ∀ i ∈ items, decide ((PartialItem.ofItem i).key? = some key) =
        decide (i.bits 30 31 = key.aget.val ∧ i.bits 23 29 = key.channel.val) :=
      fun i hi => decide_eq_decide.mpr (PartialItem.key?_ofItem_eq_some_iff (h i hi))
    rw [samples_decodePartial h, samplesFor_partialReadout, List.filter_congr hnamed]
    refine congrArg _ (List.map_congr_left fun i hi => ?_)
    rw [PartialItem.ofItem_eq_ofBits (h i (List.mem_of_mem_filter hi))]
    rfl
  notices_eq := notices_decodePartialFrom 0 h channels []

/-! ## An item of the wrong size -/

theorem decodePartialFrom_append (index : Nat) {before : List Item}
    (h : ∀ item ∈ before, item.size = 4) (after : List Item) (channels : Accumulator)
    (notices : List Notice) :
    decodePartialFrom index (before ++ after) channels notices =
      decodePartialFrom (index + before.length) after
        (decodePartialFrom index before channels notices).channels
        (decodePartialFrom index before channels notices).notices.reverse := by
  induction before generalizing index channels notices with
  | nil => simp [decodePartialFrom]
  | cons item before ih =>
    obtain ⟨hsize, hrest⟩ := List.forall_mem_cons.mp h
    have hindex : index + (item :: before).length = index + 1 + before.length := by
      rw [List.length_cons]
      omega
    have hsized : isPartialSized item = true := decide_eq_true hsize
    rw [List.cons_append, decodePartialFrom_cons hsized, decodePartialFrom_cons hsized, hindex]
    cases (PartialItem.ofItem item).key? <;> exact ih (index + 1) hrest _ _

theorem decodePartial_of_first_missized {before : List Item} {first : Item}
    (hbefore : ∀ item ∈ before, item.size = 4) (hfirst : first.size ≠ 4) (after : List Item)
    (channels : Accumulator) :
    decodePartial (before ++ first :: after) channels =
      { decodePartial before channels with error? := some (.itemSize before.length first.size) } := by
  have hmissized : ¬ isPartialSized first = true := fun h => hfirst (of_decide_eq_true h)
  rw [decodePartial, decodePartialFrom_append 0 hbefore, decodePartialFrom_cons_of_not hmissized,
    List.reverse_reverse, Nat.zero_add]
  rfl

theorem exists_index_missized {items : List Item} (h : ¬ ∀ item ∈ items, item.size = 4) :
    ∃ index item, items[index]? = some item ∧ item.size ≠ 4 ∧
      ∀ item' ∈ items.take index, item'.size = 4 := by
  simp only [not_forall] at h
  obtain ⟨item, hitem, hsize⟩ := h
  obtain ⟨before, first, after, rfl, hbefore, hfirst⟩ :=
    exists_first_isMissized ⟨item, hitem, isMissized_partialReadout_iff.mpr hsize⟩
  refine ⟨before.length, first, by simp, isMissized_partialReadout_iff.mp hfirst, ?_⟩
  intro item' hitem'
  rw [List.take_left] at hitem'
  exact not_not.mp (mt isMissized_partialReadout_iff.mpr (hbefore item' hitem'))

theorem eq_of_first_missized {before after : List Item} {first item : Item} {index : Nat}
    (hbefore : ∀ item ∈ before, item.size = 4) (hfirst : first.size ≠ 4)
    (hitem : (before ++ first :: after)[index]? = some item) (hsize : item.size ≠ 4)
    (htake : ∀ item ∈ (before ++ first :: after).take index, item.size = 4) :
    index = before.length ∧ item = first := by
  rcases Nat.lt_trichotomy index before.length with hlt | rfl | hlt
  · rw [List.getElem?_append_left hlt] at hitem
    exact absurd (hbefore item (List.mem_of_getElem? hitem)) hsize
  · rw [List.getElem?_append_right (Nat.le_refl _), Nat.sub_self] at hitem
    exact ⟨rfl, (Option.some.inj hitem).symm⟩
  · obtain ⟨n, rfl⟩ : ∃ n, index = before.length + (n + 1) :=
      ⟨index - before.length - 1, by omega⟩
    rw [List.take_length_add_append, List.take_succ_cons] at htake
    exact absurd (htake first (by simp)) hfirst

/-! ## Frames -/

theorem kind_view_of_frameType {f : Frame} {code : Nat} (h : f.header.frameType = code) :
    (classify f.view).kind = .ofCode code.toUInt16 := by
  rw [(classify_view f).1, h]

/-- The items of a frame all have the declared size, so the first of them decides. -/
theorem result_process_eq_error_iff_of_frameType {f : Frame} (htype : f.header.frameType = 1)
    {e : DecodeError} : (process f.view).result = .error e ↔
      0 < f.header.itemCount ∧ f.header.itemSize ≠ 4 ∧ e = .itemSize 0 f.header.itemSize := by
  have hkind : (classify f.view).kind = .partialReadout := kind_view_of_frameType htype
  have hsizes : ∀ item ∈ f.view.items, item.size = f.header.itemSize := by
    intro item hitem
    rw [f.items_view] at hitem
    obtain ⟨i, hi, rfl⟩ := List.mem_map.mp hitem
    exact f.length_itemBytes (List.mem_range.mp hi)
  have hcount : f.view.items.length = f.header.itemCount := by
    rw [f.items_view, List.length_map, List.length_range]
  rw [process, result_processWith_eq_error_iff, error?_decodePartial_eq_some_iff]
  simp only [hkind, true_and, isMissized_partialReadout_iff, not_not]
  constructor
  · rintro ⟨before, first, after, hitems, hbefore, hfirst, rfl⟩
    have hsize : first.size = f.header.itemSize := hsizes first (by rw [hitems]; simp)
    rw [hsize] at hfirst ⊢
    -- an item before it would have the same size
    have hnil : before = [] := by
      refine List.eq_nil_iff_forall_not_mem.mpr fun item hitem => hfirst ?_
      rw [← hsizes item (by rw [hitems]; simp [hitem])]
      exact hbefore item hitem
    rw [hitems, hnil] at hcount
    rw [hnil]
    exact ⟨by rw [← hcount]; simp, hfirst, rfl⟩
  · rintro ⟨hpos, hsize, rfl⟩
    cases hitems : f.view.items with
    | nil =>
      rw [hitems, List.length_nil] at hcount
      omega
    | cons first after =>
      have hfirst : first.size = f.header.itemSize := hsizes first (by rw [hitems]; simp)
      refine ⟨[], first, after, rfl, by simp, ?_, ?_⟩
      · rw [hfirst]
        exact hsize
      · rw [hfirst, List.length_nil]

/-- **What a partial readout decodes to.** Whatever the channels hold: if all items of a frame have
four bytes, each channel gets the samples of the items whose bits name it, in their order, and each
item that names no channel gives a notice and nothing else. Otherwise the first item of another size
is the error, and all the rest is as the items before it leave it. So a partial readout frame fails
if and only if it has items and declares another size for them, and always at its first item. -/
theorem decodePartial_closedForm (v : View) (channels : Accumulator) :
    ((∀ item ∈ v.items, item.size = 4) →
        PartialDecoded v.items channels (decodePartial v.items channels)) ∧
      ((¬ ∀ item ∈ v.items, item.size = 4) → ∃ index item,
        v.items[index]? = some item ∧ item.size ≠ 4 ∧
          (∀ item' ∈ v.items.take index, item'.size = 4) ∧
          decodePartial v.items channels =
            { decodePartial (v.items.take index) channels with
              error? := some (.itemSize index item.size) }) ∧
      ∀ f : Frame, f.header.frameType = 1 → ∀ e, (process f.view).result = .error e ↔
        0 < f.header.itemCount ∧ f.header.itemSize ≠ 4 ∧ e = .itemSize 0 f.header.itemSize := by
  refine ⟨fun h => partialDecoded_decodePartial h channels, fun h => ?_,
    fun f htype e => result_process_eq_error_iff_of_frameType htype⟩
  obtain ⟨index, item, hitem, hsize, hbefore⟩ := exists_index_missized h
  refine ⟨index, item, hitem, hsize, hbefore, ?_⟩
  obtain ⟨hindex, rfl⟩ := List.getElem?_eq_some_iff.mp hitem
  have hstopped := decodePartial_of_first_missized hbefore hsize (v.items.drop (index + 1)) channels
  rwa [← List.drop_eq_getElem_cons hindex, List.take_append_drop, List.length_take_of_le hindex.le]
    at hstopped

/-- Two samples of a channel and between them one of a channel that no chip has. -/
def oneDropped : List Item :=
  [PartialItem.toItem ⟨2, 5, ⟨100, 0xABC⟩⟩, PartialItem.toItem ⟨1, 100, ⟨0, 1⟩⟩,
    PartialItem.toItem ⟨2, 5, ⟨7, 9⟩⟩]

/-- The three items alone, the same before an item of three bytes, and a frame that declares items
of two bytes. -/
theorem decodePartial_oneDropped :
    let channels := Accumulator.empty.push ⟨2, 5⟩ ⟨1, 1⟩
    let whole := View.ofItems 1 0 0 oneDropped
    let broken := View.ofItems 1 0 0 (oneDropped ++ [⟨[1, 2, 3]⟩, PartialItem.toItem ⟨2, 5, ⟨8, 9⟩⟩])
    let d := decodePartial whole.items channels
    d.error? = none ∧ d.channels.samples ⟨2, 5⟩ = [⟨1, 1⟩, ⟨100, 0xABC⟩, ⟨7, 9⟩] ∧
      d.notices = [⟨.warn,
        "Dropping item 1 of partial readout frame with invalid channel 100 (AGET 1)"⟩] ∧
      decodePartial broken.items channels = { d with error? := some (.itemSize 3 3) } ∧
      ∃ f, Frame.parse (Frame.Contents.encode ⟨1, 0, 0, 5, 500, 2, [0, 1, 0, 2]⟩) = .ok f ∧
        (process f.view).result = .error (.itemSize 0 2) := by
  intro channels whole broken d
  have hwhole : whole.items = oneDropped := View.items_ofItems ..
  have hbroken : broken.items = oneDropped ++ [⟨[1, 2, 3]⟩, PartialItem.toItem ⟨2, 5, ⟨8, 9⟩⟩] :=
    View.items_ofItems ..
  have hsized : ∀ item ∈ oneDropped, item.size = 4 := by decide +kernel
  obtain ⟨herror, hsamples, hnotices⟩ :=
    (decodePartial_closedForm whole channels).1 (by rwa [hwhole])
  rw [hwhole] at hsamples hnotices
  refine ⟨herror, (hsamples ⟨2, 5⟩).trans (by decide +kernel), hnotices.trans (by decide +kernel),
    ?_, ?_⟩
  · obtain ⟨index, item, hitem, hsize, hbefore, hstopped⟩ :=
      (decodePartial_closedForm broken channels).2.1 (by rw [hbroken]; decide +kernel)
    rw [hbroken] at hitem hbefore hstopped
    obtain ⟨rfl, rfl⟩ := eq_of_first_missized hsized (by decide) hitem hsize hbefore
    rw [hbroken, hstopped, List.take_left]
    simp only [d, hwhole]
    rfl
  · obtain ⟨f, hparse, hwritten⟩ := Frame.parse_encode (c := ⟨1, 0, 0, 5, 500, 2, [0, 1, 0, 2]⟩)
      ⟨by decide, by decide, by decide, by decide, by decide, by decide, by decide, by decide⟩
    have hfails := (decodePartial_closedForm whole channels).2.2 f (by rw [hwritten.header_eq])
    refine ⟨f, hparse, (hfails _).mpr ?_⟩
    rw [hwritten.header_eq]
    decide

end Readout

end PulseHits
