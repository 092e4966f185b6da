import Mathlib.Data.List.Induction
import Mathlib.Data.List.TakeWhile
import PulseHits.Readout.Decode

/-!
# The channel of each item

A partial readout item names its channel. A full readout item names its chip alone, and the items of
its chip that come before it tell the channel and the bucket (`PartialItem.ofTurn`). Written out so,
the items of both readouts have the same `contents`, and `samplesFor` picks the samples of one
channel. Decoding appends these to what the channel holds, as far as the items have the right size
in a partial readout (`samples_decodePartial`), and with the buckets counted on in a full one
(`samples_decodeFull`).
-/

namespace PulseHits.Readout

open Channel (Accumulator Key Sample channelCount chipCount)

/-! ## What the items say -/

/-- The channel that is named, if a board has it. -/
def PartialItem.key? (p : PartialItem) : Option Key :=
  Key.ofPair? p.aget p.channel

/-- The number of items of a chip. -/
def chipItems (aget : Fin chipCount) (items : List Item) : Nat :=
  items.countP fun i => (FullItem.ofItem i).aget = aget

/-- What a full readout item says after the items `before` it: the channels of a chip take turns, and
every round of them is one bucket. -/
def PartialItem.ofTurn (before : List Item) (item : Item) : PartialItem :=
  let f := FullItem.ofItem item
  let turn := chipItems f.aget before
  { aget := f.aget
    channel := turn % channelCount
    sample := ⟨(turn / channelCount).toUInt32, f.value⟩ }

/-- What the items of a frame say, written out in full. -/
def contents : Kind → List Item → List PartialItem
  | .partialReadout, items => items.map .ofItem
  | .fullReadout, items => items.mapIdx fun i item => .ofTurn (items.take i) item
  | .unrecognized _, _ => []

/-- The samples that the items of a frame have for one channel, in the order of the items. -/
def samplesFor (kind : Kind) (items : List Item) (key : Key) : List Sample :=
  ((contents kind items).filter fun p => p.key? = some key).map (·.sample)

@[simp] theorem samplesFor_nil (kind : Kind) (key : Key) : samplesFor kind [] key = [] := by
  cases kind <;> rfl

@[simp] theorem samplesFor_unrecognized (code : UInt16) (items : List Item) (key : Key) :
    samplesFor (.unrecognized code) items key = [] := rfl

theorem samplesFor_ne_nil_iff {kind : Kind} {items : List Item} {key : Key} :
    samplesFor kind items key ≠ [] ↔ ∃ p ∈ contents kind items, p.key? = some key := by
  simp [samplesFor, List.filter_eq_nil_iff]

/-! ## Partial readout -/

theorem samplesFor_partialReadout (items : List Item) (key : Key) :
    samplesFor .partialReadout items key =
      (items.filter fun i => (PartialItem.ofItem i).key? = some key).map fun i =>
        (PartialItem.ofItem i).sample := by
  rw [samplesFor, contents, List.filter_map, List.map_map]
  rfl

theorem samplesFor_partialReadout_cons (item : Item) (items : List Item) (key : Key) :
    samplesFor .partialReadout (item :: items) key =
      (if (PartialItem.ofItem item).key? = some key then [(PartialItem.ofItem item).sample] else []) ++
        samplesFor .partialReadout items key := by
  rw [samplesFor_partialReadout, samplesFor_partialReadout, List.filter_cons]
  by_cases h : (PartialItem.ofItem item).key? = some key <;> simp [h]

/-- The item has the size of partial readout items. -/
def isPartialSized (item : Item) : Bool :=
  item.size = partialItemSize

section decodePartialFrom
variable {index : Nat} {item : Item} {items : List Item} {channels : Accumulator}
  {notices : List Notice}

theorem decodePartialFrom_cons (h : isPartialSized item = true) :
    decodePartialFrom index (item :: items) channels notices =
      match (PartialItem.ofItem item).key? with
      | some key => decodePartialFrom (index + 1) items
          (channels.push key (PartialItem.ofItem item).sample) notices
      | none => decodePartialFrom (index + 1) items channels
          ((PartialItem.ofItem item).droppedNotice index :: notices) := by
  have hsize : item.size = partialItemSize := of_decide_eq_true h
  rw [decodePartialFrom, if_neg (not_not_intro hsize)]
  rfl

theorem decodePartialFrom_cons_of_not (h : ¬ isPartialSized item = true) :
    decodePartialFrom index (item :: items) channels notices =
      ⟨channels, notices.reverse, some (.itemSize index item.size)⟩ := by
  have hsize : item.size ≠ partialItemSize := fun hsize => h (decide_eq_true hsize)
  rw [decodePartialFrom, if_pos hsize]

end decodePartialFrom

theorem samples_decodePartialFrom (index : Nat) (items : List Item) (channels : Accumulator)
    (notices : List Notice) (key : Key) :
    (decodePartialFrom index items channels notices).channels.samples key =
      channels.samples key ++ samplesFor .partialReadout (items.takeWhile isPartialSized) key := by
  induction items generalizing index channels notices with
  | nil => simp [decodePartialFrom]
  | cons item items ih =>
    by_cases hsize : isPartialSized item = true
    · rw [decodePartialFrom_cons hsize, List.takeWhile_cons_of_pos hsize,
        samplesFor_partialReadout_cons]
      cases hkey : (PartialItem.ofItem item).key? with
      | none => simp [ih]
      | some k => simp [ih, Accumulator.samples_push]
    · rw [decodePartialFrom_cons_of_not hsize, List.takeWhile_cons_of_neg hsize]
      simp

theorem error?_decodePartialFrom (index : Nat) (items : List Item) (channels : Accumulator)
    (notices : List Notice) :
    (decodePartialFrom index items channels notices).error? =
      ((items.dropWhile isPartialSized).head?.map fun item =>
        .itemSize (index + (items.takeWhile isPartialSized).length) item.size) := by
  induction items generalizing index channels notices with
  | nil => rfl
  | cons item items ih =>
    by_cases hsize : isPartialSized item = true
    · rw [decodePartialFrom_cons hsize, List.takeWhile_cons_of_pos hsize,
        List.dropWhile_cons_of_pos hsize, List.length_cons, ← Nat.add_assoc, Nat.add_right_comm]
      cases (PartialItem.ofItem item).key? <;> exact ih ..
    · rw [decodePartialFrom_cons_of_not hsize, List.takeWhile_cons_of_neg hsize,
        List.dropWhile_cons_of_neg hsize]
      rfl

theorem samples_decodePartial {items : List Item} (h : ∀ item ∈ items, item.size = partialItemSize)
    (channels : Accumulator) (key : Key) :
    (decodePartial items channels).channels.samples key =
      channels.samples key ++ samplesFor .partialReadout items key := by
  have htake : items.takeWhile isPartialSized = items :=
    List.takeWhile_eq_self_iff.mpr fun item hitem => decide_eq_true (h item hitem)
  rw [decodePartial, samples_decodePartialFrom, htake]

theorem error?_decodePartial_eq_none_iff {items : List Item} (channels : Accumulator) :
    (decodePartial items channels).error? = none ↔ ∀ item ∈ items, item.size = partialItemSize := by
  rw [decodePartial, error?_decodePartialFrom, Option.map_eq_none_iff, List.head?_eq_none_iff,
    List.dropWhile_eq_nil_iff]
  exact forall₂_congr fun item _ => decide_eq_true_iff

/-! ## Full readout

Items are taken in at the end of a list here, because what an item says depends on those before it.
-/

theorem chipItems_concat (aget : Fin chipCount) (items : List Item) (item : Item) :
    chipItems aget (items ++ [item]) =
      chipItems aget items + if (FullItem.ofItem item).aget = aget then 1 else 0 := by
  simp [chipItems, List.countP_append, List.countP_singleton]

theorem contents_fullReadout_concat (items : List Item) (item : Item) :
    contents .fullReadout (items ++ [item]) =
      contents .fullReadout items ++ [.ofTurn items item] := by
  have hbefore : (items.mapIdx fun i x => PartialItem.ofTurn ((items ++ [item]).take i) x) =
      items.mapIdx fun i x => .ofTurn (items.take i) x := by
    refine List.ext_getElem (by simp) fun i hi _ => ?_
    rw [List.length_mapIdx] at hi
    rw [List.getElem_mapIdx, List.getElem_mapIdx, List.take_append_of_le_length (by omega)]
  rw [contents, contents, List.mapIdx_concat, hbefore, List.take_left]

theorem samplesFor_fullReadout_concat (items : List Item) (item : Item) (key : Key) :
    samplesFor .fullReadout (items ++ [item]) key =
      samplesFor .fullReadout items key ++
        if (PartialItem.ofTurn items item).key? = some key then
          [(PartialItem.ofTurn items item).sample] else [] := by
  rw [samplesFor, samplesFor, contents_fullReadout_concat, List.filter_append, List.map_append]
  by_cases h : (PartialItem.ofTurn items item).key? = some key <;> simp [h]

theorem key?_ofTurn_eq_some_iff {before : List Item} {item : Item} {key : Key} :
    (PartialItem.ofTurn before item).key? = some key ↔
      (FullItem.ofItem item).aget = key.aget ∧
        key.channel.val = chipItems key.aget before % channelCount := by
  rw [PartialItem.key?, Key.ofPair?_eq_some_iff]
  simp only [PartialItem.ofTurn, ← Fin.ext_iff]
  constructor
  · rintro ⟨haget, hchannel⟩
    exact ⟨haget.symm, by rw [haget, hchannel]⟩
  · rintro ⟨haget, hchannel⟩
    exact ⟨haget.symm, by rw [haget, hchannel]⟩

/-- How many of `n` items of a chip its channel `c` gets: they are dealt out in turn. -/
def dealt (n c : Nat) : Nat :=
  (n + (channelCount - 1 - c)) / channelCount

theorem dealt_zero {c : Nat} (hc : c < channelCount) : dealt 0 c = 0 := by
  have hc : c < 68 := hc
  show (0 + (68 - 1 - c)) / 68 = 0
  omega

theorem dealt_succ {n c : Nat} (hc : c < channelCount) :
    dealt (n + 1) c = dealt n c + if c = n % channelCount then 1 else 0 := by
  have hc : c < 68 := hc
  show (n + 1 + (68 - 1 - c)) / 68 = (n + (68 - 1 - c)) / 68 + if c = n % 68 then 1 else 0
  split <;> omega

theorem dealt_of_turn {n c : Nat} (hturn : c = n % channelCount) : dealt n c = n / channelCount := by
  have hturn : c = n % 68 := hturn
  show (n + (68 - 1 - c)) / 68 = n / 68
  omega

theorem length_samplesFor_fullReadout (items : List Item) (key : Key) :
    (samplesFor .fullReadout items key).length = dealt (chipItems key.aget items) key.channel := by
  have hchannel := key.channel.isLt
  induction items using List.reverseRecOn with
  | nil => exact (dealt_zero hchannel).symm
  | append_singleton items item ih =>
    rw [samplesFor_fullReadout_concat, List.length_append, ih, chipItems_concat]
    simp only [key?_ofTurn_eq_some_iff]
    by_cases haget : (FullItem.ofItem item).aget = key.aget
    · rw [if_pos haget, dealt_succ hchannel]
      by_cases hturn : key.channel.val = chipItems key.aget items % channelCount
      · rw [if_pos ⟨haget, hturn⟩, if_pos hturn, List.length_singleton]
      · rw [if_neg fun h => hturn h.2, if_neg hturn, List.length_nil]
    · rw [if_neg fun h => haget h.1, if_neg haget, List.length_nil, Nat.add_zero, Nat.add_zero]

/-- A sample in a channel that held samples before: its bucket counts on from them. -/
def countedOn (held : Nat) (s : Sample) : Sample :=
  ⟨held.toUInt32 + s.bucket, s.value⟩

@[simp] theorem countedOn_zero : countedOn 0 = id := by
  funext s
  simp [countedOn]

/-- Where the decoding of a full readout stands after `items`: the next turn of each chip follows from
the number of its items, and the channels have got their samples. -/
structure FullDecoded (channels : Accumulator) (items : List Item) (state : Turns × Accumulator) :
    Prop where
  turns : ∀ aget : Fin chipCount, state.1[aget].val = chipItems aget items % channelCount
  samples : ∀ key, state.2.samples key =
    channels.samples key ++
      (samplesFor .fullReadout items key).map (countedOn (channels.count key))

theorem fullDecoded_start (channels : Accumulator) :
    FullDecoded channels [] (Turns.start, channels) where
  turns aget := by simp [Turns.start, chipItems]
  samples key := by simp

theorem FullDecoded.count_eq {channels : Accumulator} {items : List Item}
    {state : Turns × Accumulator} (h : FullDecoded channels items state) {key : Key}
    (hturn : key.channel.val = chipItems key.aget items % channelCount) :
    state.2.count key = channels.count key + chipItems key.aget items / channelCount := by
  rw [Accumulator.count_eq_length, h.samples, List.length_append, List.length_map,
    length_samplesFor_fullReadout, dealt_of_turn hturn, Accumulator.count_eq_length]

theorem FullDecoded.key_eq_iff {channels : Accumulator} {items : List Item}
    {state : Turns × Accumulator} (h : FullDecoded channels items state) {item : Item} {key : Key}
    {aget : Fin chipCount} (haget : (FullItem.ofItem item).aget = aget) :
    (⟨aget, state.1[aget]⟩ : Key) = key ↔ (PartialItem.ofTurn items item).key? = some key := by
  subst haget
  have hturn := h.turns (FullItem.ofItem item).aget
  rw [key?_ofTurn_eq_some_iff]
  constructor
  · rintro rfl
    exact ⟨rfl, hturn⟩
  · rintro ⟨haget, hchannel⟩
    obtain ⟨aget, channel⟩ := key
    subst haget
    congr 1
    exact Fin.ext (hturn.trans hchannel.symm)

/-- One step: the item goes where its turn says, and the turn of its chip moves on. -/
theorem FullDecoded.concat {channels : Accumulator} {items : List Item}
    {state : Turns × Accumulator} (h : FullDecoded channels items state) (item : Item) :
    FullDecoded channels (items ++ [item]) (decodeFullStep state item) := by
  constructor
  · intro aget
    rw [chipItems_concat]
    simp only [decodeFullStep, Fin.getElem_fin, Vector.getElem_set, ← Fin.ext_iff]
    by_cases haget : (FullItem.ofItem item).aget = aget
    · subst haget
      have hnext := h.turns (FullItem.ofItem item).aget
      rw [Fin.getElem_fin] at hnext
      rw [if_pos rfl, if_pos rfl, Fin.val_add, hnext]
      exact Nat.mod_add_mod _ _ _
    · rw [if_neg haget, if_neg haget]
      exact h.turns aget
  · intro key
    rw [samplesFor_fullReadout_concat, List.map_append, ← List.append_assoc, ← h.samples key]
    simp only [decodeFullStep, Accumulator.samples_push, h.key_eq_iff rfl]
    by_cases hkey : (PartialItem.ofTurn items item).key? = some key
    · have hturn := key?_ofTurn_eq_some_iff.mp hkey
      rw [if_pos hkey, if_pos hkey, (h.key_eq_iff rfl).mpr hkey, h.count_eq hturn.2, List.map_singleton]
      simp [countedOn, PartialItem.ofTurn, hturn.1, Nat.toUInt32]
    · rw [if_neg hkey, if_neg hkey, List.map_nil]

theorem fullDecoded_foldl (channels : Accumulator) (items : List Item) :
    FullDecoded channels items (items.foldl decodeFullStep (Turns.start, channels)) := by
  induction items using List.reverseRecOn with
  | nil => exact fullDecoded_start channels
  | append_singleton items item ih =>
    rw [List.foldl_append]
    exact ih.concat item

theorem samples_decodeFull (items : List Item) (channels : Accumulator) (key : Key) :
    (decodeFull items channels).samples key =
      channels.samples key ++
        (samplesFor .fullReadout items key).map (countedOn (channels.count key)) :=
  (fullDecoded_foldl channels items).samples key

/-! ### Chip by chip -/

theorem filter_contents_fullReadout (aget : Fin chipCount) (items : List Item) :
    (contents .fullReadout items).filter (fun p => p.aget = aget.val) =
      (items.filter fun i => (FullItem.ofItem i).aget = aget).mapIdx fun turn item =>
        ⟨aget, turn % channelCount,
          ⟨(turn / channelCount).toUInt32, (FullItem.ofItem item).value⟩⟩ := by
  induction items using List.reverseRecOn with
  | nil => rfl
  | append_singleton items item ih =>
    rw [contents_fullReadout_concat, List.filter_append, ih, List.filter_append]
    by_cases haget : (FullItem.ofItem item).aget = aget
    · subst haget
      simp [PartialItem.ofTurn, chipItems, List.countP_eq_length_filter]
    · have hne : ¬ (PartialItem.ofTurn items item).aget = aget.val := fun h => haget (Fin.ext h)
      simp [haget, hne]

theorem samplesFor_fullReadout_congr {items items' : List Item} {key : Key}
    (h : (items.filter fun i => (FullItem.ofItem i).aget = key.aget) =
      items'.filter fun i => (FullItem.ofItem i).aget = key.aget) :
    samplesFor .fullReadout items key = samplesFor .fullReadout items' key := by
  have hchip : ∀ items, (contents .fullReadout items).filter (fun p => p.key? = some key) =
      ((contents .fullReadout items).filter fun p => p.aget = key.aget.val).filter fun p =>
        p.key? = some key := by
    intro items
    rw [List.filter_filter]
    refine List.filter_congr fun p _ => ?_
    rw [Bool.eq_iff_iff, Bool.and_eq_true, decide_eq_true_eq, decide_eq_true_eq, PartialItem.key?,
      Key.ofPair?_eq_some_iff]
    exact ⟨fun hp => ⟨hp, hp.1.symm⟩, fun hp => hp.1⟩
  rw [samplesFor, samplesFor, hchip, hchip items', filter_contents_fullReadout,
    filter_contents_fullReadout, h]

end PulseHits.Readout
