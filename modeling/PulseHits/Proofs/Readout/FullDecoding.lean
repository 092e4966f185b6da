import PulseHits.Proofs.Frame.View
import PulseHits.Proofs.Readout.Attribution
import PulseHits.Proofs.Readout.Words
import PulseHits.Proofs.Share

/-!
# What a full readout decodes to

The channels of a chip take turns at its items, so a channel gets its share of the values of the chip
(`samplesFor_fullReadout_eq`), in buckets that count on from the samples it holds. No item is lost on
the way (`total_decodeFull`), and counters that are plain numbers would lose none either
(`foldl_plainStep`). Channels that are empty at first are filled evenly (`count_decodeFull_empty`). The
decoding stops at no item, so all this holds of every frame (`decodeFull_closedForm`).
-/

namespace PulseHits

open Channel (Accumulator Key Sample channelCount chipCount)

/-! ## The samples of all channels -/

namespace Channel.Accumulator

/-- The number of samples in all channels together. -/
def total (a : Accumulator) : Nat :=
  (Key.all.map a.count).sum

theorem count_empty (k : Key) : empty.count k = 0 := by
  rw [count_eq_length, samples_empty, List.length_nil]

theorem count_push (a : Accumulator) (k k' : Key) (s : Sample) :
    (a.push k s).count k' = a.count k' + if k' = k then 1 else 0 := by
  rw [count_eq_length, samples_push, List.length_append, count_eq_length]
  by_cases h : k = k'
  · rw [if_pos h, if_pos h.symm, List.length_singleton]
  · rw [if_neg h, if_neg (Ne.symm h), List.length_nil]

theorem total_empty : empty.total = 0 := by
  have hcount : empty.count = fun _ => 0 := funext count_empty
  rw [total, hcount, List.map_const', List.sum_replicate_nat, Nat.mul_zero]

theorem total_push (a : Accumulator) (k : Key) (s : Sample) : (a.push k s).total = a.total + 1 := by
  have hnodup : Key.all.Nodup := Key.pairwise_all.imp fun hlt => by
    rintro rfl
    exact absurd hlt (lt_irrefl _)
  have hone : (Key.all.map fun k' => if k' = k then 1 else 0).sum = 1 := by
    rw [List.sum_map_eq_nsmul_single k _ fun k' hne _ => if_neg hne, if_pos rfl,
      List.count_eq_one_of_mem hnodup (Key.mem_all k), one_nsmul]
  have hcount : (a.push k s).count = fun k' => a.count k' + if k' = k then 1 else 0 :=
    funext fun k' => a.count_push k k' s
  rw [total, total, hcount, List.sum_map_add, hone]

end Channel.Accumulator

namespace Readout

/-! ## Chip by chip -/

/-- The values of the items of a chip, in the order of the items. -/
def chipValues (aget : Fin chipCount) (items : List Item) : List UInt16 :=
  (items.filter fun i => i.field 14 2 = aget.val).map fun i => (i.field 0 12).toUInt16

section chipValues
variable {aget : Fin chipCount} {item : Item}

theorem FullItem.aget_ofItem_eq_iff : (ofItem item).aget = aget ↔ item.field 14 2 = aget.val := by
  have hlt : item.field 14 2 < chipCount := item.field_lt 14 2
  rw [Fin.ext_iff, ofItem]
  exact Eq.congr_left (Nat.mod_eq_of_lt hlt)

theorem chipValues_concat (aget : Fin chipCount) (items : List Item) (item : Item) :
    chipValues aget (items ++ [item]) =
      chipValues aget items ++
        if (FullItem.ofItem item).aget = aget then [(FullItem.ofItem item).value] else [] := by
  rw [chipValues, chipValues, List.filter_append, List.map_append]
  simp only [FullItem.aget_ofItem_eq_iff]
  by_cases haget : item.field 14 2 = aget.val
  · rw [if_pos haget, List.filter_singleton, decide_eq_true haget]
    rfl
  · rw [if_neg haget, List.filter_singleton, decide_eq_false haget]
    rfl

theorem length_chipValues (aget : Fin chipCount) (items : List Item) :
    (chipValues aget items).length = chipItems aget items := by
  rw [chipValues, List.length_map, chipItems, List.countP_eq_length_filter]
  simp only [FullItem.aget_ofItem_eq_iff]

end chipValues

theorem samplesFor_fullReadout_eq (items : List Item) (key : Key) :
    samplesFor .fullReadout items key =
      (share channelCount (chipValues key.aget items) key.channel).mapIdx fun round value =>
        ⟨round.toUInt32, value⟩ := by
  induction items using List.reverseRecOn with
  | nil => rfl
  | append_singleton items item ih =>
    rw [samplesFor_fullReadout_concat, ih, chipValues_concat]
    simp only [key?_ofTurn_eq_some_iff]
    by_cases haget : (FullItem.ofItem item).aget = key.aget
    · rw [if_pos haget, share_concat, length_chipValues]
      by_cases hturn : chipItems key.aget items % channelCount = key.channel
      · have hround : (share channelCount (chipValues key.aget items) key.channel).length =
            chipItems key.aget items / channelCount := by
          rw [← length_chipValues] at hturn ⊢
          exact length_share_of_turn key.channel.isLt hturn
        rw [if_pos ⟨haget, hturn.symm⟩, if_pos hturn, List.mapIdx_concat, hround, ← haget]
        rfl
      · rw [if_neg fun h => hturn h.2.symm, if_neg hturn, List.append_nil, List.append_nil]
    · rw [if_neg haget, if_neg fun h => haget h.1, List.append_nil, List.append_nil]

theorem getElem?_samplesFor_fullReadout (items : List Item) (key : Key) (t : Nat) :
    (samplesFor .fullReadout items key)[t]? =
      ((chipValues key.aget items)[68 * t + key.channel]?).map fun value => ⟨t.toUInt32, value⟩ := by
  rw [samplesFor_fullReadout_eq, List.getElem?_mapIdx, getElem?_share key.channel.isLt,
    Nat.mul_comm 68, Nat.add_comm _ key.channel.val]

/-! ## All chips -/

theorem total_foldl_decodeFullStep (items : List Item) (state : Turns × Accumulator) :
    (items.foldl decodeFullStep state).2.total = state.2.total + items.length := by
  induction items generalizing state with
  | nil => rw [List.foldl_nil, List.length_nil, Nat.add_zero]
  | cons item items ih =>
    rw [List.foldl_cons, ih, decodeFullStep, Accumulator.total_push, List.length_cons]
    omega

theorem total_decodeFull (items : List Item) (channels : Accumulator) :
    (decodeFull items channels).total = channels.total + items.length :=
  total_foldl_decodeFullStep items _

theorem count_decodeFull (items : List Item) (channels : Accumulator) (key : Key) :
    (decodeFull items channels).count key =
      channels.count key + dealt (chipItems key.aget items) key.channel := by
  rw [Accumulator.count_eq_length, samples_decodeFull, List.length_append, List.length_map,
    length_samplesFor_fullReadout, Accumulator.count_eq_length]

theorem count_decodeFull_empty (items : List Item) (aget : Fin chipCount)
    {channel channel' : Fin channelCount} (hle : channel ≤ channel') :
    (decodeFull items .empty).count ⟨aget, channel'⟩ ≤
        (decodeFull items .empty).count ⟨aget, channel⟩ ∧
      (decodeFull items .empty).count ⟨aget, channel⟩ ≤
        (decodeFull items .empty).count ⟨aget, channel'⟩ + 1 := by
  have hle : channel.val ≤ channel'.val := hle
  have hlt : channel'.val < 68 := channel'.isLt
  simp only [count_decodeFull, Accumulator.count_empty, dealt, channelCount]
  omega

/-! ## Plain counters -/

/-- One step with counters that are plain numbers: the sample is dropped if no board has the channel
that the counter of its chip has come to. -/
def plainStep (state : (Fin chipCount → Nat) × Accumulator) (item : Item) :
    (Fin chipCount → Nat) × Accumulator :=
  let (counters, channels) := state
  let f := FullItem.ofItem item
  let channel := counters f.aget
  (Function.update counters f.aget ((channel + 1) % channelCount),
    match Key.ofPair? f.aget channel with
    | some key => channels.push key ⟨(channels.count key).toUInt32, f.value⟩
    | none => channels)

/-- The turns as plain numbers. -/
def Turns.counters (turns : Turns) (aget : Fin chipCount) : Nat :=
  turns.get aget

/-- A turn is a channel that boards have, so its sample is kept, and the next turn is one again. -/
theorem plainStep_counters (state : Turns × Accumulator) (item : Item) :
    plainStep (state.1.counters, state.2) item =
      ((decodeFullStep state item).1.counters, (decodeFullStep state item).2) := by
  obtain ⟨turns, channels⟩ := state
  have hkey : Key.ofPair? (FullItem.ofItem item).aget (turns.counters (FullItem.ofItem item).aget) =
      some ⟨(FullItem.ofItem item).aget, turns[(FullItem.ofItem item).aget]⟩ :=
    Key.ofPair?_eq_some_iff.mpr ⟨rfl, rfl⟩
  refine Prod.ext (funext fun aget => ?_) ?_
  · have hcounters : ∀ ts : Turns, ts.counters aget = ts[aget].val := fun _ => rfl
    have hturn : turns.counters (FullItem.ofItem item).aget =
        turns[(FullItem.ofItem item).aget].val := rfl
    simp only [plainStep, decodeFullStep, hcounters, hturn, Function.update_apply, Fin.getElem_fin,
      Vector.getElem_set, Fin.ext_iff, eq_comm]
    split <;> rfl
  · simp only [plainStep, hkey]
    rfl

theorem foldl_plainStep_counters (items : List Item) (state : Turns × Accumulator) :
    items.foldl plainStep (state.1.counters, state.2) =
      ((items.foldl decodeFullStep state).1.counters, (items.foldl decodeFullStep state).2) := by
  induction items generalizing state with
  | nil => rfl
  | cons item items ih => rw [List.foldl_cons, plainStep_counters, ih, List.foldl_cons]

/-- Plain counters never leave the channels of a chip, so no sample is dropped. -/
theorem foldl_plainStep (items : List Item) (channels : Accumulator) :
    let state := items.foldl plainStep (fun _ => 0, channels)
    state.2 = decodeFull items channels ∧
      ∀ aget, state.1 aget = (chipValues aget items).length % channelCount := by
  have hstart : Turns.start.counters = fun _ => 0 := by
    funext aget
    exact congrArg Fin.val (Vector.getElem_replicate aget.isLt)
  have hstate := foldl_plainStep_counters items (Turns.start, channels)
  rw [hstart] at hstate
  intro state
  refine ⟨congrArg Prod.snd hstate, fun aget => ?_⟩
  rw [congrArg Prod.fst hstate, length_chipValues]
  exact (fullDecoded_foldl channels items).turns aget

/-! ## Frames -/

/-- Where the decoding of items has left the channels: each has its share of the values of its chip
behind the samples that it held. -/
structure DealtOut (items : List Item) (channels decoded : Accumulator) : Prop where
  kept : ∀ key, channels.samples key <+: decoded.samples key
  /-- Round `t` of a channel is place `channels.count key + t` in it, bucket and place alike. -/
  dealt : ∀ (key : Key) (t : Nat),
    ((decoded.samples key)[channels.count key + t]?).map (fun s => (s.bucket.toNat, s.value)) =
      ((chipValues key.aget items)[68 * t + key.channel]?).map fun value =>
        (channels.count key + t, value)
  /-- No item is lost. -/
  total_eq : decoded.total = channels.total + items.length

theorem toNat_bucket_countedOn {held t : Nat} (h : held + t < 2 ^ 32) (value : UInt16) :
    (countedOn held ⟨t.toUInt32, value⟩).bucket.toNat = held + t := by
  have hheld : held.toUInt32.toNat = held := Nat.mod_eq_of_lt (by omega)
  have ht : t.toUInt32.toNat = t := Nat.mod_eq_of_lt (by omega)
  rw [countedOn, UInt32.toNat_add, hheld, ht]
  exact Nat.mod_eq_of_lt h

theorem dealtOut_decodeFull {items : List Item} {channels : Accumulator}
    (hlength : ∀ key, (decodeFull items channels).count key < 2 ^ 32) :
    DealtOut items channels (decodeFull items channels) where
  kept key := by
    rw [samples_decodeFull]
    exact List.prefix_append _ _
  dealt key t := by
    have hcount : channels.count key = (channels.samples key).length := channels.count_eq_length key
    have hget := getElem?_samplesFor_fullReadout items key t
    rw [samples_decodeFull, List.getElem?_append_right (by omega), ← hcount, Nat.add_sub_cancel_left,
      List.getElem?_map, hget]
    cases hvalue : (chipValues key.aget items)[68 * t + key.channel]? with
    | none => rfl
    | some value =>
      rw [hvalue] at hget
      have ht : t < (samplesFor .fullReadout items key).length :=
        (List.getElem?_eq_some_iff.mp hget).1
      have hlt : channels.count key + t < 2 ^ 32 := by
        have hall := hlength key
        rw [Accumulator.count_eq_length, samples_decodeFull, List.length_append, List.length_map,
          ← hcount] at hall
        omega
      have hbucket : (countedOn (channels.count key) ⟨t.toUInt32, value⟩).bucket.toNat =
          channels.count key + t := toNat_bucket_countedOn hlt value
      exact congrArg (fun bucket => some (bucket, value)) hbucket
  total_eq := total_decodeFull items channels

/-- **What a full readout decodes to.** Whatever the channels hold, as long as the samples of each can
be counted in 32 bits: behind the samples that channel `c` of a chip holds come those of the values of
the chip that stand at `c`, `68 + c` and so on, in buckets that count on, and no item is lost. Plain
counters decode the same: after any number of items each is what the items of its chip leave over 68.
Channels of a chip that are empty at first get as many samples as the ones behind them, or one more. -/
theorem decodeFull_closedForm (v : View) (channels : Accumulator)
    (hlength : ∀ key, (decodeFull v.items channels).count key < 2 ^ 32) :
    DealtOut v.items channels (decodeFull v.items channels) ∧
      (∀ n : Nat, let items := v.items.take n
        let state := items.foldl plainStep (fun _ => 0, channels)
        state.2 = decodeFull items channels ∧
          ∀ aget, state.1 aget = (chipValues aget items).length % 68) ∧
      ∀ (aget : Fin chipCount) (channel channel' : Fin channelCount), channel ≤ channel' →
        let count := fun c => (decodeFull v.items .empty).count ⟨aget, c⟩
        count channel' ≤ count channel ∧ count channel ≤ count channel' + 1 := by
  exact ⟨dealtOut_decodeFull hlength, fun n => foldl_plainStep (v.items.take n) channels,
    fun aget channel channel' hle => count_decodeFull_empty v.items aget hle⟩

/-- One round of the last chip and one item more, and an item of one byte, in which chip and value read
as zero. -/
def roundAndShortItem : List Item :=
  (List.range 69).map (fun i => Item.mk (.ofNatBE fullItemSize (3 <<< 14 + i))) ++ [⟨[0xFF]⟩]

theorem decodeFull_roundAndShortItem :
    let v := View.ofItems 2 0 0 roundAndShortItem
    let channels := Accumulator.empty.push ⟨3, 0⟩ ⟨9, 7⟩
    let decoded := decodeFull v.items channels
    (∀ key, decoded.count key < 2 ^ 32) ∧
      ((decoded.samples ⟨3, 0⟩)[2]?).map (fun s => (s.bucket.toNat, s.value)) = some (2, 68) ∧
      ((decoded.samples ⟨0, 0⟩)[0]?).map (fun s => (s.bucket.toNat, s.value)) = some (0, 0) ∧
      decoded.total = 71 := by
  intro v channels decoded
  have hitems : v.items = roundAndShortItem := View.items_ofItems ..
  have hlength : ∀ key, decoded.count key < 2 ^ 32 := by
    intro key
    have hheld : channels.count key ≤ 1 := by
      rw [Accumulator.count_push, Accumulator.count_empty]
      split <;> decide
    have hchip : chipItems key.aget v.items ≤ 70 := by
      rw [hitems]
      exact List.countP_le_length
    rw [count_decodeFull]
    simp only [dealt, channelCount]
    omega
  obtain ⟨⟨-, hdealt, htotal⟩, -, -⟩ := decodeFull_closedForm v channels hlength
  have hlast := hdealt ⟨3, 0⟩ 1
  have hshort := hdealt ⟨0, 0⟩ 0
  have hone : channels.count ⟨3, 0⟩ = 1 := by decide +kernel
  have hnone : channels.count ⟨0, 0⟩ = 0 := by decide +kernel
  rw [hitems, hone] at hlast
  rw [hitems, hnone] at hshort
  refine ⟨hlength, hlast.trans (by decide +kernel), hshort.trans (by decide +kernel), ?_⟩
  rw [htotal, hitems, Accumulator.total_push, Accumulator.total_empty]
  rfl

end Readout

end PulseHits
