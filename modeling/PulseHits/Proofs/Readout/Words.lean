import PulseHits.Proofs.Bits.Load
import PulseHits.Readout.Encode

/-!
# Words read back

What a partial readout item is written from is read back from it, as long as every number fits its
field.
-/

namespace PulseHits.Readout

/-- The item of a partial readout with these contents. -/
def PartialItem.toItem (p : PartialItem) : Item :=
  ⟨p.encode⟩

/-- Every number fits its field. -/
structure PartialItem.Fits (p : PartialItem) : Prop where
  aget_lt : p.aget < 4
  channel_lt : p.channel < 128
  bucket_lt : p.sample.bucket.toNat < 512
  value_lt : p.sample.value.toNat < 4096

namespace PartialItem

@[simp] theorem size_toItem (p : PartialItem) : p.toItem.size = partialItemSize :=
  Bytes.length_ofNatBE partialItemSize p.word

theorem field_word (n : Nat) {offset width : Nat} (hpos : 0 < width)
    (hinside : offset + width ≤ 32) :
    (Item.mk (.ofNatBE partialItemSize n)).field offset width = n / 2 ^ offset % 2 ^ width :=
  Item.field_ofNatBE n hpos (by simp only [Bits.maxWidth]; omega) hinside

theorem ofItem_ofNatBE {p : PartialItem} (h : p.Fits) {unused : Nat} (hunused : unused < 4) :
    ofItem ⟨.ofNatBE partialItemSize (p.word + unused <<< 12)⟩ = p := by
  obtain ⟨aget, channel, bucket, value⟩ := p
  obtain ⟨haget, hchannel, hbucket, hvalue⟩ := h
  simp only at haget hchannel hbucket hvalue
  obtain ⟨n, hn⟩ : ∃ n, n = word ⟨aget, channel, bucket, value⟩ + unused <<< 12 := ⟨_, rfl⟩
  have hword : n = aget * 2 ^ 30 + channel * 2 ^ 23 + bucket.toNat * 2 ^ 14 + value.toNat +
      unused * 2 ^ 12 := by
    simp only [hn, word, Nat.shiftLeft_eq]
  have haget' : n / 2 ^ 30 % 2 ^ 2 = aget := by omega
  have hchannel' : n / 2 ^ 23 % 2 ^ 7 = channel := by omega
  have hbucket' : n / 2 ^ 14 % 2 ^ 9 = bucket.toNat := by omega
  have hvalue' : n / 2 ^ 0 % 2 ^ 12 = value.toNat := by omega
  rw [← hn]
  simp only [ofItem, field_word n (show 0 < 2 by decide) (show 30 + 2 ≤ 32 by decide),
    field_word n (show 0 < 7 by decide) (show 23 + 7 ≤ 32 by decide),
    field_word n (show 0 < 9 by decide) (show 14 + 9 ≤ 32 by decide),
    field_word n (show 0 < 12 by decide) (show 0 + 12 ≤ 32 by decide), haget', hchannel', hbucket',
    hvalue']
  congr 2
  · exact UInt32.ofNat_toNat
  · exact UInt16.ofNat_toNat

theorem ofItem_toItem {p : PartialItem} (h : p.Fits) : ofItem p.toItem = p := by
  have hread := ofItem_ofNatBE h (show 0 < 4 by decide)
  rw [Nat.zero_shiftLeft, Nat.add_zero] at hread
  exact hread

theorem ofItem_congr {n n' : Nat}
    (h : ∀ i, i ≠ 12 → i ≠ 13 → n.testBit i = n'.testBit i) :
    ofItem ⟨.ofNatBE partialItemSize n⟩ = ofItem ⟨.ofNatBE partialItemSize n'⟩ := by
  have hfield : ∀ {offset width : Nat}, 0 < width → offset + width ≤ 32 →
      offset + width ≤ 12 ∨ 14 ≤ offset →
      (Item.mk (.ofNatBE partialItemSize n)).field offset width =
        (Item.mk (.ofNatBE partialItemSize n')).field offset width := by
    intro offset width hpos hinside hused
    rw [field_word n hpos hinside, field_word n' hpos hinside]
    refine Nat.eq_of_testBit_eq fun i => ?_
    rw [Nat.testBit_mod_two_pow, Nat.testBit_mod_two_pow, Nat.testBit_div_two_pow,
      Nat.testBit_div_two_pow]
    by_cases hi : i < width
    · rw [h (i + offset) (by omega) (by omega)]
    · simp [hi]
  simp only [ofItem, hfield (show 0 < 2 by decide) (show 30 + 2 ≤ 32 by decide) (by decide),
    hfield (show 0 < 7 by decide) (show 23 + 7 ≤ 32 by decide) (by decide),
    hfield (show 0 < 9 by decide) (show 14 + 9 ≤ 32 by decide) (by decide),
    hfield (show 0 < 12 by decide) (show 0 + 12 ≤ 32 by decide) (by decide)]

end PartialItem

theorem FullItem.value_ofItem_lt (item : Item) : (ofItem item).value.toNat < 4096 := by
  have hfield : item.field 0 12 < 2 ^ 12 := by
    rw [← Nat.one_shiftLeft]
    exact item.field_lt 0 12
  exact Nat.lt_of_le_of_lt (Nat.mod_le _ _) hfield

end PulseHits.Readout
