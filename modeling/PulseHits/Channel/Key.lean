/-!
# Channel keys

One AsAd board carries four AGET chips of 68 channels each. A key names one of the 272 channels;
its index counts the channels chip by chip.
-/

namespace PulseHits.Channel

/-- AGET chips on a board. -/
abbrev chipCount : Nat := 4

/-- Channels on a chip. -/
abbrev channelCount : Nat := 68

/-- Channels on a board. -/
abbrev keyCount : Nat := chipCount * channelCount

structure Key where
  aget : Fin chipCount
  channel : Fin channelCount
  deriving DecidableEq, Repr

namespace Key

/-- The key of a chip and channel number, if there are such a chip and channel. -/
def ofPair? (aget channel : Nat) : Option Key :=
  if h : aget < chipCount ∧ channel < channelCount then some ⟨⟨aget, h.1⟩, ⟨channel, h.2⟩⟩ else none

/-- The place of the channel among all channels of the board. -/
def index (k : Key) : Fin keyCount :=
  ⟨k.aget * channelCount + k.channel, by
    have := k.aget.isLt
    have := k.channel.isLt
    simp only [keyCount, chipCount, channelCount] at *
    omega⟩

/-- The channel at a place. -/
def ofIndex (i : Fin keyCount) : Key :=
  ⟨⟨i / channelCount, by
      have := i.isLt
      simp only [keyCount, chipCount, channelCount] at *
      omega⟩,
    ⟨i % channelCount, Nat.mod_lt _ (by simp [channelCount])⟩⟩

@[simp] theorem index_ofIndex (i : Fin keyCount) : (ofIndex i).index = i := by
  apply Fin.ext
  simp only [index, ofIndex, channelCount]
  omega

@[simp] theorem ofIndex_index (k : Key) : ofIndex k.index = k := by
  obtain ⟨⟨a, ha⟩, ⟨c, hc⟩⟩ := k
  have hc' : c < 68 := hc
  simp only [index, ofIndex, Key.mk.injEq, Fin.mk.injEq]
  show (a * 68 + c) / 68 = a ∧ (a * 68 + c) % 68 = c
  omega

/-- All keys, in the order of their indices. -/
def all : List Key :=
  (List.finRange keyCount).map ofIndex

theorem mem_all (k : Key) : k ∈ all :=
  List.mem_map.mpr ⟨k.index, List.mem_finRange _, ofIndex_index k⟩

theorem length_all : all.length = keyCount := by
  rw [all, List.length_map, List.length_finRange]

theorem pairwise_all : all.Pairwise fun k k' => k.index < k'.index := by
  rw [all, List.pairwise_map]
  simpa using List.pairwise_lt_finRange keyCount

theorem ofPair?_eq_some_iff {aget channel : Nat} {k : Key} :
    ofPair? aget channel = some k ↔ k.aget.val = aget ∧ k.channel.val = channel := by
  obtain ⟨⟨a, ha⟩, ⟨c, hc⟩⟩ := k
  simp only [ofPair?]
  split
  · simp only [Option.some.injEq, mk.injEq, Fin.mk.injEq]
    exact and_congr eq_comm eq_comm
  · next hout =>
    refine ⟨nofun, fun h => absurd ?_ hout⟩
    exact ⟨h.1 ▸ ha, h.2 ▸ hc⟩

end Key

end PulseHits.Channel
