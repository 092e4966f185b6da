import PulseHits.Proofs.Hit.Reading

/-!
# Hit blocks in both directions

A block is read back before any rest, and bytes that are read as a block start with the bytes that its
hits write. What decoding any bytes can come to is said once (`blockDecoding_decodeBlock`): no count,
fewer bytes than the declared hits take up, or their block. The rest is read off from it
(`decodeBlock_exact`).
-/

namespace PulseHits.Hit

/-! ## The declared hits -/

/-- The number of hits that the first four bytes declare. -/
def declaredHits (b : Bytes) : Nat :=
  Bytes.toNatLE (b.take 4)

theorem declaredSize_eq (b : Bytes) :
    countSize + b.fieldLE 0 countSize * recordSize = 4 + 40 * declaredHits b := by
  rw [Nat.mul_comm]
  rfl

theorem declaredHits_lt (b : Bytes) : declaredHits b < 2 ^ 32 :=
  b.fieldLE_lt 0 countSize

section encodeBlock
variable {hits : List Hit} (h : hits.length < 2 ^ 32) (rest : Bytes)
include h

theorem declaredHits_encodeBlock_append : declaredHits (encodeBlock hits ++ rest) = hits.length :=
  fieldLE_encodeBlock_append h rest

theorem declaredSize_encodeBlock_append :
    4 + 40 * declaredHits (encodeBlock hits ++ rest) = (encodeBlock hits).length := by
  rw [declaredHits_encodeBlock_append h, length_encodeBlock, Nat.mul_comm]
  rfl

end encodeBlock

/-! ## Decoding any bytes -/

/-- What decoding can come to: the bytes and what they give. -/
inductive BlockDecoding : Bytes → Except BlockError (List Hit) → Prop where
  /-- There are too few bytes for the number of hits. -/
  | noCount {b : Bytes} (h : b.length < 4) : BlockDecoding b (.error (.io .endsInField))
  /-- There are fewer bytes than the declared hits take up. -/
  | tooShort {b : Bytes} (hcount : 4 ≤ b.length) (h : b.length < 4 + 40 * declaredHits b) :
    BlockDecoding b (.error (.truncated (declaredHits b).toUInt32 b.length))
  | block {hits : List Hit} (h : hits.length < 2 ^ 32) (rest : Bytes) :
    BlockDecoding (encodeBlock hits ++ rest) (.ok hits)

section decodeBlock
variable {b : Bytes}

/-- Bytes that are long enough for the hits that they declare start with the block of these hits. -/
theorem exists_eq_encodeBlock_append (h : 4 + 40 * declaredHits b ≤ b.length) :
    ∃ hits rest, b = encodeBlock hits ++ rest ∧ hits.length < 2 ^ 32 := by
  rw [← declaredSize_eq] at h
  obtain ⟨hits, -, hlength, hbytes⟩ := exists_decodeBlock_eq_ok h
  refine ⟨hits, b.drop (countSize + b.fieldLE 0 countSize * recordSize), ?_, ?_⟩
  · rw [hbytes, List.take_append_drop]
  · rw [hlength]
    exact declaredHits_lt b

theorem blockDecoding_decodeBlock (b : Bytes) : BlockDecoding b (decodeBlock b) := by
  by_cases hcount : b.length < countSize
  · rw [decodeBlock, if_pos hcount]
    exact .noCount hcount
  by_cases henough : 4 + 40 * declaredHits b ≤ b.length
  · obtain ⟨hits, rest, rfl, hlength⟩ := exists_eq_encodeBlock_append henough
    rw [decodeBlock_encodeBlock_append hlength]
    exact .block hlength rest
  · have hbody : (b.drop countSize).length < b.fieldLE 0 countSize * recordSize := by
      rw [← declaredSize_eq] at henough
      rw [List.length_drop]
      omega
    rw [decodeBlock, if_neg hcount]
    simp only
    rw [if_pos hbody]
    exact .tooShort (Nat.not_lt.mp hcount) (Nat.not_le.mp henough)

theorem decodeBlock_eq_io_iff {cause : IoError} :
    decodeBlock b = .error (.io cause) ↔ b.length < 4 ∧ cause = .endsInField := by
  have hdecoding := blockDecoding_decodeBlock b
  constructor
  · intro h
    rw [h] at hdecoding
    cases hdecoding with
    | noCount hcount => exact ⟨hcount, rfl⟩
  · rintro ⟨hcount, rfl⟩
    exact if_pos hcount

theorem decodeBlock_eq_truncated_iff {declared : UInt32} {held : Nat} :
    decodeBlock b = .error (.truncated declared held) ↔
      4 ≤ b.length ∧ b.length < 4 + 40 * declaredHits b ∧ declared.toNat = declaredHits b ∧
        held = b.length := by
  have hdecoding := blockDecoding_decodeBlock b
  have hdeclared : (declaredHits b).toUInt32.toNat = declaredHits b :=
    Nat.mod_eq_of_lt (declaredHits_lt b)
  constructor
  · intro h
    rw [h] at hdecoding
    cases hdecoding with
    | tooShort hcount hshort => exact ⟨hcount, hshort, hdeclared, rfl⟩
  · rintro ⟨hcount, hshort, hn, rfl⟩
    have heq : declared = (declaredHits b).toUInt32 :=
      UInt32.toNat_inj.mp (hn.trans hdeclared.symm)
    generalize hresult : decodeBlock b = result at hdecoding
    cases hdecoding with
    | noCount h => omega
    | tooShort => rw [heq]
    | block h rest =>
      rw [declaredSize_encodeBlock_append h, List.length_append] at hshort
      omega

theorem exists_decodeBlock_of_le (h : 4 + 40 * declaredHits b ≤ b.length) :
    ∃ hits, decodeBlock b = .ok hits ∧ readMany (declaredHits b) (b.drop 4) = .ok hits ∧
      hits.length = declaredHits b ∧ encodeBlock hits = b.take (4 + 40 * declaredHits b) := by
  obtain ⟨hits, rest, rfl, hlength⟩ := exists_eq_encodeBlock_append h
  refine ⟨hits, decodeBlock_encodeBlock_append hlength rest, ?_, ?_, ?_⟩
  · have hdrop : (encodeBlock hits ++ rest).drop 4 = hits.flatMap toBytes ++ rest := by
      rw [encodeBlock, List.append_assoc]
      exact List.drop_left' (by simp [countBytes, countSize])
    rw [declaredHits_encodeBlock_append hlength, hdrop, readMany_flatMap_toBytes_append]
  · exact (declaredHits_encodeBlock_append hlength rest).symm
  · rw [declaredSize_encodeBlock_append hlength, List.take_left]

end decodeBlock

/-! ## The codec -/

theorem flatten_blockPieces (hits : List Hit) : (blockPieces hits).flatten = encodeBlock hits := by
  rw [blockPieces, List.flatten_cons, encodeBlock, List.flatMap_def]

/-- **Hit blocks in both directions.** A block is read back before any rest, and a stream is given its
bytes. Of any bytes, fewer than four are no count; else, with the count that they declare, fewer than
the hits take up are reported with that count and their length, and enough of them give so many hits,
the block of which is just what they were read off. No read on the way fails, and the size that is
asked for can be counted in 64 bits. -/
theorem decodeBlock_exact :
    (∀ hits : List Hit, hits.length < 2 ^ 32 → ∀ rest : Bytes,
        decodeBlock (encodeBlock hits ++ rest) = .ok hits) ∧
      (∀ (hits : List Hit) (m : Medium), m.capacity? = none →
        m.appendAll (blockPieces hits) = ({ m with stored := m.stored ++ encodeBlock hits }, true)) ∧
      ∀ b : Bytes, let n := declaredHits b
        (∀ cause, decodeBlock b = .error (.io cause) ↔ b.length < 4 ∧ cause = .endsInField) ∧
          (∀ declared held, decodeBlock b = .error (.truncated declared held) ↔
            4 ≤ b.length ∧ b.length < 4 + 40 * n ∧ declared.toNat = n ∧ held = b.length) ∧
          (4 + 40 * n ≤ b.length → ∃ hits, decodeBlock b = .ok hits ∧
            readMany n (b.drop 4) = .ok hits ∧ hits.length = n ∧
            encodeBlock hits = b.take (4 + 40 * n)) ∧
          40 * n < 2 ^ 64 := by
  refine ⟨fun hits h rest => decodeBlock_encodeBlock_append h rest, ?_, ?_⟩
  · intro hits m hm
    rw [Medium.appendAll_unbounded hm, flatten_blockPieces, hm]
  · intro b n
    have hlt : n < 2 ^ 32 := declaredHits_lt b
    exact ⟨fun cause => decodeBlock_eq_io_iff, fun declared held => decodeBlock_eq_truncated_iff,
      exists_decodeBlock_of_le, by omega⟩

/-- The time of the second hit is no number. -/
def hitWithoutTime : List Hit :=
  [⟨1, 2, 3, 67, ⟨0x4029000000000000⟩, ⟨0x4090010000000000⟩, ⟨0x40b3880000000000⟩⟩,
    ⟨1, 2, 0, 0, ⟨0x7ff8000000000000⟩, ⟨0⟩, ⟨0⟩⟩]

/-- A block read back before three more bytes, cut in its second hit, and cut in its count. -/
theorem decodeBlock_hitWithoutTime :
    decodeBlock (encodeBlock hitWithoutTime ++ [1, 2, 3]) = .ok hitWithoutTime ∧
      decodeBlock ((encodeBlock hitWithoutTime).take 47) = .error (.truncated 2 47) ∧
      decodeBlock [1, 0] = .error (.io .endsInField) := by
  obtain ⟨hback, -, hany⟩ := decodeBlock_exact
  refine ⟨hback _ (by decide) _, ?_, ?_⟩
  · exact ((hany _).2.1 2 47).mpr (by decide +kernel)
  · exact ((hany _).1 _).mpr (by decide)

end PulseHits.Hit
