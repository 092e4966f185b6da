import PulseHits.Proofs.Hit.Record
import PulseHits.Proofs.Repeated

/-!
# Reading hit files

What a reader makes of any bytes at all. A record that is all there is read off exactly the bytes
that writing it gives, whatever its count says, for the block that goes to the decoder is as long as
it declares (`exists_readRecord_eq_ok`); every other read leaves nothing of the stream
(`recordStep_readRecord`). So the reads of a stream give its records, at most one error, and then the
end forever (`repeated_readRecord`), and those of a file that a writer has left give what was written
(`readRecord_bytes_writeAll`).
-/

namespace PulseHits.Hit

/-! ## Decoded bytes written back -/

theorem toBytes_ofBytes {b : Bytes} (h : b.length = recordSize) : (ofBytes b).toBytes = b := by
  have hlength : b.length = 40 := h
  have hall := Bytes.slice_zero_length b
  rw [hlength] at hall
  -- each number gives its slice again, and the slices follow each other
  simp (disch := omega) only [toBytes, ofBytes, Bytes.ofNatLE_toUInt32_fieldLE,
    Bytes.ofNatLE_toUInt64_fieldLE, Bytes.slice_append_slice, hall]

theorem exists_readMany_eq_ok {count : Nat} {b : Bytes} (h : count * recordSize ≤ b.length) :
    ∃ hits, readMany count b = .ok hits ∧ hits.length = count ∧
      hits.flatMap toBytes = b.take (count * recordSize) := by
  induction count generalizing b with
  | zero => exact ⟨[], rfl, rfl, by simp⟩
  | succ count ih =>
    rw [Nat.succ_mul] at h
    obtain ⟨hits, hread, hlength, hbytes⟩ := ih (b := b.drop recordSize) (by
      rw [List.length_drop]
      omega)
    have hfirst : (b.take recordSize).length = recordSize := by
      rw [List.length_take]
      omega
    refine ⟨ofBytes (b.take recordSize) :: hits, ?_, ?_, ?_⟩
    · rw [readMany, read, if_neg (by omega)]
      show (readMany count (b.drop recordSize) >>= fun hs => pure (_ :: hs)) = _
      rw [hread]
      rfl
    · rw [List.length_cons, hlength]
    · rw [List.flatMap_cons, toBytes_ofBytes hfirst, hbytes, Nat.succ_mul, Nat.add_comm,
        List.take_add]

theorem exists_decodeBlock_eq_ok {b : Bytes}
    (h : countSize + b.fieldLE 0 countSize * recordSize ≤ b.length) :
    ∃ hits, decodeBlock b = .ok hits ∧ hits.length = b.fieldLE 0 countSize ∧
      encodeBlock hits = b.take (countSize + b.fieldLE 0 countSize * recordSize) := by
  have hbody : b.fieldLE 0 countSize * recordSize ≤ (b.drop countSize).length := by
    rw [List.length_drop]
    omega
  obtain ⟨hits, hread, hlength, hbytes⟩ := exists_readMany_eq_ok hbody
  refine ⟨hits, ?_, hlength, ?_⟩
  · rw [decodeBlock, if_neg (by omega)]
    simp only
    rw [if_neg (by omega), hread]
    rfl
  · rw [encodeBlock, countBytes, hlength, hbytes, Bytes.ofNatLE_fieldLE (by omega), List.take_add]
    rfl

theorem exists_decodeBlock_ofNatLE_append {count : Nat} (hcount : count < 256 ^ countSize)
    {records : Bytes} (hrecords : records.length = count * recordSize) :
    ∃ hits, decodeBlock (Bytes.ofNatLE countSize count ++ records) = .ok hits ∧
      hits.length = count ∧ encodeBlock hits = Bytes.ofNatLE countSize count ++ records := by
  have hfield : Bytes.fieldLE (Bytes.ofNatLE countSize count ++ records) 0 countSize = count := by
    rw [Bytes.fieldLE_ofNatLE_append, Nat.mod_eq_of_lt hcount]
  have hlength : (Bytes.ofNatLE countSize count ++ records).length =
      countSize + count * recordSize := by
    rw [List.length_append, Bytes.length_ofNatLE, hrecords]
  obtain ⟨hits, hdecode, hhits, hbytes⟩ :=
    exists_decodeBlock_eq_ok (b := Bytes.ofNatLE countSize count ++ records) (by
      rw [hfield, hlength])
  rw [hfield] at hhits hbytes
  exact ⟨hits, hdecode, hhits, hbytes.trans (List.take_of_length_le (Nat.le_of_eq hlength))⟩

/-! ## One read -/

theorem exists_readRecord_eq_ok {stream : Bytes} (hfields : 16 ≤ stream.length)
    (hbody : stream.fieldLE 12 countSize * recordSize ≤ (stream.drop 16).length) :
    ∃ e rest, readRecord stream = (.ok (some e), rest) ∧ e.hits.length < 2 ^ 32 ∧
      stream = e.encode ++ rest := by
  obtain ⟨count, hcount⟩ : ∃ count, count = stream.fieldLE 12 countSize := ⟨_, rfl⟩
  have hlt : count < 256 ^ countSize := hcount ▸ Bytes.fieldLE_lt stream 12 countSize
  rw [← hcount] at hbody
  have htake : ((stream.drop 16).take (count * recordSize)).length = count * recordSize := by
    rw [List.length_take]
    omega
  obtain ⟨hits, hdecode, hlength, hbytes⟩ := exists_decodeBlock_ofNatLE_append hlt htake
  refine ⟨⟨(stream.fieldLE 0 4).toUInt32, (stream.fieldLE 4 8).toUInt64, hits⟩,
    (stream.drop 16).drop (count * recordSize), ?_, hlength ▸ hlt, ?_⟩
  · rw [readRecord, if_neg (by omega), if_neg (by omega)]
    simp only [← hcount]
    rw [if_neg (by omega), hdecode]
  · -- the fields before the hits are slices that follow each other
    have hfront : stream.slice 0 4 ++ stream.slice 4 8 ++ stream.slice 12 countSize =
        stream.take 16 := by
      rw [Bytes.slice_append_slice rfl, Bytes.slice_append_slice rfl]
      rfl
    rw [EventHits.encode_eq]
    simp only [hbytes]
    rw [hcount, Bytes.ofNatLE_toUInt32_fieldLE (by omega),
      Bytes.ofNatLE_toUInt64_fieldLE (by omega), Bytes.ofNatLE_fieldLE (by rw [countSize]; omega),
      ← List.append_assoc, hfront, List.append_assoc, List.take_append_drop, List.take_append_drop]

/-- What one read can do: the stream, what the read gives and what it leaves. -/
inductive RecordStep : Bytes → Except FileError (Option EventHits) → Bytes → Prop where
  /-- Too few bytes for an event id pass for the end. -/
  | atEnd (stream : Bytes) : RecordStep stream (.ok none) []
  /-- A stream that ends inside a record is used up. -/
  | cutShort (stream : Bytes) (cause : IoError) : RecordStep stream (.error (.io cause)) []
  | record (e : EventHits) (h : e.hits.length < 2 ^ 32) (rest : Bytes) :
    RecordStep (e.encode ++ rest) (.ok (some e)) rest

theorem recordStep_readRecord (stream : Bytes) :
    RecordStep stream (readRecord stream).1 (readRecord stream).2 := by
  by_cases hid : stream.length < 4
  · rw [readRecord, if_pos hid]
    exact .atEnd stream
  by_cases hfields : stream.length < 16
  · rw [readRecord, if_neg hid, if_pos hfields]
    exact .cutShort stream _
  by_cases hbody : (stream.drop 16).length < stream.fieldLE 12 countSize * recordSize
  · rw [readRecord, if_neg hid, if_neg hfields]
    simp only
    rw [if_pos hbody]
    exact .cutShort stream _
  · obtain ⟨e, rest, hread, hlength, hstream⟩ :=
      exists_readRecord_eq_ok (Nat.not_lt.mp hfields) (Nat.not_lt.mp hbody)
    rw [hread, hstream]
    exact .record e hlength rest

theorem exists_io_of_readRecord {stream rest : Bytes} {e : FileError}
    (h : readRecord stream = (.error e, rest)) : ∃ cause, e = .io cause := by
  have hstep := recordStep_readRecord stream
  rw [h] at hstep
  cases hstep with
  | cutShort _ cause => exact ⟨cause, rfl⟩

theorem eq_nil_of_readRecord {stream rest : Bytes} {result : Except FileError (Option EventHits)}
    (h : readRecord stream = (result, rest)) (hresult : ∀ e, result ≠ .ok (some e)) :
    rest = [] := by
  have hstep := recordStep_readRecord stream
  rw [h] at hstep
  cases hstep with
  | atEnd => rfl
  | cutShort => rfl
  | record e => exact absurd rfl (hresult e)

theorem eq_encode_append_of_readRecord {stream rest : Bytes} {e : EventHits}
    (h : readRecord stream = (.ok (some e), rest)) : stream = e.encode ++ rest := by
  have hstep := recordStep_readRecord stream
  rw [h] at hstep
  cases hstep with
  | record => rfl

/-! ## Read after read -/

theorem repeated_readRecord_nil : repeated readRecord [] = Stream'.const (.ok none) :=
  repeated_eq_const rfl

/-- Repeated reads give the records, then what ended them, and then the end forever. -/
theorem repeated_readRecord (stream : Bytes) :
    repeated readRecord stream =
      (readAll stream).1.map (fun e => .ok (some e)) ++ₛ
        ((readAll stream).2.toList.map .error ++ₛ Stream'.const (.ok none)) := by
  induction stream using readAll.induct with
  | case1 stream rest h =>
    rw [readAll_of_end h, repeated_eq_cons, h, eq_nil_of_readRecord h nofun,
      repeated_readRecord_nil]
    exact (Stream'.const_eq _).symm
  | case2 stream e rest h =>
    rw [readAll_of_error h, repeated_eq_cons, h, eq_nil_of_readRecord h nofun,
      repeated_readRecord_nil]
    rfl
  | case3 stream e rest h _ _ _ _ ih =>
    rw [readAll_of_record h, repeated_eq_cons, h, ih]
    rfl

theorem exists_io_of_readAll {stream : Bytes} {e : FileError} (h : (readAll stream).2 = some e) :
    ∃ cause, e = .io cause := by
  induction stream using readAll.induct with
  | case1 stream rest hread =>
    rw [readAll_of_end hread] at h
    cases h
  | case2 stream e' rest hread =>
    rw [readAll_of_error hread] at h
    cases h
    exact exists_io_of_readRecord hread
  | case3 stream e' rest hread _ _ _ _ ih =>
    rw [readAll_of_record hread] at h
    exact ih h

theorem length_readAll_le (stream : Bytes) : 16 * (readAll stream).1.length ≤ stream.length := by
  induction stream using readAll.induct with
  | case1 stream rest h => simp [readAll_of_end h]
  | case2 stream e rest h => simp [readAll_of_error h]
  | case3 stream e rest h _ _ _ _ ih =>
    have hlength : stream.length = e.encode.length + rest.length := by
      rw [eq_encode_append_of_readRecord h, List.length_append]
    rw [e.length_encode] at hlength
    rw [readAll_of_record h, List.length_cons]
    omega

/-- **Reading any stream as a hit file.** Repeated reads give records, at most one for sixteen bytes,
then at most one error, always that the stream breaks off, and then the end forever. A record is read
off as many bytes as its hits take up, and a writer without limit stores these bytes for it. -/
theorem readRecord_anyStream (stream : Bytes) :
    (∃ (records : List EventHits) (error? : Option IoError),
      readAll stream = (records, error?.map .io) ∧
        repeated readRecord stream =
          records.map (fun e => .ok (some e)) ++ₛ
            (error?.toList.map (fun cause => .error (.io cause)) ++ₛ Stream'.const (.ok none)) ∧
        records.length ≤ stream.length / 16) ∧
      ∀ left rest e, readRecord left = (.ok (some e), rest) →
        ∃ taken, left = taken ++ rest ∧ taken.length = 16 + 40 * e.hits.length ∧
          (e.hits ≠ [] → ∀ w : Writer, w.medium.capacity? = none →
            ∃ w', w.write e = (.ok true, w') ∧ w'.bytes = w.bytes ++ taken) := by
  refine ⟨?_, fun left rest e hread => ?_⟩
  · obtain ⟨error?, herror⟩ : ∃ error? : Option IoError,
        (readAll stream).2 = error?.map .io := by
      cases hend : (readAll stream).2 with
      | none => exact ⟨none, rfl⟩
      | some e =>
        obtain ⟨cause, rfl⟩ := exists_io_of_readAll hend
        exact ⟨some cause, rfl⟩
    have hlength := length_readAll_le stream
    refine ⟨(readAll stream).1, error?, Prod.ext rfl herror, ?_, by omega⟩
    rw [repeated_readRecord, herror]
    cases error? with
    | none => rfl
    | some cause => rfl
  · refine ⟨e.encode, eq_encode_append_of_readRecord hread, ?_, fun hne w hw => ?_⟩
    · rw [e.length_encode, recordSize, Nat.mul_comm]
    · exact ⟨_, Writer.write_unbounded hw hne, by simp [Writer.bytes]⟩

/-- An event with one hit. -/
def oneHit : EventHits :=
  ⟨5, 500, [⟨1, 2, 3, 67, ⟨0x4029000000000000⟩, ⟨0x4090010000000000⟩, ⟨0x40b3880000000000⟩⟩]⟩

/-- A record that five more bytes come after is read, and then the break. -/
theorem readRecord_oneHitAndABreak :
    let stream := oneHit.encode ++ [6, 0, 0, 0, 1]
    repeated readRecord stream =
        [.ok (some oneHit), .error (.io .endsInField)] ++ₛ Stream'.const (.ok none) ∧
      ∃ w, (Writer.new .unbounded).write oneHit = (.ok true, w) ∧ w.bytes = stream.take 56 := by
  have hread : readRecord (oneHit.encode ++ [6, 0, 0, 0, 1]) =
      (.ok (some oneHit), [6, 0, 0, 0, 1]) := readRecord_encode_append (by decide) _
  have hrest : readAll [6, 0, 0, 0, 1] = ([], some (.io .endsInField)) := readAll_of_error rfl
  obtain ⟨⟨records, error?, hall, hrepeated, -⟩, hrecord⟩ :=
    readRecord_anyStream (oneHit.encode ++ [6, 0, 0, 0, 1])
  rw [readAll_of_record hread, hrest] at hall
  obtain ⟨rfl, herror⟩ := Prod.mk.inj hall
  obtain ⟨cause, rfl, hcause⟩ := Option.map_eq_some_iff.mp herror.symm
  obtain rfl : cause = .endsInField := FileError.io.inj hcause
  obtain ⟨taken, hstream, htaken, hwrite⟩ := hrecord _ _ _ hread
  obtain ⟨w, hw, hbytes⟩ := hwrite (by decide) (.new .unbounded) rfl
  refine ⟨hrepeated, w, hw, hbytes.trans ?_⟩
  rw [hstream]
  exact (List.take_left' htaken).symm

/-! ## A written file read back -/

namespace Writer

theorem write_fst_unbounded {w : Writer} (hw : w.medium.capacity? = none) (e : EventHits) :
    (w.write e).1 = .ok (!e.hits.isEmpty) := by
  by_cases he : e.hits = []
  · rw [write_of_isEmpty he, he]
    rfl
  · have hfull : e.hits.isEmpty = false := by simpa using he
    rw [write_unbounded hw he, hfull]
    rfl

end Writer

/-- **What is written is read back.** Of the entries that a writer without limit was given, the reads
of its file give those with hits, in their order, and then the end forever. After `n` entries the
writer has counted the records and the hits that these leave, and it tells of the next whether it has
hits. -/
theorem readRecord_bytes_writeAll (entries : List EventHits)
    (hlength : ∀ e ∈ entries, e.hits.length < 2 ^ 32) :
    repeated readRecord ((Writer.new .unbounded).writeAll entries).bytes =
        (Writer.recorded entries).map (fun e => .ok (some e)) ++ₛ Stream'.const (.ok none) ∧
      ∀ n, let w := (Writer.new .unbounded).writeAll (entries.take n)
        w.framesWritten = (Writer.recorded (entries.take n)).length ∧
          w.hitsWritten = ((Writer.recorded (entries.take n)).map (·.hits.length)).sum ∧
          ∀ e, entries[n]? = some e → (w.write e).1 = .ok (!e.hits.isEmpty) := by
  refine ⟨?_, fun n => ?_⟩
  · have hread : readAll ((Writer.recorded entries).flatMap EventHits.encode) =
        (Writer.recorded entries, none) :=
      readAll_flatMap_encode fun e he => hlength e (List.mem_filter.mp he).1
    rw [Writer.bytes_writeAll, repeated_readRecord, hread]
    rfl
  · have hwriter := Writer.writeAll_unbounded (w := .new .unbounded) rfl (entries.take n)
    intro w
    have hcapacity : w.medium.capacity? = none := congrArg (·.medium.capacity?) hwriter
    refine ⟨?_, ?_, fun e _ => Writer.write_fst_unbounded hcapacity e⟩
    · exact (congrArg (·.framesWritten) hwriter).trans (Nat.zero_add _)
    · exact (congrArg (·.hitsWritten) hwriter).trans (Nat.zero_add _)

/-- An entry without hits before one with a hit leaves nothing, and the other is read back. -/
theorem readRecord_emptyThenOneHit :
    let entries : List EventHits := [⟨4, 400, []⟩, oneHit]
    let w := (Writer.new .unbounded).writeAll entries
    (∀ e ∈ entries, e.hits.length < 2 ^ 32) ∧
      repeated readRecord w.bytes = [.ok (some oneHit)] ++ₛ Stream'.const (.ok none) ∧
      w.framesWritten = 1 ∧ w.hitsWritten = 1 := by
  intro entries w
  have hlength : ∀ e ∈ entries, e.hits.length < 2 ^ 32 := by simp [entries, oneHit]
  obtain ⟨hread, hwritten⟩ := readRecord_bytes_writeAll entries hlength
  obtain ⟨hframes, hhits, -⟩ := hwritten 2
  exact ⟨hlength, hread, hframes, hhits⟩

end PulseHits.Hit
