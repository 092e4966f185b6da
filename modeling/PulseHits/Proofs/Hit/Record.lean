import PulseHits.Hit.File
import PulseHits.Proofs.Bytes.Field

/-!
# Records read back

What is written is read back from the front of any stream that starts with it: a hit
(`read_toBytes_append`), a block (`decodeBlock_encodeBlock_append`), the record of an event
(`readRecord_encode_append`) and a whole list of records (`readAll_flatMap_encode_append`). A writer
whose medium has no limit holds exactly the records of the entries that have hits.
-/

namespace PulseHits.Hit

open Bytes (fieldLE_ofNatLE_append_of_le fieldLE_ofNatLE_append fieldLE_ofNatLE)

/-! ## Hits -/

@[simp] theorem length_toBytes (h : Hit) : h.toBytes.length = recordSize := by
  simp [toBytes, recordSize]

theorem length_flatMap_toBytes (hits : List Hit) :
    (hits.flatMap toBytes).length = hits.length * recordSize := by
  induction hits with
  | nil => rfl
  | cons h hits ih =>
    rw [List.flatMap_cons, List.length_append, length_toBytes, ih, List.length_cons, Nat.succ_mul,
      Nat.add_comm]

theorem ofBytes_toBytes (h : Hit) : ofBytes h.toBytes = h := by
  simp (disch := omega) only [ofBytes, toBytes, List.append_assoc, fieldLE_ofNatLE_append_of_le,
    fieldLE_ofNatLE_append, fieldLE_ofNatLE, Nat.reduceSub, Bytes.toUInt32_mod,
    Bytes.toUInt64_mod]

theorem read_toBytes_append (h : Hit) (rest : Bytes) : read (h.toBytes ++ rest) = .ok (h, rest) := by
  have hlen : h.toBytes.length = recordSize := length_toBytes h
  rw [read, if_neg (by rw [List.length_append]; omega), ← hlen, List.take_left, List.drop_left,
    ofBytes_toBytes]

theorem readMany_flatMap_toBytes_append (hits : List Hit) (rest : Bytes) :
    readMany hits.length (hits.flatMap toBytes ++ rest) = .ok hits := by
  induction hits with
  | nil => rfl
  | cons h hits ih =>
    rw [List.length_cons, List.flatMap_cons, List.append_assoc, readMany, read_toBytes_append]
    show (readMany hits.length (hits.flatMap toBytes ++ rest) >>= fun hs => pure (h :: hs)) = _
    rw [ih]
    rfl

/-! ## Blocks -/

theorem length_encodeBlock (hits : List Hit) :
    (encodeBlock hits).length = countSize + hits.length * recordSize := by
  rw [encodeBlock, List.length_append, length_flatMap_toBytes, countBytes, Bytes.length_ofNatLE]

theorem fieldLE_encodeBlock_append {hits : List Hit} (h : hits.length < 2 ^ 32) (rest : Bytes) :
    Bytes.fieldLE (encodeBlock hits ++ rest) 0 countSize = hits.length := by
  rw [encodeBlock, List.append_assoc, countBytes, fieldLE_ofNatLE_append]
  exact Nat.mod_eq_of_lt h

theorem decodeBlock_encodeBlock_append {hits : List Hit} (h : hits.length < 2 ^ 32)
    (rest : Bytes) : decodeBlock (encodeBlock hits ++ rest) = .ok hits := by
  have hlen := length_encodeBlock hits
  have hdrop : (encodeBlock hits ++ rest).drop countSize = hits.flatMap toBytes ++ rest := by
    rw [encodeBlock, List.append_assoc, List.drop_left' (by simp [countBytes])]
  have hbody : ¬ (hits.flatMap toBytes ++ rest).length < hits.length * recordSize := by
    rw [List.length_append, length_flatMap_toBytes]
    omega
  rw [decodeBlock, if_neg (by rw [List.length_append]; omega)]
  simp only [fieldLE_encodeBlock_append h, hdrop, if_neg hbody, readMany_flatMap_toBytes_append]
  rfl

/-! ## Records of events -/

namespace EventHits

theorem encode_eq (e : EventHits) :
    e.encode = Bytes.ofNatLE 4 e.eventId.toNat ++ Bytes.ofNatLE 8 e.eventTime.toNat ++
      encodeBlock e.hits := by
  simp only [encode, pieces, blockPieces, encodeBlock, List.flatten_cons, List.flatMap_def,
    List.append_assoc]

theorem length_encode (e : EventHits) : e.encode.length = 16 + e.hits.length * recordSize := by
  rw [encode_eq, List.length_append, List.length_append, Bytes.length_ofNatLE, Bytes.length_ofNatLE,
    length_encodeBlock, countSize]
  omega

theorem fields_encode (e : EventHits) (h : e.hits.length < 2 ^ 32) :
    (e.encode.fieldLE 0 4).toUInt32 = e.eventId ∧ (e.encode.fieldLE 4 8).toUInt64 = e.eventTime ∧
      e.encode.fieldLE 12 countSize = e.hits.length := by
  have hcount := fieldLE_encodeBlock_append h []
  rw [List.append_nil] at hcount
  simp (disch := omega) only [encode_eq, List.append_assoc, fieldLE_ofNatLE_append_of_le,
    fieldLE_ofNatLE_append, Nat.reduceSub, Bytes.toUInt32_mod, Bytes.toUInt64_mod, hcount,
    and_self]

theorem drop_encode (e : EventHits) : e.encode.drop 16 = e.hits.flatMap toBytes := by
  rw [encode_eq, encodeBlock, ← List.append_assoc]
  exact List.drop_left' (by simp [countBytes, countSize])

end EventHits

theorem readRecord_encode_append {e : EventHits} (h : e.hits.length < 2 ^ 32) (rest : Bytes) :
    readRecord (e.encode ++ rest) = (.ok (some e), rest) := by
  have hlen := e.length_encode
  obtain ⟨hid, htime, hcount⟩ := e.fields_encode h
  have hfield : ∀ start width, start + width ≤ 16 →
      Bytes.fieldLE (e.encode ++ rest) start width = e.encode.fieldLE start width :=
    fun start width hw => Bytes.fieldLE_append_left (by omega)
  have hdrop : (e.encode ++ rest).drop 16 = e.hits.flatMap toBytes ++ rest := by
    rw [List.drop_append_of_le_length (by omega), e.drop_encode]
  have hsize := length_flatMap_toBytes e.hits
  have hbody : ¬ (e.hits.flatMap toBytes ++ rest).length < e.hits.length * recordSize := by
    rw [List.length_append]
    omega
  have hblock : Bytes.ofNatLE countSize e.hits.length ++ e.hits.flatMap toBytes =
      encodeBlock e.hits ++ [] := by
    rw [List.append_nil, encodeBlock, countBytes]
  rw [readRecord, if_neg (by rw [List.length_append]; omega),
    if_neg (by rw [List.length_append]; omega)]
  simp only [hfield 0 4 (by omega), hfield 4 8 (by omega), hfield 12 countSize (by decide), hid,
    htime, hcount, hdrop, if_neg hbody]
  rw [← hsize, List.take_left, List.drop_left, hblock, decodeBlock_encodeBlock_append h]

/-! ## Streams of records -/

section equations
variable {stream rest : Bytes}

theorem readAll_of_record {e : EventHits} (h : readRecord stream = (.ok (some e), rest)) :
    readAll stream = (e :: (readAll rest).1, (readAll rest).2) := by
  rw [readAll]
  split <;> simp_all

theorem readAll_of_end (h : readRecord stream = (.ok none, rest)) : readAll stream = ([], none) := by
  rw [readAll]
  split <;> simp_all

theorem readAll_of_error {e : FileError} (h : readRecord stream = (.error e, rest)) :
    readAll stream = ([], some e) := by
  rw [readAll]
  split <;> simp_all

end equations

@[simp] theorem readAll_nil : readAll [] = ([], none) :=
  readAll_of_end rfl

theorem readAll_encode_append {e : EventHits} (h : e.hits.length < 2 ^ 32) (rest : Bytes) :
    readAll (e.encode ++ rest) = (e :: (readAll rest).1, (readAll rest).2) :=
  readAll_of_record (readRecord_encode_append h rest)

theorem readAll_flatMap_encode_append {records : List EventHits}
    (h : ∀ e ∈ records, e.hits.length < 2 ^ 32) (rest : Bytes) :
    readAll (records.flatMap EventHits.encode ++ rest) =
      (records ++ (readAll rest).1, (readAll rest).2) := by
  induction records with
  | nil => rfl
  | cons e records ih =>
    rw [List.flatMap_cons, List.append_assoc, readAll_encode_append (h e List.mem_cons_self),
      ih fun e' he => h e' (List.mem_cons_of_mem _ he)]
    rfl

theorem readAll_flatMap_encode {records : List EventHits}
    (h : ∀ e ∈ records, e.hits.length < 2 ^ 32) :
    readAll (records.flatMap EventHits.encode) = (records, none) := by
  have hread := readAll_flatMap_encode_append h []
  rwa [List.append_nil, readAll_nil, List.append_nil] at hread

/-! ## Writing without limit -/

namespace Medium

theorem stored_append_append (stored : Array UInt8) (b c : Bytes) :
    stored ++ b ++ c = stored ++ (b ++ c) :=
  Array.ext' (by simp)

theorem append_unbounded {m : Medium} (h : m.capacity? = none) (b : Bytes) :
    m.append b = (⟨m.stored ++ b, none⟩, true) := by
  obtain ⟨stored, capacity?⟩ := m
  subst h
  simp [append, room]

theorem appendAll_unbounded {m : Medium} (h : m.capacity? = none) (pieces : List Bytes) :
    m.appendAll pieces = (⟨m.stored ++ pieces.flatten, none⟩, true) := by
  induction pieces generalizing m with
  | nil =>
    obtain ⟨stored, capacity?⟩ := m
    subst h
    simp [appendAll]
  | cons p pieces ih =>
    rw [appendAll, append_unbounded h]
    show appendAll ⟨m.stored ++ p, none⟩ pieces = _
    rw [ih rfl, List.flatten_cons, stored_append_append]

end Medium

namespace Writer

/-- The entries that leave a record. -/
def recorded (entries : List EventHits) : List EventHits :=
  entries.filter fun e => !e.hits.isEmpty

/-- Writes entries one after the other, also after one that failed. -/
def writeAll (w : Writer) (entries : List EventHits) : Writer :=
  entries.foldl (fun w e => (w.write e).2) w

theorem write_of_isEmpty {w : Writer} {e : EventHits} (h : e.hits = []) :
    w.write e = (.ok false, w) := by
  rw [write, h]
  rfl

theorem write_unbounded {w : Writer} {e : EventHits} (hw : w.medium.capacity? = none)
    (h : e.hits ≠ []) :
    w.write e = (.ok true, ⟨⟨w.medium.stored ++ e.encode, none⟩, w.framesWritten + 1,
      w.hitsWritten + e.hits.length⟩) := by
  rw [write, if_neg (by simpa using h), Medium.appendAll_unbounded hw]
  rfl

theorem recorded_cons_of_isEmpty {e : EventHits} (h : e.hits = []) (entries : List EventHits) :
    recorded (e :: entries) = recorded entries := by
  rw [recorded, List.filter_cons_of_neg (by simp [h])]
  rfl

theorem recorded_cons {e : EventHits} (h : e.hits ≠ []) (entries : List EventHits) :
    recorded (e :: entries) = e :: recorded entries := by
  rw [recorded, List.filter_cons_of_pos (by simp [h])]
  rfl

theorem writeAll_unbounded {w : Writer} (hw : w.medium.capacity? = none)
    (entries : List EventHits) :
    w.writeAll entries =
      ⟨⟨w.medium.stored ++ (recorded entries).flatMap EventHits.encode, none⟩,
        w.framesWritten + (recorded entries).length,
        w.hitsWritten + ((recorded entries).map (·.hits.length)).sum⟩ := by
  induction entries generalizing w with
  | nil =>
    obtain ⟨⟨stored, capacity?⟩, framesWritten, hitsWritten⟩ := w
    obtain rfl : capacity? = none := hw
    simp [writeAll, recorded]
  | cons e entries ih =>
    rw [writeAll, List.foldl_cons, ← writeAll]
    by_cases he : e.hits = []
    · rw [write_of_isEmpty he, recorded_cons_of_isEmpty he]
      exact ih hw
    · rw [write_unbounded hw he, recorded_cons he, ih rfl, List.flatMap_cons, List.length_cons,
        List.map_cons, List.sum_cons, Medium.stored_append_append]
      simp only [Nat.add_assoc, Nat.add_comm 1]

theorem bytes_writeAll (entries : List EventHits) :
    ((new .unbounded).writeAll entries).bytes = (recorded entries).flatMap EventHits.encode := by
  rw [writeAll_unbounded rfl, bytes]
  simp [new, Medium.unbounded]

end Writer

end PulseHits.Hit
