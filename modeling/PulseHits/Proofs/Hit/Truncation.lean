import PulseHits.Proofs.Hit.Record

/-!
# Truncated hit files

What a reader makes of a hit file that breaks off. Every record before the break is read. The reader
asks for the event id first and takes a stream without four more bytes for one that has ended, so
the break shows as an error exactly if at least the event id of the broken record is left
(`readAll_take_bytes_writeAll`).
-/

namespace PulseHits.Hit

/-- What ends the reading of a stream that breaks off `kept` bytes into the record of `e`. -/
def EventHits.breakOff? (e : EventHits) (kept : Nat) : Option FileError :=
  if kept < 4 then none
  else some (.io (if kept < 16 then .endsInField else .endsInHits e.eventId e.hits.length))

theorem readRecord_take_encode {e : EventHits} (h : e.hits.length < 2 ^ 32) {kept : Nat}
    (hkept : kept < e.encode.length) :
    readRecord (e.encode.take kept) =
      ((e.breakOff? kept).elim (.ok none) .error, []) := by
  have hlen : (e.encode.take kept).length = kept := by
    rw [List.length_take]
    omega
  rw [readRecord, hlen, EventHits.breakOff?]
  by_cases hid : kept < 4
  · rw [if_pos hid, if_pos hid]
    rfl
  rw [if_neg hid, if_neg hid]
  by_cases hfields : kept < 16
  · rw [if_pos hfields, if_pos hfields]
    rfl
  rw [if_neg hfields, if_neg hfields]
  obtain ⟨hid', -, hcount⟩ := e.fields_encode h
  have hbody : ((e.encode.take kept).drop 16).length < e.hits.length * recordSize := by
    rw [e.length_encode] at hkept
    rw [List.length_drop, hlen]
    omega
  have hfield : ∀ start width, start + width ≤ 16 →
      Bytes.fieldLE (e.encode.take kept) start width = e.encode.fieldLE start width :=
    fun start width hw => Bytes.fieldLE_take (by omega)
  simp only [hfield 0 4 (by omega), hfield 12 countSize (by decide), hid', hcount, if_pos hbody]
  rfl

theorem readAll_take_encode {e : EventHits} (h : e.hits.length < 2 ^ 32) {kept : Nat}
    (hkept : kept < e.encode.length) :
    readAll (e.encode.take kept) = ([], e.breakOff? kept) := by
  have hread := readRecord_take_encode h hkept
  cases hend : e.breakOff? kept with
  | none =>
    rw [hend] at hread
    exact readAll_of_end hread
  | some cause =>
    rw [hend] at hread
    exact readAll_of_error hread

theorem take_flatMap_encode {before after : List EventHits} {e : EventHits} {p : Nat}
    (hstart : (before.flatMap EventHits.encode).length ≤ p)
    (hend : p < (before.flatMap EventHits.encode).length + e.encode.length) :
    ((before ++ e :: after).flatMap EventHits.encode).take p =
      before.flatMap EventHits.encode ++
        e.encode.take (p - (before.flatMap EventHits.encode).length) := by
  rw [List.flatMap_append, List.flatMap_cons, List.take_append, List.take_of_length_le hstart,
    List.take_append_of_le_length (by omega)]

/-- **A hit file that breaks off.** Of a file cut in the record of `e`, the records before are read.
The cut is reported if four bytes of the record are left, and else the file passes for one that ends
with the record before. -/
theorem readAll_take_bytes_writeAll {entries : List EventHits}
    (hlength : ∀ e ∈ entries, e.hits.length < 2 ^ 32) {before after : List EventHits}
    {e : EventHits} (hrecords : Writer.recorded entries = before ++ e :: after) {p : Nat}
    (hstart : (before.flatMap EventHits.encode).length ≤ p)
    (hend : p < (before.flatMap EventHits.encode).length + e.encode.length) :
    let start := (before.flatMap EventHits.encode).length
    let reading := readAll (((Writer.new .unbounded).writeAll entries).bytes.take p)
    reading.1 = before ∧ (reading.2 = none ↔ p < start + 4) ∧
      (start + 4 ≤ p → reading.2 =
        some (.io (if p < start + 16 then .endsInField
          else .endsInHits e.eventId e.hits.length))) := by
  intro start reading
  have hall : ∀ e' ∈ before ++ e :: after, e'.hits.length < 2 ^ 32 := fun e' he' => by
    rw [← hrecords] at he'
    exact hlength e' (List.mem_filter.mp he').1
  have hreading : reading = (before, e.breakOff? (p - start)) := by
    show readAll (List.take p _) = _
    rw [Writer.bytes_writeAll, hrecords, take_flatMap_encode hstart hend,
      readAll_flatMap_encode_append fun e' he' => hall e' (List.mem_append_left _ he'),
      readAll_take_encode (hall e (by simp)) (by omega), List.append_nil]
  rw [hreading]
  refine ⟨rfl, ?_, fun hfour => ?_⟩
  · show e.breakOff? (p - start) = none ↔ _
    rw [EventHits.breakOff?]
    split
    · next hlt => exact iff_of_true rfl (by omega)
    · next hge => exact iff_of_false (by simp) (by omega)
  · show e.breakOff? (p - start) = _
    have hsixteen : p - start < 16 ↔ p < start + 16 := by omega
    rw [EventHits.breakOff?, if_neg (by omega)]
    simp only [hsixteen]

/-- Two frames with a hit each, and one without hits between them. -/
def threeFrames : List EventHits :=
  let hit : Hit :=
    ⟨1, 2, 3, 67, ⟨0x4029000000000000⟩, ⟨0x4090010000000000⟩, ⟨0x40b3880000000000⟩⟩
  [⟨5, 500, [hit]⟩, ⟨6, 600, []⟩, ⟨7, 700, [hit]⟩]

theorem readAll_take_threeFrames :
    (∀ e ∈ threeFrames, e.hits.length < 2 ^ 32) ∧
      Writer.recorded threeFrames = threeFrames.take 1 ++ threeFrames[2] :: [] ∧
      ((threeFrames.take 1).flatMap EventHits.encode).length ≤ 60 ∧
      60 < ((threeFrames.take 1).flatMap EventHits.encode).length +
        threeFrames[2].encode.length ∧
      readAll (((Writer.new .unbounded).writeAll threeFrames).bytes.take 60) =
        (threeFrames.take 1, some (.io .endsInField)) := by
  have hlength : ∀ e ∈ threeFrames, e.hits.length < 2 ^ 32 := by simp [threeFrames]
  have hrecords : Writer.recorded threeFrames = threeFrames.take 1 ++ threeFrames[2] :: [] := rfl
  have hstart : ((threeFrames.take 1).flatMap EventHits.encode).length = 56 := rfl
  have hrecord : threeFrames[2].encode.length = 56 := rfl
  obtain ⟨hbefore, -, herror⟩ :=
    readAll_take_bytes_writeAll hlength hrecords (p := 60) (by omega) (by omega)
  exact ⟨hlength, hrecords, by omega, by omega,
    Prod.ext hbefore (herror (by omega))⟩

/-- A file cut two bytes into an event id passes for one that ends with the record before. -/
theorem not_forall_readAll_take_error :
    ¬ ∀ entries : List EventHits, (∀ e ∈ entries, e.hits.length < 2 ^ 32) →
      ∀ (before after : List EventHits) (e : EventHits) (p : Nat),
        Writer.recorded entries = before ++ e :: after →
        (before.flatMap EventHits.encode).length < p →
        p < (before.flatMap EventHits.encode).length + e.encode.length →
        ∃ cause, readAll (((Writer.new .unbounded).writeAll entries).bytes.take p) =
          (before, some cause) := by
  intro herror
  have hstart : ((threeFrames.take 1).flatMap EventHits.encode).length = 56 := rfl
  have hrecord : threeFrames[2].encode.length = 56 := rfl
  have hstream : ((Writer.new .unbounded).writeAll threeFrames).bytes.take 58 =
      (threeFrames.take 1).flatMap EventHits.encode ++ threeFrames[2].encode.take 2 := rfl
  obtain ⟨cause, hcause⟩ := herror threeFrames (by simp [threeFrames]) (threeFrames.take 1) []
    threeFrames[2] 58 rfl (by omega) (by omega)
  rw [hstream, readAll_flatMap_encode_append (by simp [threeFrames]),
    readAll_take_encode (by decide) (by omega)] at hcause
  simp [EventHits.breakOff?] at hcause

end PulseHits.Hit
