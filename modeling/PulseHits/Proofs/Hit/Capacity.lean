import PulseHits.Proofs.Hit.Record

/-!
# Writing to a medium that fills up

A medium of limited capacity holds the front of the bytes that it was given, as much as it can hold
(`appendAll_front`). A record that does not fit fills it up, so no later one gets in either, however
short it is: the writer has counted the records that are stored whole, and they are the first ones
(`writeAll_filled`, `write_withCapacity`).
-/

namespace PulseHits.Hit

/-! ## Media -/

namespace Medium

/-- The medium of a capacity that was given all these bytes. -/
def front (capacity : Nat) (stream : Bytes) : Medium :=
  ⟨(stream.take capacity).toArray, some capacity⟩

section front
variable (capacity : Nat) (stream : Bytes)

theorem append_front (b : Bytes) :
    (front capacity stream).append b =
      (front capacity (stream ++ b), decide (b.length ≤ capacity - stream.length)) := by
  have hroom : (front capacity stream).room b.length = min b.length (capacity - stream.length) := by
    simp only [front, room, List.size_toArray, List.length_take]
    omega
  have hstored : (front capacity stream).stored ++ b.take ((front capacity stream).room b.length) =
      (front capacity (stream ++ b)).stored := by
    refine Array.ext' ?_
    rw [hroom, Nat.min_comm, ← List.take_eq_take_min]
    simp [front, List.take_append]
  have hfits : ((front capacity stream).room b.length == b.length) =
      decide (b.length ≤ capacity - stream.length) := by
    rw [hroom, Bool.eq_iff_iff, beq_iff_eq, decide_eq_true_eq]
    omega
  rw [append, hstored, hfits]
  rfl

/-- What does not fit is cut off where the medium is full, and nothing is stored behind it. -/
theorem appendAll_front (pieces : List Bytes) :
    (front capacity stream).appendAll pieces =
      (front capacity (stream ++ pieces.flatten),
        decide (pieces.flatten.length ≤ capacity - stream.length)) := by
  induction pieces generalizing stream with
  | nil => simp [appendAll]
  | cons p pieces ih =>
    rw [appendAll, append_front, List.flatten_cons, List.length_append]
    by_cases hp : p.length ≤ capacity - stream.length
    · have hrest : pieces.flatten.length ≤ capacity - (stream ++ p).length ↔
          p.length + pieces.flatten.length ≤ capacity - stream.length := by
        rw [List.length_append]
        omega
      rw [decide_eq_true hp]
      simp only
      rw [ih, List.append_assoc, decide_eq_decide.mpr hrest]
    · have hfull : capacity ≤ (stream ++ p).length := by
        rw [List.length_append]
        omega
      rw [decide_eq_false hp, decide_eq_false (by omega)]
      simp only [front, ← List.append_assoc, List.take_append_of_le_length hfull]

end front

end Medium

/-! ## Records -/

/-- The records that end within the first `capacity` bytes of the stream that all of them make. -/
def completed (capacity : Nat) (records : List EventHits) : List EventHits :=
  (records.zipIdx.filter fun p =>
    ((records.take (p.2 + 1)).flatMap EventHits.encode).length ≤ capacity).map (·.1)

theorem completed_concat (capacity : Nat) (records : List EventHits) (e : EventHits) :
    completed capacity (records ++ [e]) =
      completed capacity records ++
        if ((records ++ [e]).flatMap EventHits.encode).length ≤ capacity then [e] else [] := by
  have hbefore : ∀ p ∈ records.zipIdx,
      decide ((((records ++ [e]).take (p.2 + 1)).flatMap EventHits.encode).length ≤ capacity) =
        decide (((records.take (p.2 + 1)).flatMap EventHits.encode).length ≤ capacity) := by
    intro p hp
    have hlt : p.2 < records.length := by
      have := List.snd_lt_of_mem_zipIdx hp
      omega
    rw [List.take_append_of_le_length hlt]
  have hlast : (records ++ [e]).take (records.length + 1) = records ++ [e] :=
    List.take_of_length_le (by simp)
  rw [completed, List.zipIdx_append, List.filter_append, List.map_append, List.filter_congr hbefore,
    Nat.zero_add, List.zipIdx_singleton, ← completed]
  by_cases hfits : ((records ++ [e]).flatMap EventHits.encode).length ≤ capacity
  · rw [if_pos hfits, List.filter_cons_of_pos (by simpa only [hlast, decide_eq_true_eq] using hfits)]
    rfl
  · rw [if_neg hfits, List.filter_cons_of_neg (by simpa only [hlast, decide_eq_true_eq] using hfits)]
    rfl

namespace Writer

/-- The writer on a medium of a capacity that was given all these records. -/
def filled (capacity : Nat) (records : List EventHits) : Writer where
  medium := .front capacity (records.flatMap EventHits.encode)
  framesWritten := (completed capacity records).length
  hitsWritten := ((completed capacity records).map (·.hits.length)).sum

/-- A record is stored whole if it ends within the capacity, and else it is given up. -/
theorem write_filled (capacity : Nat) (records : List EventHits) {e : EventHits} (h : e.hits ≠ []) :
    (filled capacity records).write e =
      (if ((records ++ [e]).flatMap EventHits.encode).length ≤ capacity then .ok true
        else .error (.io .full),
        filled capacity (records ++ [e])) := by
  have hstream : (records ++ [e]).flatMap EventHits.encode =
      records.flatMap EventHits.encode ++ e.encode := by
    rw [List.flatMap_append, List.flatMap_singleton]
  -- a record has bytes, so it does not fit behind those that are too long already
  have hpos : 0 < e.encode.length := by
    rw [e.length_encode]
    omega
  have hfits : decide (e.pieces.flatten.length ≤
        capacity - (records.flatMap EventHits.encode).length) =
      decide (((records ++ [e]).flatMap EventHits.encode).length ≤ capacity) := by
    refine decide_eq_decide.mpr ?_
    rw [hstream, List.length_append]
    show e.encode.length ≤ _ ↔ _
    omega
  rw [write, if_neg (by simpa using h), filled, Medium.appendAll_front, hfits, filled,
    completed_concat, hstream]
  by_cases hend : (records.flatMap EventHits.encode ++ e.encode).length ≤ capacity
  · rw [decide_eq_true hend, if_pos hend, if_pos hend]
    simp only [List.length_append, List.map_append, List.sum_append]
    rfl
  · rw [decide_eq_false hend, if_neg hend, if_neg hend, List.append_nil]
    rfl

theorem writeAll_filled (capacity : Nat) (records entries : List EventHits) :
    (filled capacity records).writeAll entries = filled capacity (records ++ recorded entries) := by
  induction entries generalizing records with
  | nil => simp [writeAll, recorded]
  | cons e entries ih =>
    rw [writeAll, List.foldl_cons, ← writeAll]
    by_cases he : e.hits = []
    · rw [write_of_isEmpty he, recorded_cons_of_isEmpty he]
      exact ih records
    · rw [write_filled capacity records he, recorded_cons he, ih, List.append_assoc,
        List.singleton_append]

theorem writeAll_withCapacity (capacity : Nat) (entries : List EventHits) :
    (new (.withCapacity capacity)).writeAll entries = filled capacity (recorded entries) := by
  have hnew : new (.withCapacity capacity) = filled capacity [] := by
    simp [new, filled, Medium.withCapacity, Medium.front, completed]
  rw [hnew, writeAll_filled, List.nil_append]

/-- **Writing to a medium that fills up.** After any number of entries, also after some that failed,
the medium holds the front of what one without limit would hold, and the writer has counted the records
that end within it and their hits. It tells of the next entry that there was nothing to write, if it has
no hits, and else that its record is written, if it ends within the capacity, and fails if it does not. -/
theorem write_withCapacity (capacity : Nat) (entries : List EventHits) (n : Nat) :
    let unlimited := fun n => (new .unbounded).writeAll (entries.take n)
    let limited := (new (.withCapacity capacity)).writeAll (entries.take n)
    let whole := completed capacity (recorded (entries.take n))
    limited.bytes = (unlimited n).bytes.take capacity ∧
      limited.framesWritten = whole.length ∧
      limited.hitsWritten = (whole.map (·.hits.length)).sum ∧
      ∀ e, entries[n]? = some e → (limited.write e).1 =
        if e.hits = [] then .ok false
        else if (unlimited (n + 1)).bytes.length ≤ capacity then .ok true
        else .error (.io .full) := by
  intro unlimited limited whole
  have hlimited : limited = filled capacity (recorded (entries.take n)) :=
    writeAll_withCapacity capacity _
  refine ⟨?_, ?_, ?_, ?_⟩
  · rw [hlimited, bytes_writeAll]
    rfl
  · rw [hlimited]
    rfl
  · rw [hlimited]
    rfl
  · intro e he
    by_cases hempty : e.hits = []
    · rw [if_pos hempty, write_of_isEmpty hempty]
    · have hrecorded : recorded (entries.take (n + 1)) = recorded (entries.take n) ++ [e] := by
        rw [List.take_add_one, he, recorded, List.filter_append]
        exact congrArg _ (recorded_cons hempty [])
      rw [if_neg hempty, hlimited, write_filled _ _ hempty, bytes_writeAll, hrecorded]

/-- A record that is too long comes before one that would have fit in its place. -/
def longThenShort : List EventHits :=
  let hit : Hit :=
    ⟨1, 2, 3, 67, ⟨0x4029000000000000⟩, ⟨0x4090010000000000⟩, ⟨0x40b3880000000000⟩⟩
  [⟨5, 500, [hit]⟩, ⟨6, 600, [hit, hit]⟩, ⟨7, 700, []⟩, ⟨8, 800, [hit]⟩]

theorem write_longThenShort :
    let limited := fun n => (new (.withCapacity 120)).writeAll (longThenShort.take n)
    ((limited 1).write longThenShort[1]).1 = .error (.io .full) ∧
      ((limited 2).write longThenShort[2]).1 = .ok false ∧
      ((limited 3).write longThenShort[3]).1 = .error (.io .full) ∧
      (limited 4).framesWritten = 1 ∧ (limited 4).hitsWritten = 1 ∧
      (limited 4).bytes.length = 120 := by
  intro limited
  obtain ⟨hbytes, hframes, hhits, -⟩ := write_withCapacity 120 longThenShort 4
  obtain ⟨-, -, -, hsecond⟩ := write_withCapacity 120 longThenShort 1
  obtain ⟨-, -, -, hthird⟩ := write_withCapacity 120 longThenShort 2
  obtain ⟨-, -, -, hfourth⟩ := write_withCapacity 120 longThenShort 3
  refine ⟨(hsecond _ rfl).trans (by decide +kernel), (hthird _ rfl).trans (by decide +kernel),
    (hfourth _ rfl).trans (by decide +kernel), hframes.trans (by decide +kernel),
    hhits.trans (by decide +kernel), ?_⟩
  exact (congrArg List.length hbytes).trans (by decide +kernel)

end Writer

end PulseHits.Hit
