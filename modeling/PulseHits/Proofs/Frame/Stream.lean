import PulseHits.Proofs.Frame.Block

/-!
# Frames read off a stream

A frame is read back from its own bytes, whatever follows them (`readNext_bytes_append`), so a
stream that is put together from whole frames is read frame by frame to its end
(`attempts_flatMap_bytes`). `attempts` lists what the reads of a stream give, one after the other;
`readAll` sorts the same list into frames and the failure that ends them (`attempts_eq_readAll`).
-/

namespace PulseHits.Frame

/-! ## Parsing -/

theorem Header.metaType_of_parse {b : Bytes} {h : Header} (hparse : Header.parse b = .ok h) :
    h.metaType = expectedMetaType ∧ Header.read? b = some h := by
  rw [Header.parse] at hparse
  cases hread : Header.read? b with
  | none => simp [hread] at hparse
  | some h' =>
    simp only [hread] at hparse
    split at hparse
    · next hmeta =>
      cases hparse
      exact ⟨hmeta, rfl⟩
    · cases hparse

theorem Header.eventId_lt {b : Bytes} {h : Header} (hparse : Header.parse b = .ok h) :
    h.eventId < 2 ^ 32 := by
  rw [(fields_of_read? (metaType_of_parse hparse).2).2.2.2.2]
  exact Bytes.fieldBE_lt b 22 4

theorem Header.eventTime_lt {b : Bytes} {h : Header} (hparse : Header.parse b = .ok h) :
    h.eventTime < 2 ^ 48 := by
  rw [(fields_of_read? (metaType_of_parse hparse).2).2.2.2.1]
  exact Bytes.fieldBE_lt b 16 6

theorem minHeaderSize_le_length (f : Frame) : minHeaderSize ≤ f.bytes.length := by
  rw [f.length_eq]
  exact Nat.le_trans f.consistent.header_ge f.consistent.header_le

theorem parse_bytes_append (f : Frame) (rest : Bytes) : parse (f.bytes ++ rest) = .ok f := by
  obtain ⟨bytes, header, hparse, hlength, hge, hle, hpos, hitems⟩ := f
  have hlonger : (bytes ++ rest).length = header.frameBytes + rest.length := by
    rw [List.length_append, hlength]
  have hheader : Header.parse (bytes ++ rest) = .ok header := by
    rw [← hparse, Header.parse, Header.parse,
      ← Header.read?_take (show minHeaderSize ≤ bytes.length by omega), List.take_left]
  show parse (bytes ++ rest) = _
  rw [parse]
  split
  · next hp =>
    rw [hheader] at hp
    cases hp
  · next h hp =>
    rw [hheader] at hp
    cases hp
    rw [dif_neg (by omega), dif_neg (by omega), dif_neg (by omega), dif_neg (by omega)]
    simp only [← hlength, List.take_left]

theorem parse_bytes (f : Frame) : parse f.bytes = .ok f := by
  have h := parse_bytes_append f []
  rwa [List.append_nil] at h

/-! ## Reading frame by frame -/

theorem isBlock_bytes (f : Frame) : IsBlock f.bytes := by
  obtain ⟨hmeta, hread⟩ := Header.metaType_of_parse f.parse_eq
  obtain ⟨-, hfirst, hsize, -⟩ := Header.fields_of_read? hread
  have hlen : 28 ≤ f.bytes.length := f.minHeaderSize_le_length
  have hframe : f.bytes.length = blockSize * f.header.frameSize := f.length_eq
  refine ⟨hfirst.symm.trans hmeta, ?_⟩
  rw [← hsize, ← hframe, preambleSize]
  omega

theorem readNext_bytes_append (f : Frame) (rest : Bytes) :
    readNext (f.bytes ++ rest) = (.ok f, rest) := by
  rw [readNext_block_append f.isBlock_bytes, parse_bytes]
  rfl

/-- What the reads of a stream give, up to its end or the first read that fails. -/
def attempts (stream : Bytes) : List (Except StreamError Frame) :=
  match h : readNext stream with
  | (.ok f, rest) =>
    have := length_lt_of_readNext_ok h
    .ok f :: attempts rest
  | (.error .endOfStream, _) => []
  | (.error e, _) => [.error e]
termination_by stream.length

section equations
variable {stream rest : Bytes}

theorem attempts_of_ok {f : Frame} (h : readNext stream = (.ok f, rest)) :
    attempts stream = .ok f :: attempts rest := by
  rw [attempts]
  split <;> simp_all

theorem attempts_of_end (h : readNext stream = (.error .endOfStream, rest)) :
    attempts stream = [] := by
  rw [attempts]
  split <;> simp_all

theorem attempts_of_error {e : StreamError} (h : readNext stream = (.error e, rest))
    (he : e ≠ .endOfStream) : attempts stream = [.error e] := by
  rw [attempts]
  split <;> simp_all

theorem readAll_of_ok {f : Frame} (h : readNext stream = (.ok f, rest)) :
    readAll stream = (f :: (readAll rest).1, (readAll rest).2) := by
  rw [readAll]
  split <;> simp_all

theorem readAll_of_end (h : readNext stream = (.error .endOfStream, rest)) :
    readAll stream = ([], none) := by
  rw [readAll]
  split <;> simp_all

theorem readAll_of_error {e : StreamError} (h : readNext stream = (.error e, rest))
    (he : e ≠ .endOfStream) : readAll stream = ([], some e) := by
  rw [readAll]
  split <;> simp_all

end equations

theorem attempts_bytes_append (f : Frame) (rest : Bytes) :
    attempts (f.bytes ++ rest) = .ok f :: attempts rest :=
  attempts_of_ok (readNext_bytes_append f rest)

theorem attempts_flatMap_bytes (frames : List Frame) :
    attempts (frames.flatMap (·.bytes)) = frames.map .ok := by
  induction frames with
  | nil => exact attempts_of_end rfl
  | cons f frames ih => rw [List.flatMap_cons, attempts_bytes_append, ih, List.map_cons]

theorem attempts_eq_readAll (stream : Bytes) :
    attempts stream = (readAll stream).1.map .ok ++ ((readAll stream).2.map .error).toList := by
  induction stream using attempts.induct with
  | case1 stream f rest h _ ih =>
    rw [attempts_of_ok h, readAll_of_ok h, ih]
    rfl
  | case2 stream rest h =>
    rw [attempts_of_end h, readAll_of_end h]
    rfl
  | case3 stream e rest he h =>
    rw [attempts_of_error h he, readAll_of_error h he]
    rfl

end PulseHits.Frame
