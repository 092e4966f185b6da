import PulseHits.Proofs.Frame.Layout
import PulseHits.Proofs.Repeated

/-!
# Reading a stream to its end

A read takes bytes off the front of a stream, those of the frame alone if it gives one, and meets
the end only where no byte is left (`ReadStep.accounted`). So reading again and again meets the end
after no more other outcomes than the stream has bytes, and stays there (`repeated_readNext`); a
`Reader` gives the same and knows when it has met the end (`repeated_call`).
-/

namespace PulseHits.Frame

/-! ## One read -/

/-- What becomes of the bytes that are left of a stream when a read gives `result` and leaves
`rest` of them. -/
structure Accounted (left : Bytes) (result : Except StreamError Frame) (rest : Bytes) : Prop where
  atEnd_iff : result = .error .endOfStream ↔ left = []
  suffix : rest <:+ left
  consumes : result ≠ .error .endOfStream → rest.length < left.length
  frame : ∀ f, result = .ok f → left = f.bytes ++ rest

theorem IsBlock.bytes_eq {b : Bytes} (h : IsBlock b) {f : Frame} (hparse : parse b = .ok f) :
    f.bytes = b := by
  obtain ⟨hbytes, hlayout⟩ := of_parse_eq_ok hparse
  have hsize : f.header.frameBytes = blockSize * b.fieldBE 1 3 :=
    congrArg Layout.frameBytes hlayout
  have hmin : minHeaderSize ≤ f.header.frameBytes :=
    Nat.le_trans f.consistent.header_ge f.consistent.header_le
  have hlength : b.length = f.header.frameBytes := by
    rw [h.length_eq, ← hsize]
    exact Nat.max_eq_left (Nat.le_trans (by decide) hmin)
  rw [hbytes, ← hlayout]
  exact List.take_of_length_le (Nat.le_of_eq hlength)

theorem ReadStep.accounted {left rest : Bytes} {result : Except StreamError Frame}
    (h : ReadStep left result rest) : Accounted left result rest := by
  cases h with
  | atEnd => exact ⟨by simp, List.suffix_refl _, by simp, by simp⟩
  | strayByte first => exact ⟨by simp, List.suffix_cons _ _, by simp, by simp⟩
  | cutShort left hleft cause =>
    exact ⟨by simp [hleft], List.nil_suffix, fun _ => List.length_pos_iff.mpr hleft, by simp⟩
  | block b rest hblock =>
    have hpos : 0 < b.length := Nat.lt_of_lt_of_le (by decide) hblock.preambleSize_le
    have hleft : b ++ rest ≠ [] := by
      intro hnil
      rw [(List.append_eq_nil_iff.mp hnil).1] at hpos
      cases hpos
    have hresult : (parse b).mapError StreamError.badFrame ≠ .error .endOfStream := by
      cases parse b <;> simp [Except.mapError]
    refine ⟨by simp only [hresult, hleft], List.suffix_append _ _, fun _ => ?_, fun f hf => ?_⟩
    · rw [List.length_append]
      omega
    · cases hparse : parse b with
      | error e =>
        rw [hparse] at hf
        cases hf
      | ok f' =>
        rw [hparse] at hf
        cases hf
        rw [hblock.bytes_eq hparse]

theorem accounted_readNext (left : Bytes) :
    Accounted left (readNext left).1 (readNext left).2 :=
  (readStep_readNext left).accounted

theorem ne_nil_of_readNext {left rest : Bytes} {result : Except StreamError Frame}
    (h : readNext left = (result, rest)) (hresult : result ≠ .error .endOfStream) : left ≠ [] := by
  rintro rfl
  cases h
  exact hresult rfl

/-! ## Read after read -/

theorem suffix_readTimes (n : Nat) (stream : Bytes) : (readTimes n stream).2 <:+ stream := by
  induction n generalizing stream with
  | zero => exact List.suffix_refl _
  | succ n ih => exact (ih (readNext stream).2).trans (accounted_readNext stream).suffix

theorem take_repeated_readNext (n : Nat) (stream : Bytes) :
    (repeated readNext stream).take n = (readTimes n stream).1 := by
  induction n generalizing stream with
  | zero => rfl
  | succ n ih =>
    rw [repeated_eq_cons, Stream'.take_succ_cons, ih]
    rfl

/-- What the reads of a stream give before its end, failed ones included. -/
def outcomes (stream : Bytes) : List (Except StreamError Frame) :=
  if h : stream = [] then []
  else
    have := length_readNext_lt h
    (readNext stream).1 :: outcomes (readNext stream).2
termination_by stream.length

theorem outcomes_nil : outcomes [] = [] := by
  rw [outcomes, dif_pos rfl]

theorem outcomes_of_ne_nil {stream : Bytes} (h : stream ≠ []) :
    outcomes stream = (readNext stream).1 :: outcomes (readNext stream).2 := by
  rw [outcomes, dif_neg h]

theorem length_outcomes_le (stream : Bytes) : (outcomes stream).length ≤ stream.length := by
  induction stream using outcomes.induct with
  | case1 => simp [outcomes_nil]
  | case2 stream h hlt ih =>
    rw [outcomes_of_ne_nil h, List.length_cons]
    omega

theorem endOfStream_notMem_outcomes (stream : Bytes) :
    Except.error StreamError.endOfStream ∉ outcomes stream := by
  induction stream using outcomes.induct with
  | case1 => simp [outcomes_nil]
  | case2 stream h hlt ih =>
    rw [outcomes_of_ne_nil h, List.mem_cons, not_or]
    exact ⟨fun hend => h ((accounted_readNext stream).atEnd_iff.mp hend.symm), ih⟩

theorem repeated_readNext (stream : Bytes) :
    repeated readNext stream = outcomes stream ++ₛ Stream'.const (.error .endOfStream) := by
  induction stream using outcomes.induct with
  | case1 =>
    rw [outcomes_nil, Stream'.nil_append_stream]
    exact repeated_eq_const rfl
  | case2 stream h hlt ih =>
    rw [outcomes_of_ne_nil h, Stream'.cons_append_stream, ← ih, repeated_eq_cons]

theorem flatMap_bytes_of_outcomes {stream : Bytes} {frames : List Frame}
    (h : outcomes stream = frames.map .ok) : frames.flatMap (·.bytes) = stream := by
  induction stream using outcomes.induct generalizing frames with
  | case1 =>
    rw [outcomes_nil] at h
    rw [List.map_eq_nil_iff.mp h.symm, List.flatMap_nil]
  | case2 stream hne hlt ih =>
    rw [outcomes_of_ne_nil hne] at h
    obtain ⟨f, rest, rfl, hf, hrest⟩ := List.map_eq_cons_iff.mp h.symm
    rw [List.flatMap_cons, ih hrest.symm]
    exact ((accounted_readNext stream).frame f hf.symm).symm

/-! ## Readers -/

namespace Reader

/-- A call of a reader: what it gives, and whether the reader then has met the end. -/
def call (r : Reader) : (Except StreamError Frame × Bool) × Reader :=
  ((r.next.1, r.next.2.atEnd), r.next.2)

theorem next_of_ne_nil {rest : Bytes} (h : rest ≠ []) :
    next ⟨rest, false⟩ = ((readNext rest).1, ⟨(readNext rest).2, false⟩) := by
  have hend : (readNext rest).1 ≠ .error .endOfStream := fun hend =>
    h ((accounted_readNext rest).atEnd_iff.mp hend)
  -- `hend` excludes the case in which the reader meets the end
  simp only [next, Bool.false_eq_true, if_false]

theorem repeated_call (stream : Bytes) :
    repeated call (.ofBytes stream) =
      (outcomes stream).map (·, false) ++ₛ Stream'.const (.error .endOfStream, true) := by
  induction stream using outcomes.induct with
  | case1 =>
    rw [outcomes_nil, List.map_nil, Stream'.nil_append_stream, repeated_eq_cons, Stream'.const_eq]
    exact congrArg _ (repeated_eq_const rfl)
  | case2 stream h hlt ih =>
    rw [outcomes_of_ne_nil h, List.map_cons, Stream'.cons_append_stream, ← ih, repeated_eq_cons,
      call, ofBytes, next_of_ne_nil h]
    rfl

end Reader

end PulseHits.Frame
