import PulseHits.Proofs.Frame.Exhaustion
import PulseHits.Run.Frames

/-!
# The loop over a data file

A data file is taken in frame by frame: a turn of the loop asks the reader for the next frame and
takes it in, until the reader meets the end or something fails. Every turn but the last takes bytes
off the file, so the loop ends, and it comes to what `State.takeFile` says (`turns_eq_takeStream`).
-/

namespace PulseHits.Run

open PulseHits.Frame (Reader readNext readAll readTimes outcomes)

namespace State

/-- One turn of the loop over the file at `path`: the next turn starts from a state and a reader, or
the loop has ended. -/
def turn (skipBadFrames : Bool) (path : String) (s : State) (r : Reader) :
    (State × Reader) ⊕ (State × Option Error) :=
  match r.next with
  | (.ok f, r) =>
    match s.takeFrame skipBadFrames path f with
    | (s, none) => .inl (s, r)
    | (s, some e) => .inr (s, some e)
  | (.error .endOfStream, _) => .inr (s, none)
  | (.error e, _) => .inr (s, some (.stream e))

/-- What the loop comes to, if it ends within so many turns. -/
def turns (skipBadFrames : Bool) (path : String) :
    (count : Nat) → State → Reader → Option (State × Option Error)
  | 0, _, _ => none
  | n + 1, s, r =>
    match s.turn skipBadFrames path r with
    | .inl (s, r) => turns skipBadFrames path n s r
    | .inr ended => some ended

/-- The state in which the loop over a file starts. -/
def begin (path : String) (s : State) : State :=
  { s.say .info s!"Processing {path}..." with channels := .empty }

/-- What is made of a stream: its frames are taken in, and then why no more could be read. -/
def takeStream (skipBadFrames : Bool) (path : String) (s : State) (stream : Bytes) :
    State × Option Error :=
  match s.takeFrames skipBadFrames path (readAll stream).1 with
  | (s, none) => (s, (readAll stream).2.map .stream)
  | (s, some e) => (s, some e)

theorem takeFile_ok (skipBadFrames : Bool) (path : String) (s : State) (stream : Bytes) :
    s.takeFile skipBadFrames path (.ok stream) =
      (s.begin path).takeStream skipBadFrames path stream := rfl

section turns
variable {skipBadFrames : Bool} {path : String} {s s' : State} {stream rest : Bytes}

theorem takeStream_of_taken {f : Frame} (h : readNext stream = (.ok f, rest))
    (hf : s.takeFrame skipBadFrames path f = (s', none)) :
    s.takeStream skipBadFrames path stream = s'.takeStream skipBadFrames path rest := by
  rw [takeStream, Frame.readAll_of_ok h]
  simp only [takeFrames, hf, takeStream]

theorem takeStream_of_failed {f : Frame} {e : Error} (h : readNext stream = (.ok f, rest))
    (hf : s.takeFrame skipBadFrames path f = (s', some e)) :
    s.takeStream skipBadFrames path stream = (s', some e) := by
  rw [takeStream, Frame.readAll_of_ok h]
  simp only [takeFrames, hf]

theorem turn_of_taken {f : Frame} (h : readNext stream = (.ok f, rest))
    (hf : s.takeFrame skipBadFrames path f = (s', none)) :
    s.turn skipBadFrames path (.ofBytes stream) = .inl (s', .ofBytes rest) := by
  rw [turn, Reader.ofBytes, Reader.next_of_ne_nil (Frame.ne_nil_of_readNext h (by simp)), h]
  simp only [hf, Reader.ofBytes]

theorem turn_of_failed {f : Frame} {e : Error} (h : readNext stream = (.ok f, rest))
    (hf : s.takeFrame skipBadFrames path f = (s', some e)) :
    s.turn skipBadFrames path (.ofBytes stream) = .inr (s', some e) := by
  rw [turn, Reader.ofBytes, Reader.next_of_ne_nil (Frame.ne_nil_of_readNext h (by simp)), h]
  simp only [hf]

theorem turn_of_error {e : Frame.StreamError} (h : readNext stream = (.error e, rest))
    (he : e ≠ .endOfStream) :
    s.turn skipBadFrames path (.ofBytes stream) = .inr (s, some (.stream e)) := by
  rw [turn, Reader.ofBytes, Reader.next_of_ne_nil (Frame.ne_nil_of_readNext h (by simpa using he)), h]
  cases e with
  | endOfStream => exact absurd rfl he
  | _ => rfl

/-- With a turn more than the file has bytes, the loop ends and comes to what is made of the
bytes. -/
theorem turns_eq_takeStream {n : Nat} (hn : stream.length ≤ n) :
    s.turns skipBadFrames path (n + 1) (.ofBytes stream) =
      some (s.takeStream skipBadFrames path stream) := by
  induction stream using Frame.attempts.induct generalizing s n with
  | case1 stream f rest h hlt ih =>
    obtain ⟨n, rfl⟩ := Nat.exists_eq_succ_of_ne_zero (show n ≠ 0 by omega)
    rcases hf : s.takeFrame skipBadFrames path f with ⟨s', - | e⟩
    · rw [turns, turn_of_taken h hf, takeStream_of_taken h hf]
      exact ih (by omega)
    · rw [turns, turn_of_failed h hf, takeStream_of_failed h hf]
  | case2 stream rest h =>
    obtain rfl : stream = [] := (Frame.accounted_readNext stream).atEnd_iff.mp (by rw [h])
    rw [takeStream, Frame.readAll_of_end h]
    rfl
  | case3 stream e rest he h =>
    rw [turns, turn_of_error h he, takeStream, Frame.readAll_of_error h he]
    rfl

end turns

end State

/-- **Reading a file ends and accounts for every byte.** Wherever its reads have come to, the next
one takes bytes off the front of what is left, those of the frame alone if it gives one, and meets
the end only if no byte is left. So at most as many reads as the file has bytes come before the end,
which then stays met; if they all give frames, the frames are as long as the file. The loop over the
file ends, and a reader of the file tells the end from all that comes before. -/
theorem reads_exhaust_file (stream : Bytes) :
    (∀ n, let left := (readTimes n stream).2
      left <:+ stream ∧ Frame.Accounted left (readNext left).1 (readNext left).2) ∧
      (∀ n, (repeated readNext stream).take n = (readTimes n stream).1) ∧
      repeated readNext stream =
        outcomes stream ++ₛ Stream'.const (.error .endOfStream) ∧
      (outcomes stream).length ≤ stream.length ∧ .error .endOfStream ∉ outcomes stream ∧
      (∀ frames : List Frame, outcomes stream = frames.map .ok →
        (frames.map (·.bytes.length)).sum = stream.length) ∧
      (∀ skipBadFrames path (s : State) n, stream.length ≤ n →
        (s.begin path).turns skipBadFrames path (n + 1) (.ofBytes stream) =
          some (s.takeFile skipBadFrames path (.ok stream))) ∧
      (Reader.ofBytes stream).atEnd = false ∧
      repeated Reader.call (.ofBytes stream) =
        (outcomes stream).map (·, false) ++ₛ Stream'.const (.error .endOfStream, true) := by
  refine ⟨fun n => ⟨Frame.suffix_readTimes n stream, Frame.accounted_readNext _⟩,
    fun n => Frame.take_repeated_readNext n stream, Frame.repeated_readNext stream,
    Frame.length_outcomes_le stream, Frame.endOfStream_notMem_outcomes stream,
    fun frames hframes => ?_, fun skipBadFrames path s n hn => ?_, rfl, Reader.repeated_call stream⟩
  · rw [← List.length_flatMap, Frame.flatMap_bytes_of_outcomes hframes]
  · rw [State.takeFile_ok]
    exact State.turns_eq_takeStream hn

/-- A byte that no frame starts with and a frame that breaks off are two failed reads before the
end. -/
theorem reads_exhaust_strayByte :
    repeated Reader.call (.ofBytes [7, 8]) =
        [(.error (.badFrame (.metaType 7)), false), (.error (.io .endsInField), false)] ++ₛ
          Stream'.const (.error .endOfStream, true) ∧
      ∀ s : State, (s.begin "a.graw").turns true "a.graw" 3 (.ofBytes [7, 8]) =
        some (s.takeFile true "a.graw" (.ok [7, 8])) := by
  have houtcomes : outcomes [7, 8] =
      [.error (.badFrame (.metaType 7)), .error (.io .endsInField)] := by
    have hstray : readNext [7, 8] = (.error (.badFrame (.metaType 7)), [8]) := rfl
    have hcut : readNext [8] = (.error (.io .endsInField), []) := rfl
    rw [Frame.outcomes_of_ne_nil (List.cons_ne_nil _ _), hstray,
      Frame.outcomes_of_ne_nil (List.cons_ne_nil _ _), hcut, Frame.outcomes_nil]
  obtain ⟨-, -, -, -, -, -, hturns, -, hcalls⟩ := reads_exhaust_file [7, 8]
  rw [houtcomes] at hcalls
  exact ⟨hcalls, fun s => hturns true "a.graw" s 2 (by decide)⟩

end PulseHits.Run
