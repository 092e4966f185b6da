import PulseHits.Frame.Basic
import PulseHits.Text.Quoted

/-!
# Streams of frames

A data file is frames one after the other. A reader takes them off the front; the declared frame
size alone decides how many bytes a frame takes, so a frame whose layout is refused does not shift
the ones behind it.
-/

namespace PulseHits.Frame

/-- The bytes that tell how long a frame is: meta type and frame size. -/
def preambleSize : Nat := 4

/-- Why no frame was read. -/
inductive StreamError where
  | badFrame (cause : Error)
  | missingFile (path : String)
  | endOfStream
  | io (cause : IoError)
  deriving DecidableEq, Repr

def StreamError.message : StreamError → String
  | .badFrame cause => s!"Error when parsing MfmFrame from GrawFile: {cause.message}"
  | .missingFile path =>
    s!"Could not open GrawFile because file {Text.quoted path} does not exist"
  | .endOfStream => "Reached end of GrawFile"
  | .io cause => s!"GrawFile failed due to IO error: {cause.message}"

/-- Takes the next frame off a stream and gives what is left of it. A byte that cannot start a
frame is consumed alone; a stream that ends inside a frame is consumed whole. -/
def readNext : (stream : Bytes) → Except StreamError Frame × Bytes
  | [] => (.error .endOfStream, [])
  | first :: rest =>
    if first.toNat ≠ expectedMetaType then
      (.error (.badFrame (.metaType first.toNat)), rest)
    else if rest.length < 3 then (.error (.io .endsInField), [])
    else
      let length := max (blockSize * Bytes.fieldBE rest 0 3) preambleSize
      let stream := first :: rest
      if stream.length < length then
        (.error (.io (.endsInFrame length stream.length)), [])
      else
        ((parse (stream.take length)).mapError .badFrame, stream.drop length)

theorem length_readNext_lt {stream : Bytes} (h : stream ≠ []) :
    (readNext stream).2.length < stream.length := by
  cases stream with
  | nil => exact absurd rfl h
  | cons first rest =>
    have hmax : ∀ n, 0 < max n preambleSize := fun n => by
      simp only [preambleSize]
      omega
    simp only [readNext]
    split
    · simp
    · split
      · simp
      · split
        · simp
        · have := hmax (blockSize * Bytes.fieldBE rest 0 3)
          simp only [List.length_drop, List.length_cons]
          omega

theorem length_lt_of_readNext_ok {stream rest : Bytes} {f : Frame}
    (h : readNext stream = (.ok f, rest)) : rest.length < stream.length := by
  have hne : stream ≠ [] := by
    rintro rfl
    simp [readNext] at h
  simpa [h] using length_readNext_lt hne

/-- The frames of a stream up to the first that cannot be read, and why it cannot. -/
def readAll (stream : Bytes) : List Frame × Option StreamError :=
  match h : readNext stream with
  | (.ok f, rest) =>
    have := length_lt_of_readNext_ok h
    let (frames, error?) := readAll rest
    (f :: frames, error?)
  | (.error .endOfStream, _) => ([], none)
  | (.error e, _) => ([], some e)
termination_by stream.length

/-- A data file that is being read: what is left of it, and whether its end has been met. -/
structure Reader where
  rest : Bytes
  atEnd : Bool
  deriving DecidableEq, Repr

namespace Reader

def ofBytes (b : Bytes) : Reader :=
  ⟨b, false⟩

/-- Reads the next frame. Once the end has been met, it stays met. -/
def next (r : Reader) : Except StreamError Frame × Reader :=
  if r.atEnd then (.error .endOfStream, r)
  else
    let (result, rest) := readNext r.rest
    match result with
    | .error .endOfStream => (result, ⟨rest, true⟩)
    | _ => (result, ⟨rest, false⟩)

end Reader

end PulseHits.Frame
