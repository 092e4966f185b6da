import PulseHits.Readout.Hits
import PulseHits.Run.Basic
import PulseHits.Run.Progress

/-!
# The frames of a run

The data files of a run are taken in one after the other, and the frames of a file in their order.
Every frame is counted; one of a recognized kind is reduced to hits, and its hits go to the hit
file. The first failure ends the run, and what was written before it stays written.
-/

namespace PulseHits.Run

/-- What has come of the frames that were taken in. -/
structure State where
  progress : Progress
  /-- The fractions that were reported, in order. -/
  reported : Array Number.Binary32
  notices : Array Notice
  summary : Summary
  hitFile : Hit.Writer
  /-- The channels as the last frame left them. -/
  channels : Channel.Accumulator

namespace State

/-- Before the first frame of a run of `total` bytes. That nothing has been read is reported. -/
def start (total : Nat) : State where
  progress := .start total
  reported := #[.ofRat 0]
  notices := #[]
  summary := .zero
  hitFile := .new .unbounded
  channels := .empty

def say (s : State) (level : Level) (text : String) : State :=
  { s with notices := s.notices.push ⟨level, text⟩ }

/-- Counts a frame by its size. -/
def count (s : State) (bytes : Nat) : State :=
  let (progress, due?) := s.progress.advance bytes
  { s with
    progress := progress
    reported := s.reported ++ due?.toArray
    summary :=
      { s.summary with frames := s.summary.frames + 1, bytes := s.summary.bytes + bytes } }

/-- Writes the hits of a frame. A frame without hits leaves no record. -/
def writeHits (s : State) (e : Hit.EventHits) : State × Option Error :=
  match s.hitFile.write e with
  | (.error cause, w) => ({ s with hitFile := w }, some (.hitFile cause))
  | (.ok false, w) => ({ s with hitFile := w }, none)
  | (.ok true, w) =>
    ({ s with
      hitFile := w
      summary :=
        { s.summary with
          framesWithHits := s.summary.framesWithHits + 1
          hits := s.summary.hits + e.hits.length } }, none)

/-- Takes in a frame of the file at `path`, and gives the reason if the run ends with it. -/
def takeFrame (skipBadFrames : Bool) (path : String) (s : State) (f : Frame) :
    State × Option Error :=
  let s := s.count f.bytes.length
  let event := f.header.eventId
  let view := f.view
  match (Readout.classify view).kind with
  | .unrecognized code =>
    let s := { s with
      summary := { s.summary with skippedFrames := s.summary.skippedFrames + 1 } }
    (s.say .debug s!"Skipping frame of type {code} for event {event} in {path}", none)
  | _ =>
    let outcome := Readout.processWith view s.channels
    let s := { s with
      notices := s.notices ++ outcome.notices.toArray
      channels := outcome.channels }
    match outcome.result with
    | .ok hits => s.writeHits ⟨event.toUInt32, f.header.eventTime.toUInt64, hits⟩
    | .error cause =>
      if skipBadFrames then
        let s := { s with summary := { s.summary with badFrames := s.summary.badFrames + 1 } }
        (s.say .warn s!"Dropping frame for event {event} in {path}: {cause.message}", none)
      else (s.say .error s!"Bad frame for event {event} in {path}", some (.frame cause))

def takeFrames (skipBadFrames : Bool) (path : String) (s : State) :
    List Frame → State × Option Error
  | [] => (s, none)
  | f :: rest =>
    match s.takeFrame skipBadFrames path f with
    | (s, none) => s.takeFrames skipBadFrames path rest
    | (s, some e) => (s, some e)

/-- Takes in a data file with what could be read of it. The frames of one file share their
channels. -/
def takeFile (skipBadFrames : Bool) (s : State) (path : String) (content : Except IoError Bytes) :
    State × Option Error :=
  let s := { s.say .info s!"Processing {path}..." with channels := .empty }
  match content with
  | .error cause => (s, some (.stream (.io cause)))
  | .ok stream =>
    let (frames, streamError?) := Frame.readAll stream
    match s.takeFrames skipBadFrames path frames with
    | (s, none) => (s, streamError?.map .stream)
    | (s, some e) => (s, some e)

def takeFiles (skipBadFrames : Bool) (s : State) :
    List (String × Except IoError Bytes) → State × Option Error
  | [] => (s, none)
  | (path, content) :: rest =>
    match s.takeFile skipBadFrames path content with
    | (s, none) => s.takeFiles skipBadFrames rest
    | (s, some e) => (s, some e)

end State

end PulseHits.Run
