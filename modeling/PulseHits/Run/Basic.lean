import PulseHits.Config.Files
import PulseHits.Frame.Stream
import PulseHits.Hit.File
import PulseHits.Notice
import PulseHits.Number.Binary32
import PulseHits.Readout.Decode

/-!
# Runs

What the processing of runs tells: how far it has come, what it has counted, and why it ended if it
ended early.
-/

namespace PulseHits.Run

/-- Why the processing of a run ended early. -/
inductive Error where
  | noDataFiles (directory : String)
  | stream (cause : Frame.StreamError)
  | frame (cause : Readout.DecodeError)
  | hitFile (cause : Hit.FileError)
  | config (cause : Config.Error)
  /-- Nobody takes the reports of progress. -/
  | observerGone
  | io (cause : IoError)
  deriving DecidableEq, Repr

def Error.message : Error → String
  | .noDataFiles directory =>
    s!"Processor could not find any GRAW files in {Text.quoted directory}"
  | .stream cause => s!"Processor failed due to GrawFile error: {cause.message}"
  | .frame cause => s!"Processor failed due to a malformed frame: {cause.message}"
  | .hitFile cause => s!"Processor failed due to HitFile error: {cause.message}"
  | .config cause => s!"Processor failed due to Config error: {cause.message}"
  | .observerGone => "Processor failed due to Send error: sending on a closed channel"
  | .io cause => s!"Processor failed due to IO error: {cause.message}"

/-- What has been counted in a run. -/
structure Summary where
  frames : Nat
  framesWithHits : Nat
  hits : Nat
  /-- Frames that could not be decoded. -/
  badFrames : Nat
  /-- Frames of an unrecognized kind. -/
  skippedFrames : Nat
  bytes : Nat
  deriving DecidableEq, Repr

def Summary.zero : Summary :=
  ⟨0, 0, 0, 0, 0, 0⟩

/-- A report of progress: the fraction of a run that has been read, and who reads it. -/
structure Status where
  progress : Number.Binary32
  run : Int
  worker : Nat
  deriving DecidableEq, Repr

/-- Who processes runs, and whether somebody takes the reports. -/
structure Worker where
  number : Nat
  observed : Bool
  deriving DecidableEq, Repr

/-- What came of processing, what was reported meanwhile, and what there was to say. -/
structure Report (α : Type) where
  result : Except Error α
  statuses : List Status
  notices : List Notice

end PulseHits.Run
