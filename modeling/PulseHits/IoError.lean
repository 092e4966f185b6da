/-!
# Failures of reading and writing

The ways in which a byte stream or a stored file can fail, and the words in which each is reported.
-/

namespace PulseHits

inductive IoError where
  /-- The stream ends inside a field of fixed size. -/
  | endsInField
  /-- The stream ends inside a frame that declares a length of `declared` bytes. -/
  | endsInFrame (declared held : Nat)
  /-- The stream ends inside the hits of an event. -/
  | endsInHits (event : UInt32) (declared : Nat)
  /-- The medium is full. -/
  | full
  /-- A text file is not well-formed UTF-8. -/
  | notUtf8
  | notFound
  | isDirectory
  | notDirectory
  /-- Any other failure, in the words of the system. -/
  | other (text : String)
  deriving DecidableEq, Repr

def IoError.message : IoError → String
  | .endsInField => "failed to fill whole buffer"
  | .endsInFrame declared held =>
    s!"frame declares {declared} bytes but the stream ended after {held}"
  | .endsInHits event declared =>
    s!"event {event} declares {declared} hits but the stream ended early"
  | .full => "failed to write whole buffer"
  | .notUtf8 => "stream did not contain valid UTF-8"
  | .notFound => "No such file or directory (os error 2)"
  | .isDirectory => "Is a directory (os error 21)"
  | .notDirectory => "Not a directory (os error 20)"
  | .other text => text

end PulseHits
