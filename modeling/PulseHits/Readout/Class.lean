import PulseHits.Frame.View

/-!
# Classification of frames

The frame type in the header tells in which of two ways the items of a frame carry samples. A frame
of any other type is not an error: it has no samples to offer.
-/

namespace PulseHits.Readout

/-- How the items of a frame carry samples. -/
inductive Kind where
  /-- Each item carries its own channel and time bucket. -/
  | partialReadout
  /-- Channels take turns, and the buckets are implied. -/
  | fullReadout
  | unrecognized (code : UInt16)
  deriving DecidableEq, Repr

def Kind.ofCode (code : UInt16) : Kind :=
  if code = 1 then .partialReadout
  else if code = 2 then .fullReadout
  else .unrecognized code

/-- What the header says about a frame: its kind and the boards it comes from. -/
structure Class where
  kind : Kind
  cobo : UInt8
  asad : UInt8
  deriving DecidableEq, Repr

/-! ## The header fields, counted from the first bit of the header -/

def typeOffset : Nat := 40
def typeWidth : Nat := 16
def coboOffset : Nat := 208
def coboWidth : Nat := 8
def asadOffset : Nat := 216
def asadWidth : Nat := 8

/-- Reads the class off a header. Of a field that is too large the low bits are kept. -/
def classify (v : View) : Class where
  kind := .ofCode (v.headerField typeOffset typeWidth).toUInt16
  cobo := (v.headerField coboOffset coboWidth).toUInt8
  asad := (v.headerField asadOffset asadWidth).toUInt8

end PulseHits.Readout
