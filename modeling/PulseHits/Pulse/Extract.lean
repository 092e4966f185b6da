import PulseHits.Pulse.Peak

/-!
# Pulse features

A trace is reduced to three numbers. The baseline is the smaller of its first and last value; the
integral is the sum of the heights above it, the time their centroid over the buckets, and the peak
the interpolated height around the first of the highest samples. A trace whose heights sum to zero
has no centroid, and its time is no finite number.
-/

namespace PulseHits.Pulse

open Channel (Sample)

/-- The features of one trace. -/
structure Features (α : Type) where
  /-- Centroid of the heights, in time buckets. -/
  time : α
  /-- Interpolated height of the highest sample. -/
  peak : α
  /-- Sum of the heights. -/
  integral : α
  deriving DecidableEq, Repr

/-- The smaller of the first and the last value. -/
def baseline? (samples : List Sample) : Option UInt16 :=
  match samples.head?, samples.getLast? with
  | some first, some last => some (min first.value last.value)
  | _, _ => none

/-- The first place of the greatest value in a trace that goes on with `samples` at place `index`,
where `best` is the greatest value so far and `bestIndex` its place. -/
def peakIndexFrom (index bestIndex : Nat) (best : UInt16) : (samples : List Sample) → Nat
  | [] => bestIndex
  | s :: rest =>
    if best < s.value then peakIndexFrom (index + 1) index s.value rest
    else peakIndexFrom (index + 1) bestIndex best rest

/-- The first place of the greatest value. -/
def peakIndex : (samples : List Sample) → Nat
  | [] => 0
  | s :: rest => peakIndexFrom 1 0 s.value rest

variable {α : Type} [Arithmetic α]

def integral (points : List (Point α)) : α :=
  points.foldl (fun sum p => sum + p.height) ((0 : Nat) : α)

/-- The sum of the heights, each weighted with its bucket. -/
def moment (points : List (Point α)) : α :=
  points.foldl (fun sum p => sum + p.bucket * p.height) ((0 : Nat) : α)

/-- The features of a trace; an empty one has none. -/
def features? (samples : List Sample) : Option (Features α) :=
  (baseline? samples).map fun offset =>
    let points : List (Point α) := samples.map (Point.ofSample offset)
    let sum := integral points
    { time := moment points / sum
      peak := peakAt samples (peakIndex samples) offset
      integral := sum }

end PulseHits.Pulse
