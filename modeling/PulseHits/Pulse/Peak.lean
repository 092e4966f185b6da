import PulseHits.Channel.Accumulator
import PulseHits.Number.Arithmetic

/-!
# Peak interpolation

The height of a pulse between the samples: a parabola is laid through the highest sample and its
two neighbours, and its vertex is the peak. Where there is no neighbour on one side, or no parabola
with a vertex, the highest sample itself is the peak. Buckets need be neither consecutive nor in
order.
-/

namespace PulseHits.Pulse

open Channel (Sample)

variable {α : Type} [Arithmetic α]

/-- A sample above the baseline. -/
structure Point (α : Type) where
  bucket : α
  height : α

def Point.ofSample (offset : UInt16) (s : Sample) : Point α where
  bucket := s.bucket.toNat
  height := (s.value.toNat : α) - (offset.toNat : α)

/-- The position of the vertex of the parabola through three points, unless they lie on a line. -/
def vertex? (p q r : Point α) : Option α :=
  let denom := (p.height - q.height) * (r.bucket - q.bucket) +
    (r.height - q.height) * (q.bucket - p.bucket)
  if Arithmetic.isZero denom then none
  else
    let numer :=
      (p.height - q.height) * ((r.bucket - q.bucket) * (r.bucket - q.bucket)) -
        (r.height - q.height) * ((q.bucket - p.bucket) * (q.bucket - p.bucket))
    some (q.bucket + numer / (((2 : Nat) : α) * denom))

/-- The value at `x` of the parabola through three points, unless two share a bucket. -/
def parabolaAt? (p q r : Point α) (x : α) : Option α :=
  let d₁ := (p.bucket - q.bucket) * (p.bucket - r.bucket)
  let d₂ := (q.bucket - r.bucket) * (q.bucket - p.bucket)
  let d₃ := (r.bucket - p.bucket) * (r.bucket - q.bucket)
  if Arithmetic.isZero (d₁ * d₂ * d₃) then none
  else
    some (p.height * (x - q.bucket) * (x - r.bucket) / d₁ +
      q.height * (x - r.bucket) * (x - p.bucket) / d₂ +
      r.height * (x - p.bucket) * (x - q.bucket) / d₃)

/-- The peak height around the sample at `index`, above the baseline `offset`. -/
def peakAt (samples : List Sample) (index : Nat) (offset : UInt16) : α :=
  match samples[index]? with
  | none => ((0 : Nat) : α)
  | some s =>
    let q : Point α := .ofSample offset s
    match index with
    | 0 => q.height
    | before + 1 =>
      match samples[before]?, samples[index + 1]? with
      | some s₁, some s₃ =>
        let p : Point α := .ofSample offset s₁
        let r : Point α := .ofSample offset s₃
        ((vertex? p q r).bind (parabolaAt? p q r)).getD q.height
      | _, _ => q.height

end PulseHits.Pulse
