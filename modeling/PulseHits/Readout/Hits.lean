import PulseHits.Hit.Basic
import PulseHits.Readout.Decode

/-!
# The hits of a frame

A frame gives one hit for each channel that received a sample, in the order of the channels. A
frame of an unrecognized kind gives none, and one that cannot be decoded gives an error and no hits
at all.
-/

namespace PulseHits.Readout

open Channel (Accumulator)

/-- The hits of a frame, the channels as they are afterwards and what there was to say. -/
structure Outcome where
  result : Except DecodeError (List Hit)
  channels : Accumulator
  notices : List Notice

/-- The hits of the channels that have samples. -/
def hitsOf (c : Class) (channels : Accumulator) : List Hit :=
  channels.active.filterMap fun (key, samples) => Hit.ofTrace? c.cobo c.asad key samples

/-- Reduces a frame to hits. The samples collected from earlier frames are dropped first, so nothing
carries over from frame to frame. -/
def processWith (v : View) (channels : Accumulator) : Outcome :=
  let channels := channels.clear
  let c := classify v
  match c.kind with
  | .partialReadout =>
    let d := decodePartial v.items channels
    match d.error? with
    | some e => ⟨.error e, d.channels, d.notices⟩
    | none => ⟨.ok (hitsOf c d.channels), d.channels, d.notices⟩
  | .fullReadout =>
    let channels := decodeFull v.items channels
    ⟨.ok (hitsOf c channels), channels, []⟩
  | .unrecognized code =>
    ⟨.ok [], channels, [⟨.debug, s!"Skipping frame with unrecognized frame type {code}"⟩]⟩

def process (v : View) : Outcome :=
  processWith v .empty

/-- What a frame leaves in the channels makes no difference to the next. -/
theorem processWith_eq_process (v : View) (channels : Accumulator) :
    processWith v channels = process v := by
  simp only [process, processWith, Accumulator.clear_eq_empty]

end PulseHits.Readout
