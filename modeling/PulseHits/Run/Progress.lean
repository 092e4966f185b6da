import PulseHits.Number.Binary32

/-!
# Progress

Progress is reported in steps of one hundredth. A step is due when more bytes than a hundredth of
the run have been read since the last one, so the reports do not run ahead of the reading.
-/

namespace PulseHits.Run

open Number (Binary32 Binary64 Datum)

/-- The fraction of a run in one step. -/
def stepFraction : Binary32 :=
  .ofRat (1 / 100)

/-- The bytes that are read without a report, for a run of `total` bytes. -/
def flushLimit (total : Nat) : Nat :=
  match ((total : Binary64) * stepFraction.toBinary64).datum with
  | .finite _ value => value.floor.toNat
  | _ => 0

structure Progress where
  flushLimit : Nat
  /-- The bytes that have been read since the last report. -/
  unreported : Nat
  fraction : Binary32
  deriving DecidableEq, Repr

namespace Progress

def start (total : Nat) : Progress :=
  ⟨Run.flushLimit total, 0, .ofRat 0⟩

/-- A fraction that is greater than one counts as one. -/
def atMostOne (x : Binary32) : Binary32 :=
  match x.datum with
  | .finite _ value => if 1 < value then .ofRat 1 else x
  | _ => .ofRat 1

/-- Counts bytes that have been read. Gives the fraction to report if a report is due. -/
def advance (p : Progress) (bytes : Nat) : Progress × Option Binary32 :=
  let unreported := p.unreported + bytes
  if p.flushLimit < unreported then
    let fraction := p.fraction + stepFraction
    ({ p with unreported := 0, fraction := fraction }, some (atMostOne fraction))
  else ({ p with unreported := unreported }, none)

end Progress

end PulseHits.Run
