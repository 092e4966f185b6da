import Mathlib.Data.Stream.Init

/-!
# Calling a reader again and again

A reader gives something and leaves a state behind. `repeated` lists what it gives when it is called
without end, each time on the state that the call before has left.
-/

namespace PulseHits

variable {σ α : Type} {call : σ → α × σ} {s : σ}

/-- What repeated calls give, from a state on. -/
def repeated (call : σ → α × σ) (s : σ) : Stream' α :=
  Stream'.corec' call s

theorem repeated_eq_cons (call : σ → α × σ) (s : σ) :
    repeated call s = Stream'.cons (call s).1 (repeated call (call s).2) :=
  Stream'.corec'_eq call s

theorem repeated_eq_const {a : α} (h : call s = (a, s)) : repeated call s = Stream'.const a := by
  refine Stream'.ext fun n => ?_
  induction n with
  | zero =>
    rw [repeated_eq_cons, h]
    rfl
  | succ n ih =>
    rw [repeated_eq_cons, h]
    exact ih

end PulseHits
