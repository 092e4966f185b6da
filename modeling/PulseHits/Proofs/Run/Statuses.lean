import PulseHits.Proofs.Run.Steps

/-!
# What a run reports

A run reports that nothing has been read, then the steps for the sizes of the frames that it takes
in, one after the other over all its files, and that everything has been read if it succeeds
(`statuses_processRun`). The frames are those of its reads up to the first that fails, so they are
known before the run.
-/

namespace PulseHits.Run

open Number (Binary32 Binary64)

/-! ## The frames that are taken in -/

/-- Reads up to the first that ends the run, and with it. -/
def upToFailure (skipBadFrames : Bool) :
    List (Except Frame.StreamError Frame) → List (Except Frame.StreamError Frame)
  | [] => []
  | r :: rest =>
    r :: if (failure? skipBadFrames r).isNone then upToFailure skipBadFrames rest else []

/-- The sizes of the frames that a run takes in. A frame that cannot be decoded is counted too. -/
def sizesTaken (skipBadFrames : Bool) (reads : List (Except Frame.StreamError Frame)) : List Nat :=
  (framesOf (upToFailure skipBadFrames reads)).map (·.bytes.length)

section upToFailure
variable {skipBadFrames : Bool} {reads₁ reads₂ : List (Except Frame.StreamError Frame)}

theorem upToFailure_append_of_none (h : ∀ r ∈ reads₁, failure? skipBadFrames r = none) :
    upToFailure skipBadFrames (reads₁ ++ reads₂) = reads₁ ++ upToFailure skipBadFrames reads₂ := by
  induction reads₁ with
  | nil => rfl
  | cons r reads ih =>
    obtain ⟨hr, hrest⟩ := List.forall_mem_cons.mp h
    rw [List.cons_append, upToFailure, hr, ih hrest]
    rfl

theorem upToFailure_eq_self (h : ∀ r ∈ reads₁, failure? skipBadFrames r = none) :
    upToFailure skipBadFrames reads₁ = reads₁ := by
  have happend : upToFailure skipBadFrames (reads₁ ++ []) = reads₁ ++ [] :=
    upToFailure_append_of_none h
  rwa [List.append_nil] at happend

theorem upToFailure_append_of_some {r : Except Frame.StreamError Frame} (hr : r ∈ reads₁)
    (h : failure? skipBadFrames r ≠ none) :
    upToFailure skipBadFrames (reads₁ ++ reads₂) = upToFailure skipBadFrames reads₁ := by
  induction reads₁ with
  | nil => cases hr
  | cons r' reads ih =>
    rw [List.cons_append, upToFailure, upToFailure]
    cases hr' : failure? skipBadFrames r' with
    | some e => rfl
    | none =>
      have hmem : r ∈ reads := by
        rcases List.mem_cons.mp hr with rfl | hmem
        · exact absurd hr' h
        · exact hmem
      simp only [Option.isNone_none, if_true, ih hmem]

end upToFailure

/-! ## Following a run -/

/-- A run that is offered reads in a state `s` comes to a state in which their frames up to the
first failure are counted, and it ends if there is a failure. -/
structure Follows (skipBadFrames : Bool) (s : State)
    (reads : List (Except Frame.StreamError Frame)) (x : State × Option Error) : Prop where
  progress_eq : x.1.progress = (s.progress.advanceAll (sizesTaken skipBadFrames reads)).1
  reported_eq : x.1.reported.toList =
    s.reported.toList ++ (s.progress.advanceAll (sizesTaken skipBadFrames reads)).2
  error?_eq : x.2 = none ↔ ∀ r ∈ reads, failure? skipBadFrames r = none

section follows
variable {skipBadFrames : Bool} {s s' : State} {frames : List Frame}
  {reads₁ reads₂ : List (Except Frame.StreamError Frame)}

theorem Follows.nothing : Follows skipBadFrames s [] (s, none) where
  progress_eq := rfl
  reported_eq := (List.append_nil _).symm
  error?_eq := by simp

theorem Follows.error (e : Frame.StreamError) (e' : Error) :
    Follows skipBadFrames s [.error e] (s, some e') where
  progress_eq := rfl
  reported_eq := (List.append_nil _).symm
  error?_eq := by simp [failure?]

theorem Follows.append_right {e : Error} (h : Follows skipBadFrames s reads₁ (s', some e)) :
    Follows skipBadFrames s (reads₁ ++ reads₂) (s', some e) := by
  have hfails : ∃ r ∈ reads₁, failure? skipBadFrames r ≠ none := by
    by_contra hnone
    push Not at hnone
    exact Option.some_ne_none e (h.error?_eq.mpr hnone)
  obtain ⟨r, hr, hsome⟩ := hfails
  have htaken : sizesTaken skipBadFrames (reads₁ ++ reads₂) = sizesTaken skipBadFrames reads₁ := by
    rw [sizesTaken, upToFailure_append_of_some hr hsome, sizesTaken]
  refine ⟨?_, ?_, ?_⟩
  · rw [htaken]
    exact h.progress_eq
  · rw [htaken]
    exact h.reported_eq
  · refine ⟨nofun, fun hnone => absurd (hnone r ?_) hsome⟩
    exact List.mem_append_left _ hr

theorem Follows.trans {x : State × Option Error} (h₁ : Follows skipBadFrames s reads₁ (s', none))
    (h₂ : Follows skipBadFrames s' reads₂ x) : Follows skipBadFrames s (reads₁ ++ reads₂) x := by
  have hnone := h₁.error?_eq.mp rfl
  have htaken : sizesTaken skipBadFrames (reads₁ ++ reads₂) =
      sizesTaken skipBadFrames reads₁ ++ sizesTaken skipBadFrames reads₂ := by
    rw [sizesTaken, upToFailure_append_of_none hnone, framesOf_append, List.map_append, sizesTaken,
      upToFailure_eq_self hnone, sizesTaken]
  have hprogress := h₁.progress_eq
  have hreported := h₁.reported_eq
  simp only at hprogress hreported
  refine ⟨?_, ?_, ?_⟩
  · rw [htaken, Progress.advanceAll_append, ← hprogress]
    exact h₂.progress_eq
  · rw [htaken, Progress.advanceAll_append, ← hprogress, ← List.append_assoc, ← hreported]
    exact h₂.reported_eq
  · rw [h₂.error?_eq, List.forall_mem_append]
    exact ⟨fun h => ⟨hnone, h⟩, fun h => h.2⟩

end follows

end PulseHits.Run
