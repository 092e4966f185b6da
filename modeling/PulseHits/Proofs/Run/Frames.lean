import PulseHits.Proofs.Frame.Stream
import PulseHits.Proofs.Hit.Record
import PulseHits.Run.Frames

/-!
# What the frames of a run leave

A run takes in what its reads give, one after the other. `failure?` says which of them end it,
`record?` what a frame leaves in the hit file and `Summary.ofFrames` what is counted. One step keeps
the invariant `State.Counted` or ends the run with the hit file as it was (`takeFrame_of_none`,
`takeFrame_of_some`); so the hit file always holds the records of the frames before the first
failure, whichever file that is in (`taken_takeFiles`).
-/

namespace PulseHits.Run

/-! ## What a frame contributes -/

/-- The record that a frame leaves in the hit file. A frame without hits leaves none. -/
def record? (f : Frame) : Option Hit.EventHits :=
  match (Readout.process f.view).result with
  | .ok (hit :: hits) => some ⟨f.header.eventId.toUInt32, f.header.eventTime.toUInt64, hit :: hits⟩
  | _ => none

def records (frames : List Frame) : List Hit.EventHits :=
  frames.filterMap record?

def isUnrecognized (f : Frame) : Bool :=
  match (Readout.classify f.view).kind with
  | .unrecognized _ => true
  | _ => false

/-- The frame cannot be decoded. -/
def isBad (f : Frame) : Bool :=
  !(Readout.process f.view).result.isOk

/-- What is counted of frames that are all taken in. -/
def Summary.ofFrames (frames : List Frame) : Summary where
  frames := frames.length
  framesWithHits := (records frames).length
  hits := ((records frames).map (·.hits.length)).sum
  badFrames := frames.countP isBad
  skippedFrames := frames.countP isUnrecognized
  bytes := (frames.map (·.bytes.length)).sum

/-- Why what a read gives ends the run, if it does. -/
def failure? (skipBadFrames : Bool) : Except Frame.StreamError Frame → Option Error
  | .error e => some (.stream e)
  | .ok f =>
    match (Readout.process f.view).result with
    | .error e => if skipBadFrames then none else some (.frame e)
    | .ok _ => none

/-- The frames among what reads give. -/
def framesOf (reads : List (Except Frame.StreamError Frame)) : List Frame :=
  reads.filterMap (·.toOption)

theorem process_of_unrecognized {f : Frame} {code : UInt16}
    (h : (Readout.classify f.view).kind = .unrecognized code) :
    (Readout.process f.view).result = .ok [] := by
  simp only [Readout.process, Readout.processWith, h]

theorem records_concat (frames : List Frame) (f : Frame) :
    records (frames ++ [f]) = records frames ++ (record? f).toList := by
  rw [records, List.filterMap_append, ← records]
  cases h : record? f <;> simp [h]

/-- The counts with one frame more. -/
def Summary.add (n : Summary) (f : Frame) : Summary where
  frames := n.frames + 1
  framesWithHits := n.framesWithHits + (record? f).toList.length
  hits := n.hits + ((record? f).toList.map (·.hits.length)).sum
  badFrames := n.badFrames + if isBad f then 1 else 0
  skippedFrames := n.skippedFrames + if isUnrecognized f then 1 else 0
  bytes := n.bytes + f.bytes.length

theorem Summary.ofFrames_concat (frames : List Frame) (f : Frame) :
    Summary.ofFrames (frames ++ [f]) = (Summary.ofFrames frames).add f := by
  simp [Summary.ofFrames, Summary.add, records_concat, List.countP_append]

/-! ## One frame -/

namespace State

/-- The hit file holds the records of `frames`. -/
structure Wrote (s : State) (frames : List Frame) : Prop where
  unlimited : s.hitFile.medium.capacity? = none
  bytes_eq : s.hitFile.bytes = (records frames).flatMap Hit.EventHits.encode

/-- All of `frames` were taken in, and nothing else. -/
structure Counted (s : State) (frames : List Frame) : Prop extends Wrote s frames where
  summary_eq : s.summary = .ofFrames frames

theorem counted_start (total : Nat) : (start total).Counted [] where
  unlimited := rfl
  bytes_eq := rfl
  summary_eq := rfl

variable {s s' : State} {frames : List Frame} {f : Frame} {skipBadFrames : Bool} {path : String}

theorem Wrote.congr (h : s.Wrote frames) (hfile : s'.hitFile = s.hitFile) : s'.Wrote frames := by
  refine ⟨?_, ?_⟩
  · rw [hfile]
    exact h.unlimited
  · rw [hfile]
    exact h.bytes_eq

theorem Counted.congr (h : s.Counted frames) (hfile : s'.hitFile = s.hitFile)
    (hsummary : s'.summary = s.summary) : s'.Counted frames :=
  ⟨h.toWrote.congr hfile, hsummary.trans h.summary_eq⟩

theorem Counted.concat (h : s.Counted frames) (hcapacity : s'.hitFile.medium.capacity? = none)
    (hbytes : s'.hitFile.bytes =
      s.hitFile.bytes ++ (record? f).toList.flatMap Hit.EventHits.encode)
    (hsummary : s'.summary = s.summary.add f) : s'.Counted (frames ++ [f]) := by
  refine ⟨⟨hcapacity, ?_⟩, ?_⟩
  · rw [hbytes, h.bytes_eq, records_concat, List.flatMap_append]
  · rw [hsummary, h.summary_eq, Summary.ofFrames_concat]

theorem Counted.concat_of_record?_eq_none (h : s.Counted frames) (hrecord : record? f = none)
    (hfile : s'.hitFile = s.hitFile) (hsummary : s'.summary = s.summary.add f) :
    s'.Counted (frames ++ [f]) := by
  refine h.concat ?_ ?_ hsummary
  · rw [hfile]
    exact h.unlimited
  · rw [hfile, hrecord, Option.toList_none, List.flatMap_nil, List.append_nil]

/-- The state in which the hits of a recognized frame are known. -/
def decoded (s : State) (f : Frame) : State :=
  let outcome := Readout.process f.view
  { s.count f.bytes.length with
    notices := (s.count f.bytes.length).notices ++ outcome.notices.toArray
    channels := outcome.channels }

theorem takeFrame_of_recognized (h : isUnrecognized f = false) :
    s.takeFrame skipBadFrames path f =
      match (Readout.process f.view).result with
      | .ok hits =>
        (s.decoded f).writeHits ⟨f.header.eventId.toUInt32, f.header.eventTime.toUInt64, hits⟩
      | .error cause =>
        if skipBadFrames then
          ({ s.decoded f with
              summary := { (s.decoded f).summary with
                badFrames := (s.decoded f).summary.badFrames + 1 } }.say .warn
            s!"Dropping frame for event {f.header.eventId} in {path}: {cause.message}", none)
        else
          ((s.decoded f).say .error s!"Bad frame for event {f.header.eventId} in {path}",
            some (.frame cause)) := by
  rw [isUnrecognized] at h
  rw [takeFrame]
  split
  · next hkind => simp [hkind] at h
  · simp only [Readout.processWith_eq_process]
    rfl

/-- **One step.** A frame that does not end the run is counted, and its record is written. -/
theorem takeFrame_of_none (path : String) (hs : s.Counted frames)
    (hf : failure? skipBadFrames (.ok f) = none) :
    ∃ s', s.takeFrame skipBadFrames path f = (s', none) ∧ s'.Counted (frames ++ [f]) := by
  cases hknown : isUnrecognized f with
  | true =>
    have hkind := hknown
    rw [isUnrecognized] at hkind
    split at hkind
    · next code hcode =>
      have hresult := process_of_unrecognized hcode
      have hrecord : record? f = none := by rw [record?, hresult]
      have hbad : isBad f = false := by rw [isBad, hresult]; rfl
      refine ⟨_, by rw [takeFrame]; simp only [hcode]; rfl, ?_⟩
      refine hs.concat_of_record?_eq_none hrecord rfl ?_
      simp [Summary.add, hrecord, hbad, hknown, say, count]
    · cases hkind
  | false =>
    rw [takeFrame_of_recognized hknown]
    cases hresult : (Readout.process f.view).result with
    | error cause =>
      have hskip : skipBadFrames = true := by
        simpa [failure?, hresult] using hf
      have hrecord : record? f = none := by rw [record?, hresult]
      have hbad : isBad f = true := by rw [isBad, hresult]; rfl
      refine ⟨_, by simp only [if_pos hskip]; rfl, ?_⟩
      refine hs.concat_of_record?_eq_none hrecord rfl ?_
      simp [Summary.add, hrecord, hbad, hknown, say, count, decoded]
    | ok hits =>
      have hbad : isBad f = false := by rw [isBad, hresult]; rfl
      cases hits with
      | nil =>
        have hrecord : record? f = none := by rw [record?, hresult]
        refine ⟨_, by simp only [writeHits, Hit.Writer.write_of_isEmpty]; rfl, ?_⟩
        refine hs.concat_of_record?_eq_none hrecord rfl ?_
        simp [Summary.add, hrecord, hbad, hknown, count, decoded]
      | cons hit hits =>
        have hrecord : record? f = some
            ⟨f.header.eventId.toUInt32, f.header.eventTime.toUInt64, hit :: hits⟩ := by
          rw [record?, hresult]
        have hwrite := Hit.Writer.write_unbounded (w := (s.decoded f).hitFile)
          (e := ⟨f.header.eventId.toUInt32, f.header.eventTime.toUInt64, hit :: hits⟩)
          hs.unlimited (List.cons_ne_nil _ _)
        refine ⟨_, by simp only [writeHits, hwrite]; rfl, ?_⟩
        refine hs.concat rfl ?_ ?_
        · simp [hrecord, Hit.Writer.bytes, decoded, count]
        · simp [Summary.add, hrecord, hbad, hknown, count, decoded]

/-- **The last step.** A frame that ends the run leaves the hit file as it was. -/
theorem takeFrame_of_some (path : String) (hs : s.Counted frames) {e : Error}
    (hf : failure? skipBadFrames (.ok f) = some e) :
    ∃ s', s.takeFrame skipBadFrames path f = (s', some e) ∧ s'.Wrote frames := by
  cases hresult : (Readout.process f.view).result with
  | ok hits => simp [failure?, hresult] at hf
  | error cause =>
    have hf' : skipBadFrames = false ∧ Error.frame cause = e := by
      simpa [failure?, hresult] using hf
    have hknown : isUnrecognized f = false := by
      rw [isUnrecognized]
      split
      · next hcode => simp [process_of_unrecognized hcode] at hresult
      · rfl
    rw [takeFrame_of_recognized hknown, hresult, ← hf'.2]
    refine ⟨_, by simp only [hf'.1, Bool.false_eq_true, if_false]; rfl, ?_⟩
    exact hs.toWrote.congr rfl

end State

/-! ## All frames of a run -/

/-- What the reads of a file give. One that cannot be opened fails at once. -/
def readsOf : (content : Except IoError Bytes) → List (Except Frame.StreamError Frame)
  | .error cause => [.error (.io cause)]
  | .ok stream => Frame.attempts stream

/-- What the reads of all files give, file after file. -/
def reads (files : List (String × Except IoError Bytes)) :
    List (Except Frame.StreamError Frame) :=
  files.flatMap fun p => readsOf p.2

/-- What comes of taking in reads after `frames`: they all are taken in, or those before the first
that ends the run. -/
inductive Taken (skipBadFrames : Bool) (frames : List Frame)
    (reads : List (Except Frame.StreamError Frame)) : State × Option Error → Prop
  | all {s : State} (hnone : ∀ r ∈ reads, failure? skipBadFrames r = none)
      (hs : s.Counted (frames ++ framesOf reads)) : Taken skipBadFrames frames reads (s, none)
  | upTo {s : State} (before after : List (Except Frame.StreamError Frame))
      {r : Except Frame.StreamError Frame} {e : Error} (hreads : reads = before ++ r :: after)
      (hnone : ∀ b ∈ before, failure? skipBadFrames b = none)
      (hsome : failure? skipBadFrames r = some e)
      (hs : s.Wrote (frames ++ framesOf before)) : Taken skipBadFrames frames reads (s, some e)

section taken
variable {s : State} {frames : List Frame} {skipBadFrames : Bool}
  {reads₁ reads₂ : List (Except Frame.StreamError Frame)}

theorem framesOf_append (reads₁ reads₂ : List (Except Frame.StreamError Frame)) :
    framesOf (reads₁ ++ reads₂) = framesOf reads₁ ++ framesOf reads₂ :=
  List.filterMap_append

theorem framesOf_map_ok (frames : List Frame) : framesOf (frames.map .ok) = frames := by
  induction frames with
  | nil => rfl
  | cons f frames ih =>
    show f :: framesOf (frames.map .ok) = f :: frames
    rw [ih]

theorem Taken.nothing (hs : s.Counted frames) : Taken skipBadFrames frames [] (s, none) := by
  refine .all (by simp) ?_
  rwa [framesOf, List.filterMap_nil, List.append_nil]

theorem Taken.atOnce {r : Except Frame.StreamError Frame} {e : Error} (hs : s.Wrote frames)
    (hr : failure? skipBadFrames r = some e) : Taken skipBadFrames frames [r] (s, some e) := by
  refine .upTo [] [] rfl (by simp) hr ?_
  rwa [framesOf, List.filterMap_nil, List.append_nil]

theorem Taken.append_right {e : Error} (h : Taken skipBadFrames frames reads₁ (s, some e)) :
    Taken skipBadFrames frames (reads₁ ++ reads₂) (s, some e) := by
  cases h with
  | upTo before after hreads hnone hsome hs =>
    refine .upTo before (after ++ reads₂) ?_ hnone hsome hs
    rw [hreads, List.append_assoc, List.cons_append]

theorem Taken.trans {x : State × Option Error} (h₁ : Taken skipBadFrames frames reads₁ (s, none))
    (h₂ : s.Counted (frames ++ framesOf reads₁) →
      Taken skipBadFrames (frames ++ framesOf reads₁) reads₂ x) :
    Taken skipBadFrames frames (reads₁ ++ reads₂) x := by
  cases h₁ with
  | all hnone₁ hs₁ =>
    cases h₂ hs₁ with
    | all hnone hs =>
      refine .all (fun r hr => ?_) ?_
      · rcases List.mem_append.mp hr with hr | hr
        · exact hnone₁ r hr
        · exact hnone r hr
      · rwa [framesOf_append, ← List.append_assoc]
    | upTo before after hreads hnone hsome hs =>
      refine .upTo (reads₁ ++ before) after ?_ (fun b hb => ?_) hsome ?_
      · rw [hreads, List.append_assoc]
      · rcases List.mem_append.mp hb with hb | hb
        · exact hnone₁ b hb
        · exact hnone b hb
      · rwa [framesOf_append, ← List.append_assoc]

theorem taken_takeFrame (skipBadFrames : Bool) (path : String) (hs : s.Counted frames) (f : Frame) :
    Taken skipBadFrames frames [.ok f] (s.takeFrame skipBadFrames path f) := by
  cases hf : failure? skipBadFrames (.ok f) with
  | none =>
    obtain ⟨s', htake, hs'⟩ := State.takeFrame_of_none path hs hf
    rw [htake]
    exact .all (by simpa using hf) hs'
  | some e =>
    obtain ⟨s', htake, hs'⟩ := State.takeFrame_of_some path hs hf
    rw [htake]
    exact .atOnce hs' hf

theorem taken_takeFrames (skipBadFrames : Bool) (path : String) (hs : s.Counted frames)
    (fs : List Frame) :
    Taken skipBadFrames frames (fs.map .ok) (s.takeFrames skipBadFrames path fs) := by
  induction fs generalizing s frames with
  | nil => exact .nothing hs
  | cons f fs ih =>
    have hstep := taken_takeFrame skipBadFrames path hs f
    rw [State.takeFrames, List.map_cons, ← List.singleton_append]
    split
    · next s' htake =>
      rw [htake] at hstep
      exact hstep.trans fun hs' => ih hs'
    · next s' e htake =>
      rw [htake] at hstep
      exact hstep.append_right

theorem taken_takeFile (skipBadFrames : Bool) (path : String) (hs : s.Counted frames)
    (content : Except IoError Bytes) :
    Taken skipBadFrames frames (readsOf content) (s.takeFile skipBadFrames path content) := by
  have hs' : State.Counted { s.say .info s!"Processing {path}..." with channels := .empty } frames :=
    hs.congr rfl rfl
  cases content with
  | error cause => exact .atOnce hs'.toWrote rfl
  | ok stream =>
    have hframes := taken_takeFrames skipBadFrames path hs' (Frame.readAll stream).1
    rw [readsOf, Frame.attempts_eq_readAll, State.takeFile]
    simp only
    split
    · next s' htake =>
      rw [htake] at hframes
      refine hframes.trans fun hs' => ?_
      cases (Frame.readAll stream).2 with
      | none => exact .nothing hs'
      | some e => exact .atOnce hs'.toWrote rfl
    · next s' e htake =>
      rw [htake] at hframes
      exact hframes.append_right

/-- **The frames of a run.** Files are taken in up to the first read that ends the run. -/
theorem taken_takeFiles (skipBadFrames : Bool) (hs : s.Counted frames)
    (files : List (String × Except IoError Bytes)) :
    Taken skipBadFrames frames (reads files) (s.takeFiles skipBadFrames files) := by
  induction files generalizing s frames with
  | nil => exact .nothing hs
  | cons file files ih =>
    obtain ⟨path, content⟩ := file
    have hfile := taken_takeFile skipBadFrames path hs content
    rw [State.takeFiles, reads, List.flatMap_cons, ← reads]
    split
    · next s' htake =>
      rw [htake] at hfile
      exact hfile.trans fun hs' => ih hs'
    · next s' e htake =>
      rw [htake] at hfile
      exact hfile.append_right

end taken

end PulseHits.Run
