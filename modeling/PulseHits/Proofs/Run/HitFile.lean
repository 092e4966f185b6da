import PulseHits.Frame.Encode
import PulseHits.Proofs.Readout.Hits
import PulseHits.Proofs.Run.Output

/-!
# What a run leaves in its hit file

If no frame ends a run, its hit file holds the records of all its frames, file after file, and each
frame is counted once (`processRun_of_frames`). Else it holds the records of the frames before the
first failure, each of them whole (`processRun_of_failure`).
-/

namespace PulseHits.Run

/-! ## What a frame leaves -/

/-- The hits of a frame. One that cannot be decoded has none. -/
def frameHits (f : Frame) : List Hit :=
  (Readout.process f.view).result.toOption.getD []

/-- What a frame leaves in the hit file: nothing if it has no hits, and else its event id, its event
time and the block of its hits. -/
def recordBytes (f : Frame) : Bytes :=
  if frameHits f = [] then []
  else Bytes.ofNatLE 4 f.header.eventId ++ Bytes.ofNatLE 8 f.header.eventTime ++
    Hit.encodeBlock (frameHits f)

section records
variable {f : Frame}

theorem frameHits_of_isBad (h : isBad f = true) : frameHits f = [] := by
  rw [isBad] at h
  rw [frameHits]
  cases hresult : (Readout.process f.view).result with
  | ok hits =>
    rw [hresult] at h
    cases h
  | error cause => rfl

theorem record?_eq (f : Frame) :
    record? f = if frameHits f = [] then none
      else some ⟨f.header.eventId.toUInt32, f.header.eventTime.toUInt64, frameHits f⟩ := by
  rw [record?, frameHits]
  rcases (Readout.process f.view).result with cause | (- | ⟨hit, hits⟩)
  · rfl
  · rfl
  · rfl

theorem encode_record? (f : Frame) :
    (record? f).toList.flatMap Hit.EventHits.encode = recordBytes f := by
  rw [record?_eq, recordBytes]
  split
  · rfl
  · have hid : f.header.eventId.toUInt32.toNat = f.header.eventId :=
      Nat.mod_eq_of_lt (Frame.Header.eventId_lt f.parse_eq)
    have htime : f.header.eventTime.toUInt64.toNat = f.header.eventTime := by
      have := Frame.Header.eventTime_lt f.parse_eq
      exact Nat.mod_eq_of_lt (by omega)
    rw [Option.toList_some, List.flatMap_singleton, Hit.EventHits.encode_eq, hid, htime]

theorem records_cons (f : Frame) (frames : List Frame) :
    records (f :: frames) = (record? f).toList ++ records frames := by
  rw [records, List.filterMap_cons]
  cases record? f <;> rfl

theorem encode_records (frames : List Frame) :
    (records frames).flatMap Hit.EventHits.encode = frames.flatMap recordBytes := by
  induction frames with
  | nil => rfl
  | cons f frames ih =>
    rw [records_cons, List.flatMap_append, encode_record?, ih, List.flatMap_cons]

theorem length_records (frames : List Frame) :
    (records frames).length = frames.countP fun f => frameHits f ≠ [] := by
  induction frames with
  | nil => rfl
  | cons f frames ih =>
    rw [records_cons, List.length_append, ih, List.countP_cons, record?_eq, Nat.add_comm]
    by_cases hf : frameHits f = [] <;> simp [hf]

theorem sum_length_hits_records (frames : List Frame) :
    ((records frames).map (·.hits.length)).sum =
      (frames.map fun f => (frameHits f).length).sum := by
  induction frames with
  | nil => rfl
  | cons f frames ih =>
    rw [records_cons, List.map_append, List.sum_append, ih, List.map_cons, List.sum_cons,
      record?_eq]
    by_cases hf : frameHits f = [] <;> simp [hf]

theorem length_frameHits_le (f : Frame) : (frameHits f).length ≤ Channel.keyCount := by
  rw [frameHits]
  cases hresult : (Readout.process f.view).result with
  | error e => exact Nat.zero_le _
  | ok hits =>
    rw [(Readout.result_process_eq_ok_iff.mp hresult).2]
    exact Readout.length_channelHits_le _ _

theorem length_hits_of_mem_records {frames : List Frame} {e : Hit.EventHits}
    (he : e ∈ records frames) : e.hits.length < 2 ^ 32 := by
  obtain ⟨f, -, hf⟩ := List.mem_filterMap.mp he
  rw [record?_eq] at hf
  split at hf
  · cases hf
  · cases hf
    exact Nat.lt_of_le_of_lt (length_frameHits_le f) (by decide)

end records

/-! ## What a run leaves -/

section output
variable {c : Config} {run : Int} {t : FileTree}

theorem reads_contents {files : List (String × List Frame)}
    (hread : ∀ p ∈ files,
      t.read (Path.join (c.runPath run) p.1) = .ok (p.2.flatMap (·.bytes))) :
    reads (contents c run t (files.map (·.1))) = (files.flatMap (·.2)).map .ok := by
  induction files with
  | nil => rfl
  | cons p files ih =>
    have hrest := ih fun q hq => hread q (List.mem_cons_of_mem _ hq)
    rw [contents, reads] at hrest
    rw [contents, reads, List.map_cons, List.map_cons, List.flatMap_cons, hrest,
      hread p List.mem_cons_self, readsOf, Frame.attempts_flatMap_bytes, List.flatMap_cons,
      List.map_append]

theorem sum_length_bytes (files : List (String × List Frame)) :
    ((files.flatMap (·.2)).map (·.bytes.length)).sum =
      (files.map fun p => (p.2.flatMap (·.bytes)).length).sum := by
  induction files with
  | nil => rfl
  | cons p files ih =>
    rw [List.flatMap_cons, List.map_append, List.sum_append, ih, List.map_cons, List.sum_cons,
      List.length_flatMap]

/-- **What a run leaves.** A run over data files that consist of whole frames, none of which ends
it, succeeds. Its hit file holds the records of its frames, file after file, and nothing else, and
each frame is counted once. -/
theorem processRun_of_frames {files : List (String × List Frame)}
    (hready : Ready c run t (files.map (·.1))) {worker : Worker} (hworker : worker.observed = true)
    (hread : ∀ p ∈ files,
      t.read (Path.join (c.runPath run) p.1) = .ok (p.2.flatMap (·.bytes)))
    (hframes : c.skipBadFrames = true ∨ ∀ p ∈ files, ∀ f ∈ p.2, isBad f = false) :
    let frames := files.flatMap (·.2)
    let outcome := (processRun c worker run : StateM FileTree _).run t
    outcome.1.result = .ok
        { frames := frames.length
          framesWithHits := frames.countP fun f => frameHits f ≠ []
          hits := (frames.map fun f => (frameHits f).length).sum
          badFrames := frames.countP isBad
          skippedFrames := frames.countP isUnrecognized
          bytes := (files.map fun p => (p.2.flatMap (·.bytes)).length).sum } ∧
      outcome.2.read (c.hitFilePath run) = .ok (frames.flatMap recordBytes) := by
  intro frames outcome
  have hreads := reads_contents hread
  have hnone : ∀ r ∈ reads (contents c run t (files.map (·.1))),
      failure? c.skipBadFrames r = none := by
    rw [hreads]
    intro r hr
    obtain ⟨f, hf, rfl⟩ := List.mem_map.mp hr
    obtain ⟨p, hp, hfp⟩ := List.mem_flatMap.mp hf
    exact failure?_ok_eq_none (hframes.imp_right fun hgood => hgood p hp f hfp)
  obtain ⟨hbytes, hresult⟩ := reduce_of_none run (c.hitFilePath run) hworker hnone
  obtain ⟨houtcome, hfile⟩ := run_processRun hready worker
  rw [hreads, framesOf_map_ok] at hbytes hresult
  refine ⟨?_, ?_⟩
  · rw [houtcome, hresult, Summary.ofFrames, length_records, sum_length_hits_records,
      sum_length_bytes]
  · rw [hfile, hbytes, encode_records]

set_option maxRecDepth 4000 in
/-- A frame with one item, a sample of the first channel. -/
def smallFrame : Frame where
  bytes := (Frame.Contents.mk 1 0 1 5 500 4 [0, 1, 2, 3]).encode
  header := (Frame.Contents.mk 1 0 1 5 500 4 [0, 1, 2, 3]).header
  parse_eq := rfl
  length_eq := rfl
  consistent := ⟨by decide, by decide, by decide, by decide⟩

def smallConfig : Config :=
  ⟨"graw", "hits", 7, 8, 1, false⟩

/-- Two runs whose data files are listed against their order. The second breaks off in its second
frame. -/
def smallTree : FileTree where
  workingDirectory := []
  entries := [(["hits"], .directory), (["graw"], .directory),
    (["graw", "run_0007"], .directory), (["graw", "run_0007", "b.graw"], .file smallFrame.bytes),
    (["graw", "run_0007", "a.graw"], .file []), (["graw", "run_0007", "notes"], .file [1]),
    (["graw", "run_0008"], .directory),
    (["graw", "run_0008", "a.graw"], .file (smallFrame.bytes ++ [8]))]

theorem ready_smallTree_seven : Ready smallConfig 7 smallTree ["a.graw", "b.graw"] := by
  refine ⟨⟨["b.graw", "a.graw", "notes"], by decide, ?_⟩, ?_, by decide, by decide, ⟨_, rfl⟩⟩
  · exact List.Perm.swap _ _ _
  · exact List.pairwise_pair.mpr (Text.Utf8.encode_le_encode.mpr (by decide))

theorem processRun_smallTree_seven :
    let outcome := (processRun smallConfig ⟨0, true⟩ 7 : StateM FileTree _).run smallTree
    outcome.1.result = .ok ⟨1, 1, 1, 0, 0, 512⟩ ∧
      outcome.2.read "hits/run_0007.hits" = .ok (recordBytes smallFrame) := by
  have hread : ∀ p ∈ [("a.graw", []), ("b.graw", [smallFrame])],
      smallTree.read (Path.join (smallConfig.runPath 7) p.1) = .ok (p.2.flatMap (·.bytes)) := by
    simp only [List.forall_mem_cons, List.flatMap_nil, List.flatMap_cons, List.append_nil]
    exact ⟨rfl, rfl, by simp⟩
  have hworker : (Worker.mk 0 true).observed = true := rfl
  have hbad : isBad smallFrame = false := by decide +kernel
  have hhits : (frameHits smallFrame).length = 1 := by decide +kernel
  have hknown : isUnrecognized smallFrame = false := by decide +kernel
  obtain ⟨hresult, hfile⟩ := processRun_of_frames ready_smallTree_seven hworker hread
    (Or.inr (by simp [hbad]))
  refine ⟨hresult.trans ?_, hfile.trans ?_⟩
  · have hne : frameHits smallFrame ≠ [] := by
      intro hnil
      rw [hnil] at hhits
      cases hhits
    have hlength : smallFrame.bytes.length = 512 := smallFrame.length_eq
    simp [hbad, hhits, hknown, hne, hlength]
  · simp

/-- **What a run leaves that is cut short.** The first read that fails, or the first frame that
cannot be decoded unless such frames are dropped, ends the run with its error. The hit file holds
the records of the frames before it, each of them whole; without such a failure it holds those of
all frames. Where frames that cannot be decoded are dropped, they end no run and leave nothing. -/
theorem processRun_of_failure {names : List String} (hready : Ready c run t names)
    {worker : Worker} (hworker : worker.observed = true) :
    let outcome := (processRun c worker run : StateM FileTree _).run t
    (∀ (before after : List (Except Frame.StreamError Frame)) (r : Except Frame.StreamError Frame)
        (e : Error), reads (contents c run t names) = before ++ r :: after →
        (∀ b ∈ before, failure? c.skipBadFrames b = none) →
        failure? c.skipBadFrames r = some e →
        outcome.1.result = .error e ∧
          outcome.2.read (c.hitFilePath run) = .ok ((framesOf before).flatMap recordBytes) ∧
          Hit.readAll ((framesOf before).flatMap recordBytes) = (records (framesOf before), none)) ∧
      ((∀ r ∈ reads (contents c run t names), failure? c.skipBadFrames r = none) →
        outcome.1.result.isOk = true ∧ outcome.2.read (c.hitFilePath run) =
          .ok ((framesOf (reads (contents c run t names))).flatMap recordBytes)) ∧
      (c.skipBadFrames = true → (∀ cause, outcome.1.result ≠ .error (.frame cause)) ∧
        ∀ f, isBad f = true → recordBytes f = []) := by
  intro outcome
  obtain ⟨houtcome, hfile⟩ := run_processRun hready worker
  refine ⟨fun before after r e hreads hnone hsome => ?_, fun hnone => ?_,
    fun hskip => ⟨fun cause => ?_, ?_⟩⟩
  · obtain ⟨hbytes, hresult⟩ :=
      reduce_of_some run (c.hitFilePath run) hworker hreads hnone hsome
    refine ⟨?_, ?_, ?_⟩
    · rw [houtcome, hresult]
    · rw [hfile, hbytes, encode_records]
    · rw [← encode_records]
      exact Hit.readAll_flatMap_encode fun e he => length_hits_of_mem_records he
  · obtain ⟨hbytes, hresult⟩ := reduce_of_none run (c.hitFilePath run) hworker hnone
    refine ⟨?_, ?_⟩
    · rw [houtcome, hresult]
      rfl
    · rw [hfile, hbytes, encode_records]
  · rw [houtcome, hskip]
    exact reduce_ne_frame_error run (c.hitFilePath run) _ hworker cause
  · intro f hf
    rw [recordBytes, if_pos (frameHits_of_isBad hf)]

theorem processRun_smallTree_eight :
    let outcome := (processRun smallConfig ⟨0, true⟩ 8 : StateM FileTree _).run smallTree
    outcome.1.result = .error (.stream (.io .endsInField)) ∧
      outcome.2.read "hits/run_0008.hits" = .ok (recordBytes smallFrame) ∧
      Hit.readAll (recordBytes smallFrame) = (records [smallFrame], none) := by
  have hready : Ready smallConfig 8 smallTree ["a.graw"] := by
    refine ⟨⟨["a.graw"], by decide, List.Perm.refl _⟩, ?_, by decide, by decide, ⟨_, rfl⟩⟩
    exact List.pairwise_singleton _ _
  have hreads : reads (contents smallConfig 8 smallTree ["a.graw"]) =
      [.ok smallFrame] ++ .error (.io .endsInField) :: [] := by
    have hread : smallTree.read (Path.join (smallConfig.runPath 8) "a.graw") =
        .ok (smallFrame.bytes ++ [8]) := rfl
    rw [contents, List.map_singleton, hread, reads, List.flatMap_singleton, readsOf,
      Frame.attempts_bytes_append, Frame.attempts_of_error rfl (by decide)]
    rfl
  have hworker : (Worker.mk 0 true).observed = true := rfl
  have hnone : ∀ b ∈ [Except.ok smallFrame], failure? smallConfig.skipBadFrames b = none := by
    decide +kernel
  obtain ⟨hresult, hfile, hread⟩ :=
    (processRun_of_failure hready hworker).1 _ _ _ _ hreads hnone rfl
  have hframes : framesOf [.ok smallFrame] = [smallFrame] := rfl
  rw [hframes, List.flatMap_singleton] at hfile hread
  exact ⟨hresult, hfile, hread⟩

end output

end PulseHits.Run
