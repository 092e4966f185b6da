import PulseHits.Proofs.Config.Names
import PulseHits.Proofs.Run.Frames
import PulseHits.Proofs.Storage.Tree
import PulseHits.Proofs.Text.ByteOrder
import PulseHits.Run.Process

/-!
# From the data files of a run to its hit file

However a directory lists its data files, they are taken in by the order of their names
(`dataNames_eq`). A run that gets as far as its frames is `reduce` on what they hold, and its hit
file then reads as what `reduce` gives (`run_processRun`). `reduce` in turn is decided by the first
read that ends the run, if there is one (`reduce_of_none`, `reduce_of_some`).
-/

namespace PulseHits.Run

open FileTree

/-! ## The data files -/

/-- The names of data files in the order of their bytes are the order in which they are taken in,
however a directory lists them. -/
theorem dataNames_eq {listed names : List String}
    (hperm : names.Perm (listed.filter fun n => Path.extension? n == some "graw"))
    (hsorted : names.Pairwise fun a b => Text.Utf8.encode a ≤ Text.Utf8.encode b) :
    dataNames listed = names := by
  have hle : (dataNames listed).Pairwise fun a b => decide (a ≤ b) = true :=
    List.pairwise_mergeSort (fun a b c => by simpa using le_trans)
      (fun a b => by simpa using le_total a b) _
  refine List.Perm.eq_of_pairwise (fun a b _ _ => le_antisymm) ?_ ?_ ?_
  · exact hle.imp fun h => of_decide_eq_true h
  · exact hsorted.imp fun h => Text.Utf8.encode_le_encode.mp h
  · exact (List.mergeSort_perm _ _).trans hperm.symm

/-- A run that gets as far as its frames: `names` are those of its data files in the order of their
bytes, there is at least one, and the hit file can be written. -/
structure Ready (c : Config) (run : Int) (t : FileTree) (names : List String) : Prop where
  listed : ∃ listed, t.names (c.runPath run) = .ok listed ∧
    names.Perm (listed.filter fun n => Path.extension? n == some "graw")
  sorted : names.Pairwise fun a b => Text.Utf8.encode a ≤ Text.Utf8.encode b
  nonempty : names ≠ []
  hitPath : t.pathExists c.hitPath = true
  writable : ∃ t', t.write (c.hitFilePath run) [] = .ok t'

/-- The data files of a run with what can be read of them. -/
def contents (c : Config) (run : Int) (t : FileTree) (names : List String) :
    List (String × Except IoError Bytes) :=
  names.map fun name =>
    (Path.join (c.runPath run) name, t.read (Path.join (c.runPath run) name))

section run
variable {c : Config} {run : Int} {t : FileTree} {names : List String}

theorem run_mapM_read (names : List String) (directory : String) (t : FileTree) :
    (names.mapM (m := StateM FileTree) fun name => do
        return (Path.join directory name, ← Storage.read (Path.join directory name))).run t =
      (names.map fun name => (Path.join directory name, t.read (Path.join directory name)), t) := by
  induction names with
  | nil => rfl
  | cons name names ih =>
    simp only [List.mapM_cons, run_bind, run_pure, run_read] at ih ⊢
    rw [ih]
    rfl

theorem run_dataFiles (h : Ready c run t names) :
    (dataFiles (c.runPath run) : StateM FileTree _).run t = (.ok (contents c run t names), t) := by
  obtain ⟨listed, hnames, hperm⟩ := h.listed
  rw [dataFiles, run_bind, run_names, hnames]
  simp only [dataNames_eq hperm h.sorted]
  split
  · exact absurd rfl h.nonempty
  · rw [run_bind, run_mapM_read]
    rfl

/-- A run that gets as far as its frames comes to what they are reduced to: its result, what it
reports and what it leaves in its hit file. -/
theorem outcome_processRun (h : Ready c run t names) (worker : Worker) :
    let reduced := reduce c.skipBadFrames run worker (c.hitFilePath run) (contents c run t names)
    let outcome := (processRun c worker run : StateM FileTree _).run t
    outcome.1.result = reduced.2.result ∧ outcome.1.statuses = reduced.2.statuses ∧
      outcome.2.read (c.hitFilePath run) = .ok reduced.1 := by
  intro reduced
  obtain ⟨listed, hnames, -⟩ := h.listed
  obtain ⟨_, hwritable⟩ := h.writable
  obtain ⟨t', hwrite⟩ := exists_write_of_write hwritable reduced.1
  have hdirectory : (c.runDirectory run : StateM FileTree _).run t = (.ok (c.runPath run), t) := by
    rw [Config.run_runDirectory, if_pos (pathExists_of_names hnames)]
  have hhitFile : (c.hitFile run : StateM FileTree _).run t = (.ok (c.hitFilePath run), t) := by
    rw [Config.run_hitFile, if_pos h.hitPath]
  have hreduce : reduce c.skipBadFrames run worker (c.hitFilePath run) (contents c run t names) =
      (reduced.1, reduced.2) := rfl
  rw [processRun, run_bind, hdirectory]
  simp only
  rw [run_bind, run_dataFiles h]
  simp only
  rw [run_bind, hhitFile]
  simp only [hreduce]
  rw [run_bind, run_write hwrite]
  exact ⟨rfl, rfl, read_write hwrite⟩

theorem run_processRun (h : Ready c run t names) (worker : Worker) :
    let reduced := reduce c.skipBadFrames run worker (c.hitFilePath run) (contents c run t names)
    let outcome := (processRun c worker run : StateM FileTree _).run t
    outcome.1.result = reduced.2.result ∧
      outcome.2.read (c.hitFilePath run) = .ok reduced.1 := by
  obtain ⟨hresult, -, hread⟩ := outcome_processRun h worker
  exact ⟨hresult, hread⟩

end run

/-! ## What is reduced -/

section reduced
variable {skipBadFrames : Bool} {worker : Worker} {files : List (String × Except IoError Bytes)}

theorem taken_reduce (skipBadFrames : Bool) (run : Int) (hitFile : String)
    (files : List (String × Except IoError Bytes)) (hworker : worker.observed = true) :
    ∃ s error?, Taken skipBadFrames [] (reads files) (s, error?) ∧
      (reduce skipBadFrames run worker hitFile files).1 = s.hitFile.bytes ∧
      (reduce skipBadFrames run worker hitFile files).2.result =
        error?.elim (.ok s.summary) .error := by
  have htaken := taken_takeFiles skipBadFrames (State.counted_start (totalSize files)) files
  rw [reduce, hworker]
  simp only [Bool.not_true, Bool.false_eq_true, if_false]
  cases hrun : (State.start (totalSize files)).takeFiles skipBadFrames files with
  | mk s error? =>
    rw [hrun] at htaken
    refine ⟨s, error?, htaken, ?_⟩
    cases error? with
    | none => exact ⟨rfl, rfl⟩
    | some e => exact ⟨rfl, rfl⟩

theorem reduce_of_none (run : Int) (hitFile : String) (hworker : worker.observed = true)
    (hnone : ∀ r ∈ reads files, failure? skipBadFrames r = none) :
    let reduced := reduce skipBadFrames run worker hitFile files
    reduced.1 = (records (framesOf (reads files))).flatMap Hit.EventHits.encode ∧
      reduced.2.result = .ok (.ofFrames (framesOf (reads files))) := by
  intro reduced
  obtain ⟨s, error?, htaken, hbytes, hresult⟩ :=
    taken_reduce skipBadFrames run hitFile files hworker
  cases htaken with
  | all _ hs =>
    refine ⟨hbytes.trans hs.bytes_eq, hresult.trans ?_⟩
    rw [Option.elim_none, hs.summary_eq]
    rfl
  | upTo before after hreads _ hsome _ =>
    rw [hnone _ (by rw [hreads]; simp)] at hsome
    cases hsome

theorem eq_of_first_failure {before before' after after' : List (Except Frame.StreamError Frame)}
    {r r' : Except Frame.StreamError Frame}
    (heq : before ++ r :: after = before' ++ r' :: after')
    (hbefore : ∀ b ∈ before, failure? skipBadFrames b = none)
    (hbefore' : ∀ b ∈ before', failure? skipBadFrames b = none)
    (hr : failure? skipBadFrames r ≠ none) (hr' : failure? skipBadFrames r' ≠ none) :
    before = before' ∧ r = r' := by
  induction before generalizing before' with
  | nil =>
    cases before' with
    | nil => exact ⟨rfl, (List.cons.inj heq).1⟩
    | cons b before' =>
      rw [(List.cons.inj heq).1] at hr
      exact absurd (hbefore' b List.mem_cons_self) hr
  | cons b before ih =>
    cases before' with
    | nil =>
      rw [← (List.cons.inj heq).1] at hr'
      exact absurd (hbefore b List.mem_cons_self) hr'
    | cons b' before' =>
      obtain ⟨rfl, hrest⟩ := List.cons.inj heq
      obtain ⟨rfl, hrr'⟩ := ih hrest (fun b hb => hbefore b (List.mem_cons_of_mem _ hb))
        fun b hb => hbefore' b (List.mem_cons_of_mem _ hb)
      exact ⟨rfl, hrr'⟩

theorem reduce_of_some (run : Int) (hitFile : String) (hworker : worker.observed = true)
    {before after : List (Except Frame.StreamError Frame)} {r : Except Frame.StreamError Frame}
    {e : Error} (hreads : reads files = before ++ r :: after)
    (hnone : ∀ b ∈ before, failure? skipBadFrames b = none)
    (hsome : failure? skipBadFrames r = some e) :
    let reduced := reduce skipBadFrames run worker hitFile files
    reduced.1 = (records (framesOf before)).flatMap Hit.EventHits.encode ∧
      reduced.2.result = .error e := by
  intro reduced
  obtain ⟨s, error?, htaken, hbytes, hresult⟩ :=
    taken_reduce skipBadFrames run hitFile files hworker
  cases htaken with
  | all hall _ =>
    rw [hall r (by rw [hreads]; simp)] at hsome
    cases hsome
  | upTo before' after' hreads' hnone' hsome' hs =>
    obtain ⟨rfl, rfl⟩ := eq_of_first_failure (hreads.symm.trans hreads') hnone hnone'
      (by simp [hsome]) (by simp [hsome'])
    rw [hsome] at hsome'
    cases hsome'
    exact ⟨hbytes.trans hs.bytes_eq, hresult⟩

theorem failure?_ok_eq_none {f : Frame} (h : skipBadFrames = true ∨ isBad f = false) :
    failure? skipBadFrames (.ok f) = none := by
  rw [failure?]
  rw [isBad] at h
  cases hresult : (Readout.process f.view).result with
  | ok hits => rfl
  | error cause =>
    rw [hresult] at h
    rcases h with hskip | hgood
    · exact if_pos hskip
    · cases hgood

theorem failure?_true {r : Except Frame.StreamError Frame} {e : Error}
    (h : failure? true r = some e) : ∃ cause, e = .stream cause := by
  cases r with
  | error cause =>
    cases h
    exact ⟨cause, rfl⟩
  | ok f =>
    rw [failure?] at h
    cases hresult : (Readout.process f.view).result with
    | error cause => simp [hresult] at h
    | ok hits => simp [hresult] at h

theorem reduce_ne_frame_error (run : Int) (hitFile : String)
    (files : List (String × Except IoError Bytes)) (hworker : worker.observed = true)
    (cause : Readout.DecodeError) :
    (reduce true run worker hitFile files).2.result ≠ .error (.frame cause) := by
  obtain ⟨s, error?, htaken, -, hresult⟩ := taken_reduce true run hitFile files hworker
  rw [hresult]
  cases htaken with
  | all _ _ =>
    intro heq
    cases heq
  | upTo _ _ _ _ hsome _ =>
    obtain ⟨cause', rfl⟩ := failure?_true hsome
    intro heq
    cases heq

end reduced

end PulseHits.Run
