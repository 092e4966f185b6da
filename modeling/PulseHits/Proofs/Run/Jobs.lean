import PulseHits.Proofs.Config.Names
import PulseHits.Proofs.Storage.Yields
import PulseHits.Run.Process

/-!
# Runs as jobs

Processing a run looks at its data directory and at the directory for the hits, and writes to its
hit file, which is neither a data file nor a directory that is asked for. So hit files that others
write meanwhile make no difference: as a job, a run ends as it does alone and writes what it writes
alone (`yields_processRun`), and a list of runs ends with the first of them that fails alone
(`yields_processSubset`).
-/

namespace PulseHits.Run

open FileTree Job

/-! ## Programs and jobs -/

section simulates
variable (c : Config) (worker : Worker) (run : Int)

theorem simulates_runExists : Simulates (c.runExists run) (c.runExists run) :=
  .pathExists _

theorem simulates_runDirectory : Simulates (c.runDirectory run) (c.runDirectory run) :=
  (Simulates.pathExists _).bind fun _ => .pure _

theorem simulates_hitFile : Simulates (c.hitFile run) (c.hitFile run) :=
  (Simulates.pathExists _).bind fun _ => .pure _

theorem simulates_dataFiles (directory : String) :
    Simulates (dataFiles directory) (dataFiles directory) := by
  refine (Simulates.names directory).bind fun listed => ?_
  cases listed with
  | error cause => exact .pure _
  | ok listed =>
    simp only
    split
    · exact .pure _
    · exact (Simulates.mapM (fun name => (Simulates.read _).bind fun _ => .pure _) _).bind
        fun _ => .pure _

theorem simulates_processRun :
    Simulates (processRun c worker run) (processRun c worker run) := by
  refine (simulates_runDirectory c run).bind fun directory => ?_
  cases directory with
  | error e => exact .pure _
  | ok directory =>
    refine (simulates_dataFiles directory).bind fun files => ?_
    cases files with
    | error e => exact .pure _
    | ok files =>
      refine (simulates_hitFile c run).bind fun hitFile => ?_
      cases hitFile with
      | error e => exact .pure _
      | ok hitFile =>
        refine (Simulates.write _ _).bind fun written => ?_
        cases written with
        | error e => exact .pure _
        | ok _ => exact .pure _

theorem simulates_processSubset (runs : List Int) :
    Simulates (processSubset c worker runs) (processSubset c worker runs) := by
  induction runs with
  | nil => exact .pure _
  | cons run rest ih =>
    rw [processSubset, processSubset]
    refine (simulates_runExists c run).bind fun found => ?_
    cases found with
    | false => exact ih.bind fun _ => .pure _
    | true =>
      refine (simulates_processRun c worker run).bind fun report => ?_
      obtain ⟨result, statuses, notices⟩ := report
      cases result with
      | error e => exact .pure _
      | ok _ => exact ih.bind fun _ => .pure _

end simulates

/-! ## Inputs and outputs -/

/-- The name is one of a data file. -/
def isData (name : String) : Bool :=
  Path.extension? name == some dataExtension

theorem mem_dataNames {listed : List String} {name : String} :
    name ∈ dataNames listed ↔ name ∈ listed ∧ isData name = true := by
  rw [dataNames, List.mem_mergeSort]
  exact List.mem_filter

/-- The place of the hit file of a run. -/
def IsOutputOf (c : Config) (t : FileTree) (run : Int) (l : Location) : Prop :=
  ∃ directory, t.locate c.hitPath = .ok directory ∧ l = directory ++ [Config.hitName run]

/-- The place is one of a hit file. -/
def IsOutput (c : Config) (t : FileTree) (l : Location) : Prop :=
  ∃ run, IsOutputOf c t run l

/-- A tree that is as `t` but for the hit files. -/
abbrev SameInputs (c : Config) (t : FileTree) : FileTree → Prop :=
  AgreeBut (IsOutput c t) isData t

section outputs
variable {c : Config} {t t' : FileTree} {run run' : Int} {l : Location}

theorem IsOutputOf.run_eq (h : IsOutputOf c t run l) (h' : IsOutputOf c t run' l) :
    run = run' := by
  obtain ⟨directory, -, rfl⟩ := h
  obtain ⟨directory', -, heq⟩ := h'
  exact Config.hitName_injective (List.append_singleton_inj.mp heq).2

theorem isData_hitName (run : Int) : isData (Config.hitName run) = false := by
  rw [isData, Config.extension?_hitName]
  rfl

theorem not_isOutput_concat {parent : Location} {name : String}
    (h : ∀ run, name ≠ Config.hitName run) : ¬ IsOutput c t (parent ++ [name]) := by
  rintro ⟨run, directory, -, heq⟩
  exact h run (List.append_singleton_inj.mp heq).2

theorem not_isOutput_runPath (h : t.locate (c.runPath run) = .ok l) : ¬ IsOutput c t l := by
  obtain ⟨parent, rfl⟩ := exists_eq_concat_of_locate_join (Config.isName_runName run) h
  exact not_isOutput_concat fun run' => Config.runName_ne_hitName run run'

theorem not_isOutput_hitPath (h : t.locate c.hitPath = .ok l) : ¬ IsOutput c t l := by
  rintro ⟨run, directory, hdirectory, hl⟩
  cases h.symm.trans hdirectory
  have hlength := congrArg List.length hl
  rw [List.length_append, List.length_singleton] at hlength
  omega

theorem not_isOutput_dataFile {parent : Location} {name : String} (h : isData name = true) :
    ¬ IsOutput c t (parent ++ [name]) := by
  refine not_isOutput_concat fun run => ?_
  rintro rfl
  rw [isData_hitName] at h
  cases h

theorem locate_hitFilePath {directory : Location} (h : t.locate c.hitPath = .ok directory)
    (ht : SameInputs c t t') (run : Int) :
    t'.locate (c.hitFilePath run) = t.walk directory [Config.hitName run] := by
  have hne : c.hitPath ≠ "" := by
    intro hempty
    rw [hempty] at h
    cases h
  rw [← locate_join hne (Config.isName_hitName run) h]
  exact AgreeBut.locate_join_eq ht hne (Config.isName_hitName run) h (not_isOutput_hitPath h)

theorem isOutputOf_of_walk {directory : Location} (h : t.locate c.hitPath = .ok directory)
    (hwalk : t.walk directory [Config.hitName run] = .ok l) : IsOutputOf c t run l := by
  refine ⟨directory, h, ?_⟩
  rw [walk_singleton] at hwalk
  split at hwalk
  · cases hwalk
    exact step_of_isName _ (Config.isName_hitName run)
  · cases hwalk
  · cases hwalk

theorem sameInputs_insert (ht : SameInputs c t t') (houtput : IsOutputOf c t run l)
    (hdirectory : t.entryAt? l ≠ some .directory) (content : Bytes) :
    SameInputs c t (t'.insert l (.file content)) := by
  have hname := houtput
  obtain ⟨parent, -, rfl⟩ := hname
  exact AgreeBut.insert_output ht ⟨run, houtput⟩ (isData_hitName run) hdirectory content

theorem read_hitFilePath_congr {t'' : FileTree} (h' : SameInputs c t t') (h'' : SameInputs c t t'')
    (hentry : ∀ l, IsOutputOf c t run l → t'.entryAt? l = t''.entryAt? l) :
    t'.read (c.hitFilePath run) = t''.read (c.hitFilePath run) := by
  cases hlocate : t.locate c.hitPath with
  | error cause =>
    -- without a directory for them there are no hit files, and the trees are the same
    have hnone : ∀ l, ¬ IsOutput c t l := by
      rintro l ⟨run, directory, hdirectory, -⟩
      cases hlocate.symm.trans hdirectory
    refine read_congr ?_ (fun l => ?_) _
    · rw [← h'.workingDirectory_eq, h''.workingDirectory_eq]
    · rw [h'.entry_eq l (hnone l), h''.entry_eq l (hnone l)]
  | ok directory =>
    have hfile' := locate_hitFilePath hlocate h' run
    have hfile'' := locate_hitFilePath hlocate h'' run
    cases hwalk : t.walk directory [Config.hitName run] with
    | error cause =>
      rw [read_of_locate_error (hfile'.trans hwalk), read_of_locate_error (hfile''.trans hwalk)]
    | ok l =>
      rw [read_of_locate (hfile'.trans hwalk), read_of_locate (hfile''.trans hwalk),
        hentry l (isOutputOf_of_walk hlocate hwalk)]

end outputs

/-- Why a run ends before its hit file is opened. -/
def Error.isBeforeOutput : Error → Bool
  | .config _ | .noDataFiles _ | .io _ => true
  | .stream _ | .frame _ | .hitFile _ | .observerGone => false

/-! ## What a run does with its inputs -/

section yields
variable {c : Config} {t : FileTree} {run : Int}

theorem yields_runExists (c : Config) (t : FileTree) (run : Int) :
    Yields (SameInputs c t) 1 (c.runExists run) [] (t.pathExists (c.runPath run)) :=
  .pathExists fun _ ht => ht.pathExists_eq fun _ hl => not_isOutput_runPath hl

theorem yields_runDirectory (c : Config) (t : FileTree) (run : Int) :
    Yields (SameInputs c t) 1 (c.runDirectory run) []
      (if t.pathExists (c.runPath run) then .ok (c.runPath run)
        else .error (.missingPath (c.runPath run))) := by
  refine Yields.bind_of_done (yields_runExists c t run) ?_
  exact .done 0 _

theorem yields_hitFile (c : Config) (t : FileTree) (run : Int) :
    Yields (SameInputs c t) 1 (c.hitFile run) []
      (if t.pathExists c.hitPath then .ok (c.hitFilePath run)
        else .error (.missingPath c.hitPath)) := by
  have hexists : Yields (SameInputs c t) 1 (Storage.pathExists c.hitPath) []
      (t.pathExists c.hitPath) :=
    .pathExists fun t' ht => AgreeBut.pathExists_eq ht fun _ hl => not_isOutput_hitPath hl
  refine Yields.bind_of_done hexists ?_
  exact .done 0 _

theorem dataNames_eq_of_sameInputs {t' : FileTree} (h : SameInputs c t t') (l : Location) :
    dataNames (t'.childNames l) = dataNames (t.childNames l) := by
  show ((t'.childNames l).filter isData).mergeSort _ = ((t.childNames l).filter isData).mergeSort _
  rw [h.names_eq l]

theorem yields_read {directory : Location} {name : String}
    (hlocate : t.locate (c.runPath run) = .ok directory)
    (hdirectory : t.entryAt? directory = some .directory) (hname : Path.IsName name)
    (hdata : isData name = true) :
    Yields (SameInputs c t) 1 (Storage.read (Path.join (c.runPath run) name)) []
      (t.read (Path.join (c.runPath run) name)) := by
  have hne : c.runPath run ≠ "" := Path.join_ne_empty (Config.isName_runName run).ne_empty
  have hfile : t.locate (Path.join (c.runPath run) name) = .ok (directory ++ [name]) := by
    rw [locate_join hne hname hlocate, walk_singleton, hdirectory, step_of_isName _ hname]
  exact .read fun t' ht => AgreeBut.read_eq ht hfile (not_isOutput_dataFile hdata)

theorem yields_dataFiles (hwf : t.WellFormed) (hexists : t.pathExists (c.runPath run) = true) :
    ∃ n files, Yields (SameInputs c t) n (dataFiles (c.runPath run)) [] files ∧
      ∀ e, files = .error e → e.isBeforeOutput = true := by
  cases hlocate : t.locate (c.runPath run) with
  | error cause =>
    rw [pathExists_of_locate_error hlocate] at hexists
    cases hexists
  | ok l =>
    rw [pathExists_of_locate hlocate] at hexists
    obtain ⟨e, he⟩ := Option.isSome_iff_exists.mp hexists
    cases e with
    | file content =>
      refine ⟨1, .error (.io .notDirectory), Yields.names_bind fun t' ht => ?_, ?_⟩
      · rw [AgreeBut.names_of_agree ht hlocate (not_isOutput_runPath hlocate), he]
        exact .done 0 _
      · rintro _ ⟨⟩
        rfl
    | directory =>
      have hread : ∀ name ∈ dataNames (t.childNames l),
          Yields (SameInputs c t) 1 (do
            return (Path.join (c.runPath run) name,
              ← Storage.read (Path.join (c.runPath run) name))) []
            (Path.join (c.runPath run) name, t.read (Path.join (c.runPath run) name)) := by
        intro name hname
        obtain ⟨hmem, hdata⟩ := mem_dataNames.mp hname
        refine Yields.bind_of_done
          (yields_read hlocate he (hwf.isName_of_mem_childNames hmem) hdata) ?_
        exact .done 0 _
      have hreads := Yields.mapM hread
      rw [List.flatMap_eq_nil_iff.mpr fun _ _ => rfl] at hreads
      cases hdata : dataNames (t.childNames l) with
      | nil =>
        refine ⟨1, .error (.noDataFiles (c.runPath run)), Yields.names_bind fun t' ht => ?_, ?_⟩
        · rw [AgreeBut.names_of_agree ht hlocate (not_isOutput_runPath hlocate), he]
          simp only [dataNames_eq_of_sameInputs ht l, hdata]
          exact .done 0 _
        · rintro _ ⟨⟩
          rfl
      | cons name names =>
        rw [hdata] at hreads
        refine ⟨((name :: names).map fun _ => 1).sum + 1, .ok ((name :: names).map fun name =>
          (Path.join (c.runPath run) name, t.read (Path.join (c.runPath run) name))),
          Yields.names_bind fun t' ht => ?_, nofun⟩
        rw [AgreeBut.names_of_agree ht hlocate (not_isOutput_runPath hlocate), he]
        simp only [dataNames_eq_of_sameInputs ht l, hdata]
        refine hreads.bind_of_done ?_
        exact .done 0 _

theorem yields_write (hexists : t.pathExists c.hitPath = true) (run : Int) (content : Bytes) :
    (∃ l, IsOutputOf c t run l ∧ t.locate (c.hitFilePath run) = .ok l ∧
        t.entryAt? l ≠ some .directory ∧
        Yields (SameInputs c t) 1 (Storage.write (c.hitFilePath run) content) [(l, content)]
          (.ok ())) ∨
      (∀ held, t.read (c.hitFilePath run) ≠ .ok held) ∧
        ∃ cause, Yields (SameInputs c t) 1 (Storage.write (c.hitFilePath run) content) []
          (.error cause) := by
  cases hlocate : t.locate c.hitPath with
  | error cause =>
    rw [pathExists_of_locate_error hlocate] at hexists
    cases hexists
  | ok directory =>
    have hfile := fun t' (ht : SameInputs c t t') => locate_hitFilePath hlocate ht run
    have hhere := hfile t (AgreeBut.refl t)
    cases hwalk : t.walk directory [Config.hitName run] with
    | error cause =>
      refine .inr ⟨fun held => ?_, cause, Yields.write_error fun t' ht => ?_⟩
      · rw [read_of_locate_error (hhere.trans hwalk)]
        nofun
      · exact write_of_locate_error ((hfile t' ht).trans hwalk) content
    | ok l =>
      have houtput := isOutputOf_of_walk hlocate hwalk
      by_cases hdirectory : t.entryAt? l = some .directory
      · refine .inr ⟨fun held => ?_, .isDirectory, Yields.write_error fun t' ht => ?_⟩
        · rw [read_of_locate (hhere.trans hwalk), hdirectory]
          nofun
        · rw [write_of_locate ((hfile t' ht).trans hwalk),
            if_pos ((ht.directory_iff _).mp hdirectory)]
      · refine .inl ⟨l, houtput, hhere.trans hwalk, hdirectory,
          Yields.write_ok (fun t' ht => ?_) fun t' ht => ?_⟩
        · rw [write_of_locate ((hfile t' ht).trans hwalk),
            if_neg (mt (ht.directory_iff _).mpr hdirectory)]
        · exact sameInputs_insert ht houtput hdirectory content

/-- What a run writes that comes to `result`: to its hit file what its data files are reduced to, or
nothing, if it ends before the hit file is opened or if there is none and it cannot be opened. -/
inductive RunWrites (c : Config) (t : FileTree) (run : Int) (observed : Bool) :
    (writes : List (Location × Bytes)) → (result : Except Error Summary) → Prop
  | early {e : Error} (hearly : e.isBeforeOutput = true) :
    RunWrites c t run observed [] (.error e)
  | unopened (cause : IoError) (hnone : ∀ held, t.read (c.hitFilePath run) ≠ .ok held) :
    RunWrites c t run observed [] (.error (.hitFile (.io cause)))
  | hitFile {l : Location} (files : List (String × Except IoError Bytes))
    (houtput : IsOutputOf c t run l) (hlocate : t.locate (c.hitFilePath run) = .ok l)
    (hdirectory : t.entryAt? l ≠ some .directory) :
    RunWrites c t run observed
      [(l, (reduce c.skipBadFrames run ⟨0, observed⟩ (c.hitFilePath run) files).1)]
      (reduce c.skipBadFrames run ⟨0, observed⟩ (c.hitFilePath run) files).2.result

theorem RunWrites.isOutputOf {observed : Bool} {writes : List (Location × Bytes)}
    {result : Except Error Summary} (h : RunWrites c t run observed writes result) :
    ∀ l ∈ writes.map (·.1), IsOutputOf c t run l := by
  cases h with
  | early => simp
  | unopened => simp
  | hitFile files houtput _ _ =>
    intro l' hl'
    rw [List.map_singleton, List.mem_singleton] at hl'
    rwa [hl']

theorem reduce_worker (worker worker' : Worker) (h : worker.observed = worker'.observed)
    (skipBadFrames : Bool) (run : Int) (hitFile : String)
    (files : List (String × Except IoError Bytes)) :
    (reduce skipBadFrames run worker hitFile files).1 =
        (reduce skipBadFrames run worker' hitFile files).1 ∧
      (reduce skipBadFrames run worker hitFile files).2.result =
        (reduce skipBadFrames run worker' hitFile files).2.result := by
  rw [reduce, reduce, h]
  split
  · exact ⟨rfl, rfl⟩
  · generalize (State.start (totalSize files)).takeFiles skipBadFrames files = taken
    obtain ⟨s, error?⟩ := taken
    cases error? with
    | none => exact ⟨rfl, rfl⟩
    | some e => exact ⟨rfl, rfl⟩

/-- What a run does once its data files are known and there is a directory for its hit file. -/
theorem yields_finish (hexists : t.pathExists c.hitPath = true) (run : Int) (observed : Bool)
    (files : List (String × Except IoError Bytes)) (found : Notice) :
    ∃ writes result,
      (∀ worker : Worker, worker.observed = observed → ∃ report : Report Summary,
        report.result = result ∧
          Yields (SameInputs c t) 1 (do
            let (content, report) :=
              reduce c.skipBadFrames run worker (c.hitFilePath run) files
            match ← Storage.write (c.hitFilePath run) content with
            | .error e => return ⟨.error (.hitFile (.io e)), [], [found]⟩
            | .ok () => return { report with notices := found :: report.notices }) writes report) ∧
        RunWrites c t run observed writes result := by
  rcases yields_write hexists run
      (reduce c.skipBadFrames run ⟨0, observed⟩ (c.hitFilePath run) files).1 with
    ⟨l, houtput, hlocate, hdirectory, hwrite⟩ | ⟨hnone, cause, hwrite⟩
  · refine ⟨_, _, fun worker hworker => ?_, .hitFile files houtput hlocate hdirectory⟩
    obtain ⟨hcontent, hresult⟩ :=
      reduce_worker worker ⟨0, observed⟩ hworker c.skipBadFrames run (c.hitFilePath run) files
    rw [← hcontent] at hwrite ⊢
    rw [← hresult]
    generalize reduce c.skipBadFrames run worker (c.hitFilePath run) files = reduced at hwrite ⊢
    obtain ⟨content, report⟩ := reduced
    exact ⟨{ report with notices := found :: report.notices }, rfl,
      hwrite.bind_of_done (.done 0 _)⟩
  · refine ⟨[], .error (.hitFile (.io cause)), fun worker hworker => ?_, .unopened cause hnone⟩
    obtain ⟨hcontent, -⟩ :=
      reduce_worker worker ⟨0, observed⟩ hworker c.skipBadFrames run (c.hitFilePath run) files
    rw [← hcontent] at hwrite
    exact ⟨_, rfl, hwrite.bind_of_done (.done 0 _)⟩

/-- **One run.** Whichever worker processes it, a run comes to the same result and writes the same,
and it writes at most its hit file. -/
theorem yields_processRun (hwf : t.WellFormed) (c : Config) (run : Int) (observed : Bool) :
    ∃ n writes result,
      (∀ worker : Worker, worker.observed = observed → ∃ report : Report Summary,
        report.result = result ∧
          Yields (SameInputs c t) n (processRun c worker run) writes report) ∧
        RunWrites c t run observed writes result := by
  have hdirectory := yields_runDirectory c t run
  cases hrun : t.pathExists (c.runPath run) with
  | false =>
    rw [hrun] at hdirectory
    refine ⟨1, [], .error (.config (.missingPath (c.runPath run))), fun worker _ => ?_, .early rfl⟩
    exact ⟨_, rfl, hdirectory.bind_of_done (.done 0 _)⟩
  | true =>
    rw [hrun] at hdirectory
    obtain ⟨n, files, hfiles, hearly⟩ := yields_dataFiles hwf hrun
    cases files with
    | error e =>
      refine ⟨1 + n, [], .error e, fun worker _ => ?_, .early (hearly e rfl)⟩
      exact ⟨_, rfl, hdirectory.bind_of_nil (hfiles.bind_of_done (.done 0 _))⟩
    | ok files =>
      have hhitFile := yields_hitFile c t run
      cases hhitPath : t.pathExists c.hitPath with
      | false =>
        rw [hhitPath] at hhitFile
        refine ⟨1 + (n + 1), [], .error (.config (.missingPath c.hitPath)), fun worker _ => ?_,
          .early rfl⟩
        exact ⟨_, rfl,
          hdirectory.bind_of_nil (hfiles.bind_of_nil (hhitFile.bind_of_done (.done 0 _)))⟩
      | true =>
        rw [hhitPath] at hhitFile
        let size := Text.byteSize (totalSize files)
        obtain ⟨writes, result, hfinish, hwrote⟩ := yields_finish hhitPath run observed files
          ⟨.info, s!"Found {files.length} GRAW files with total size: {size}"⟩
        refine ⟨1 + (n + (1 + 1)), writes, result, fun worker hworker => ?_, hwrote⟩
        obtain ⟨report, hresult, hyields⟩ := hfinish worker hworker
        refine ⟨report, hresult, ?_⟩
        exact hdirectory.bind_of_nil (hfiles.bind_of_nil (hhitFile.bind_of_nil hyields))

end yields

/-! ## Runs alone -/

/-- What comes of a run if nothing else is processed, and the tree it leaves. -/
def alone (c : Config) (t : FileTree) (run : Int) : Report Summary × FileTree :=
  (processRun c ⟨0, true⟩ run : StateM FileTree _).run t

/-- Why a run fails if nothing else is processed. A run without data does not fail. -/
def failureAlone? (c : Config) (t : FileTree) (run : Int) : Option Error :=
  if t.pathExists (c.runPath run) then
    match (alone c t run).1.result with
    | .error e => some e
    | .ok _ => none
  else none

/-- The runs up to the first that fails alone. -/
def reached (c : Config) (t : FileTree) : List Int → List Int
  | [] => []
  | run :: rest => run :: if (failureAlone? c t run).isSome then [] else reached c t rest

section alone
variable {c : Config} {t : FileTree} {run : Int}

theorem alone_of_missing (h : t.pathExists (c.runPath run) = false) : (alone c t run).2 = t := by
  rw [alone, processRun, FileTree.run_bind, Config.run_runDirectory, h]
  rfl

/-- A run that is processed while hit files change comes to what it comes to alone. -/
theorem yields_processRun_alone (hwf : t.WellFormed) (c : Config) (run : Int) :
    ∃ n writes,
      (∀ worker : Worker, worker.observed = true → ∃ report : Report Summary,
        report.result = (alone c t run).1.result ∧
          Yields (SameInputs c t) n (processRun c worker run) writes report) ∧
        (alone c t run).2 = t.writeAll writes ∧ SameInputs c t (alone c t run).2 ∧
        ∀ l ∈ writes.map (·.1), IsOutputOf c t run l := by
  obtain ⟨n, writes, result, hyields, hwrote⟩ := yields_processRun hwf c run true
  obtain ⟨report, hresult, hreport⟩ := hyields ⟨0, true⟩ rfl
  obtain ⟨hrun, hsame⟩ := hreport.run (AgreeBut.refl t)
  have halone : alone c t run = (report, t.writeAll writes) :=
    (simulates_processRun c ⟨0, true⟩ run t).symm.trans hrun
  refine ⟨n, writes, ?_, ?_, ?_, hwrote.isOutputOf⟩
  · rw [halone, hresult]
    exact hyields
  · rw [halone]
  · rw [halone]
    exact hsame

theorem reached_cons_of_none {rest : List Int} (h : failureAlone? c t run = none) :
    reached c t (run :: rest) = run :: reached c t rest := by
  rw [reached, h]
  rfl

theorem reached_cons_of_some {rest : List Int} {e : Error} (h : failureAlone? c t run = some e) :
    reached c t (run :: rest) = [run] := by
  rw [reached, h]
  rfl

theorem reached_subset (runs : List Int) : reached c t runs ⊆ runs := by
  induction runs with
  | nil => exact List.Subset.refl _
  | cons run rest ih =>
    rw [reached]
    refine List.cons_subset_cons run ?_
    split
    · exact List.nil_subset rest
    · exact ih

/-- The writes and the result are those of runs one after the other: the first that fails alone
ends them, and the hit files of those up to that one are as they are alone. -/
structure OneByOne (c : Config) (t : FileTree) (runs : List Int)
    (writes : List (Location × Bytes)) (result : Except Error Unit) : Prop where
  result_eq : result = (runs.findSome? (failureAlone? c t)).elim (.ok ()) .error
  exists_isOutputOf : ∀ l ∈ writes.map (·.1), ∃ run ∈ reached c t runs, IsOutputOf c t run l
  entry_eq : ∀ run ∈ reached c t runs, ∀ l, IsOutputOf c t run l →
    (t.writeAll writes).entryAt? l = (alone c t run).2.entryAt? l

namespace OneByOne

variable {rest : List Int} {writes later : List (Location × Bytes)} {result : Except Error Unit}

theorem nil : OneByOne c t [] [] (.ok ()) :=
  ⟨rfl, by simp, by simp [reached]⟩

theorem cons (hfailure : failureAlone? c t run = none)
    (htree : (alone c t run).2 = t.writeAll writes)
    (houtput : ∀ l ∈ writes.map (·.1), IsOutputOf c t run l) (hrun : run ∉ rest)
    (h : OneByOne c t rest later result) :
    OneByOne c t (run :: rest) (writes ++ later) result := by
  -- no output of the run is written by the others, nor any of theirs by the run
  have hlater : ∀ l, IsOutputOf c t run l → l ∉ later.map (·.1) := fun l hl hmem => by
    obtain ⟨run', hrun', hl'⟩ := h.exists_isOutputOf l hmem
    rw [hl.run_eq hl'] at hrun
    exact hrun (reached_subset rest hrun')
  have hwrites : ∀ run' ∈ reached c t rest, ∀ l, IsOutputOf c t run' l →
      l ∉ writes.map (·.1) := fun run' hrun' l hl hmem => by
    rw [(houtput l hmem).run_eq hl] at hrun
    exact hrun (reached_subset rest hrun')
  refine ⟨?_, ?_, ?_⟩
  · rw [List.findSome?_cons, hfailure]
    exact h.result_eq
  · rw [reached_cons_of_none hfailure, List.map_append]
    intro l hl
    rcases List.mem_append.mp hl with hl | hl
    · exact ⟨run, List.mem_cons_self, houtput l hl⟩
    · obtain ⟨run', hrun', hl'⟩ := h.exists_isOutputOf l hl
      exact ⟨run', List.mem_cons_of_mem _ hrun', hl'⟩
  · rw [reached_cons_of_none hfailure]
    intro run' hrun' l hl
    rw [writeAll_append]
    rcases List.mem_cons.mp hrun' with rfl | hrun'
    · rw [entryAt?_writeAll_of_notMem (hlater l hl), htree]
    · rw [← h.entry_eq run' hrun' l hl]
      exact entryAt?_writeAll_congr (entryAt?_writeAll_of_notMem (hwrites run' hrun' l hl)) later

theorem cons_of_failure {e : Error} (hfailure : failureAlone? c t run = some e)
    (htree : (alone c t run).2 = t.writeAll writes)
    (houtput : ∀ l ∈ writes.map (·.1), IsOutputOf c t run l) (rest : List Int) :
    OneByOne c t (run :: rest) writes (.error e) := by
  refine ⟨?_, ?_, ?_⟩
  · rw [List.findSome?_cons, hfailure]
    rfl
  · rw [reached_cons_of_some hfailure]
    exact fun l hl => ⟨run, List.mem_singleton.mpr rfl, houtput l hl⟩
  · rw [reached_cons_of_some hfailure]
    intro run' hrun' l _
    rw [List.mem_singleton.mp hrun', htree]

end OneByOne

/-- **A list of runs.** Whatever hit files others write, it comes to what its runs come to one after
the other. -/
theorem yields_processSubset (hwf : t.WellFormed) (c : Config) (worker : Worker)
    (hworker : worker.observed = true) {runs : List Int} (hnodup : runs.Nodup) :
    ∃ n writes report,
      Yields (SameInputs c t) n (processSubset c worker runs) writes report ∧
        OneByOne c t runs writes report.result := by
  induction runs with
  | nil => exact ⟨0, [], _, .done 0 _, .nil⟩
  | cons run rest ih =>
    obtain ⟨hrun, hrest⟩ := List.nodup_cons.mp hnodup
    obtain ⟨m, later, laterReport, hlater, honeByOne⟩ := ih hrest
    have hexists := yields_runExists c t run
    cases hfound : t.pathExists (c.runPath run) with
    | false =>
      rw [hfound] at hexists
      refine ⟨1 + m, later, _, hexists.bind_of_nil (hlater.bind_of_done (.done 0 _)), ?_⟩
      have hfailure : failureAlone? c t run = none := by
        rw [failureAlone?, hfound]
        rfl
      have htree : (alone c t run).2 = t.writeAll [] := alone_of_missing hfound
      exact .cons hfailure htree (by simp) hrun honeByOne
    | true =>
      rw [hfound] at hexists
      obtain ⟨n, writes, hyields, htree, -, houtput⟩ := yields_processRun_alone hwf c run
      obtain ⟨⟨result, statuses, notices⟩, hresult, hyieldsRun⟩ := hyields worker hworker
      have hfailure : failureAlone? c t run = match (alone c t run).1.result with
          | .error e => some e
          | .ok _ => none := by rw [failureAlone?, if_pos hfound]
      cases halone : (alone c t run).1.result with
      | error e =>
        rw [halone] at hfailure
        cases hresult.trans halone
        exact ⟨1 + n, writes, _, hexists.bind_of_nil (hyieldsRun.bind_of_done (.done 0 _)),
          .cons_of_failure hfailure htree houtput rest⟩
      | ok summary =>
        rw [halone] at hfailure
        cases hresult.trans halone
        exact ⟨1 + (n + m), writes ++ later, _,
          hexists.bind_of_nil (hyieldsRun.bind (hlater.bind_of_done (.done 0 _))),
          .cons hfailure htree houtput hrun honeByOne⟩

end alone

end PulseHits.Run
