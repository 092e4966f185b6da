import PulseHits.Proofs.Run.HitFile
import PulseHits.Proofs.Run.Jobs

/-!
# What a run changes

A run finds the same inputs in all trees that differ in hit files only, so it comes to the same
report and writes the same in all of them (`exists_run_of_sameInputs`). It therefore changes its own
hit file at most, whatever that holds, and it writes that file unless it ends before or cannot open
it; processing it once more changes nothing, and two runs can be processed in either order
(`processRun_effect`).
-/

namespace PulseHits.Run

open FileTree Job

/-! ## Runs that do not get to their hit file -/

/-- Why a run leaves its hit file unwritten: it ends before, or the file cannot be opened. -/
def Error.isUnwritten : Error → Bool
  | .hitFile _ => true
  | e => e.isBeforeOutput

theorem Error.isUnwritten_of_isBeforeOutput {e : Error} (h : e.isBeforeOutput = true) :
    e.isUnwritten = true := by
  cases e with
  | hitFile _ => rfl
  | _ => exact h

theorem isUnwritten_of_failure? {skipBadFrames : Bool} {r : Except Frame.StreamError Frame}
    {e : Error} (h : failure? skipBadFrames r = some e) : e.isUnwritten = false := by
  unfold failure? at h
  split at h
  · cases h
    rfl
  · split at h
    · split at h
      · cases h
      · cases h
        rfl
    · cases h

theorem isUnwritten_of_reduce {skipBadFrames : Bool} {run : Int} {worker : Worker}
    {hitFile : String} {files : List (String × Except IoError Bytes)} {e : Error}
    (h : (reduce skipBadFrames run worker hitFile files).2.result = .error e) :
    e.isUnwritten = false := by
  cases hworker : worker.observed with
  | false =>
    rw [reduce, hworker] at h
    cases h
    rfl
  | true =>
    obtain ⟨s, error?, htaken, -, hresult⟩ := taken_reduce skipBadFrames run hitFile files hworker
    rw [h] at hresult
    cases htaken with
    | all _ _ => cases hresult
    | upTo _ _ _ _ hsome _ =>
      cases hresult
      exact isUnwritten_of_failure? hsome

section effect
variable {c : Config} {t t' : FileTree} {run run' : Int} {observed : Bool}
  {writes writes' : List (Location × Bytes)} {result result' : Except Error Summary}

/-! ## The writes of a run -/

theorem RunWrites.eq_nil {e : Error} (h : RunWrites c t run observed writes (.error e))
    (he : e.isUnwritten = true) : writes = [] := by
  generalize hresult : Except.error e = result at h
  cases h with
  | early => rfl
  | unopened => rfl
  | hitFile files _ _ _ =>
    rw [isUnwritten_of_reduce hresult.symm] at he
    cases he

theorem RunWrites.read_ne_ok {cause : Hit.FileError}
    (h : RunWrites c t run observed writes (.error (.hitFile cause))) (held : Bytes) :
    t.read (c.hitFilePath run) ≠ .ok held := by
  generalize hresult : Except.error (Error.hitFile cause) = result at h
  cases h with
  | early hearly =>
    cases hresult
    cases hearly
  | unopened _ hnone => exact hnone held
  | hitFile files _ _ _ =>
    have hwritten := isUnwritten_of_reduce hresult.symm
    cases hwritten

theorem RunWrites.exists_eq_singleton (h : RunWrites c t run observed writes result)
    (hresult : ∀ e, result = .error e → e.isUnwritten = false) :
    ∃ l content, t.locate (c.hitFilePath run) = .ok l ∧ t.entryAt? l ≠ some .directory ∧
      IsOutputOf c t run l ∧ writes = [(l, content)] := by
  cases h with
  | early hearly =>
    have hwritten := hresult _ rfl
    rw [Error.isUnwritten_of_isBeforeOutput hearly] at hwritten
    cases hwritten
  | unopened cause _ =>
    have hwritten := hresult _ rfl
    cases hwritten
  | hitFile _ houtput hlocate hdirectory =>
    exact ⟨_, _, hlocate, hdirectory, houtput, rfl⟩

theorem RunWrites.writeAll_writeAll (h : RunWrites c t run observed writes result)
    (t' : FileTree) : (t'.writeAll writes).writeAll writes = t'.writeAll writes := by
  cases h with
  | early => rfl
  | unopened => rfl
  | hitFile => exact insert_insert ..

theorem RunWrites.same_writeAll {observed' : Bool} (h : RunWrites c t run observed writes result)
    (h' : RunWrites c t run' observed' writes' result') (hne : run ≠ run') (t' : FileTree) :
    Same ((t'.writeAll writes).writeAll writes') ((t'.writeAll writes').writeAll writes) := by
  cases h with
  | early => exact .refl _
  | unopened => exact .refl _
  | hitFile _ houtput _ _ =>
    cases h' with
    | early => exact .refl _
    | unopened => exact .refl _
    | hitFile _ houtput' _ _ =>
      refine same_insert_insert ?_ t' _ _
      rintro rfl
      exact hne (houtput.run_eq houtput')

/-! ## Runs on trees with the same inputs -/

/-- On every tree that differs from `t` in hit files only, a run comes to the same report and writes
the same. -/
theorem exists_run_of_sameInputs (hwf : t.WellFormed) (c : Config) (worker : Worker) (run : Int) :
    ∃ writes report, RunWrites c t run worker.observed writes report.result ∧
      ∀ t', SameInputs c t t' →
        (processRun c worker run : StateM FileTree _).run t' = (report, t'.writeAll writes) ∧
          SameInputs c t (t'.writeAll writes) := by
  obtain ⟨n, writes, result, hyields, hwrites⟩ := yields_processRun hwf c run worker.observed
  obtain ⟨report, rfl, hreport⟩ := hyields worker rfl
  refine ⟨writes, report, hwrites, fun t' ht => ?_⟩
  obtain ⟨hrun, hsame⟩ := hreport.run ht
  exact ⟨(simulates_processRun c worker run t').symm.trans hrun, hsame⟩

end effect

/-! ## Once, again, and in either order -/

/-- What a run does that is processed on `t`, comes to `report` and leaves `t'`. -/
structure Effect (c : Config) (worker : Worker) (run : Int) (t : FileTree) (report : Report Summary)
    (t' : FileTree) : Prop where
  /-- A run that ends early, or whose hit file cannot be opened, changes nothing. -/
  unchanged : ∀ e, report.result = .error e → e.isUnwritten = true → t' = t
  /-- It comes to the same whatever the hit file holds. -/
  unread : ∀ e, report.result = .error e → e.isUnwritten = true →
    ∀ l, IsOutputOf c t run l → t.entryAt? l ≠ some .directory → ∀ old,
      (processRun c worker run : StateM FileTree _).run (t.insert l (.file old)) =
        (report, t.insert l (.file old))
  /-- A hit file that cannot be opened holds nothing. -/
  unopened : ∀ cause, report.result = .error (.hitFile cause) →
    ∀ held, t.read (c.hitFilePath run) ≠ .ok held
  /-- Every other run writes its hit file alone. Whatever that held, the same comes of it. -/
  written : (∀ e, report.result = .error e → e.isUnwritten = false) →
    ∃ l content, t.locate (c.hitFilePath run) = .ok l ∧ t.entryAt? l ≠ some .directory ∧
      t' = t.insert l (.file content) ∧ ∀ old,
        (processRun c worker run : StateM FileTree _).run (t.insert l (.file old)) = (report, t')
  /-- Among these is every run that has data files and whose hit file can be opened. -/
  written_of_ready : ∀ names, Ready c run t names →
    ∀ e, report.result = .error e → e.isUnwritten = false
  /-- Once more, the run comes to the same and changes nothing. -/
  again : (processRun c worker run : StateM FileTree _).run t' = (report, t')

theorem effect_of_runWrites {c : Config} {worker : Worker} {run : Int} {t : FileTree}
    {writes : List (Location × Bytes)} {report : Report Summary}
    (hwrites : RunWrites c t run worker.observed writes report.result)
    (hrun : ∀ t', SameInputs c t t' →
      (processRun c worker run : StateM FileTree _).run t' = (report, t'.writeAll writes) ∧
        SameInputs c t (t'.writeAll writes)) :
    Effect c worker run t report (t.writeAll writes) := by
  obtain ⟨houtcome, hsame⟩ := hrun t (AgreeBut.refl t)
  -- whatever the hit file held before, the run finds the same inputs
  have hold : ∀ l, IsOutputOf c t run l → t.entryAt? l ≠ some .directory → ∀ old,
      (processRun c worker run : StateM FileTree _).run (t.insert l (.file old)) =
        (report, (t.insert l (.file old)).writeAll writes) := by
    intro l houtput hdirectory old
    exact (hrun _ (sameInputs_insert (AgreeBut.refl t) houtput hdirectory old)).1
  have hnil : ∀ e, report.result = .error e → e.isUnwritten = true → writes = [] := by
    intro e he hunwritten
    rw [he] at hwrites
    exact hwrites.eq_nil hunwritten
  constructor
  case unchanged =>
    intro e he hunwritten
    rw [hnil e he hunwritten]
    rfl
  case unread =>
    intro e he hunwritten l houtput hdirectory old
    rw [hold l houtput hdirectory old, hnil e he hunwritten]
    rfl
  case unopened =>
    intro cause hresult
    rw [hresult] at hwrites
    exact hwrites.read_ne_ok
  case written =>
    intro hresult
    obtain ⟨l, content, hlocate, hdirectory, houtput, rfl⟩ := hwrites.exists_eq_singleton hresult
    refine ⟨l, content, hlocate, hdirectory, rfl, fun old => ?_⟩
    rw [hold l houtput hdirectory old]
    exact congrArg (report, ·) (insert_insert ..)
  case written_of_ready =>
    intro names hready e he
    have hreduced := (outcome_processRun hready worker).1
    simp only [houtcome, he] at hreduced
    exact isUnwritten_of_reduce hreduced.symm
  case again => rw [(hrun _ hsame).1, hwrites.writeAll_writeAll]

/-- **What a run changes.** Nothing if it ends before the hit file is opened or cannot open it, and
else the hit file alone. What that held does not matter, so to process the run twice is to process
it once; and two runs come to the same reports and the same tree in either order. -/
theorem processRun_effect {t : FileTree} (hwf : t.WellFormed) (c : Config) (worker : Worker)
    (run : Int) :
    let outcome := (processRun c worker run : StateM FileTree _).run t
    Effect c worker run t outcome.1 outcome.2 ∧
      ∀ (worker' : Worker) (run' : Int), run ≠ run' →
        let later := (processRun c worker' run' : StateM FileTree _).run outcome.2
        let outcome' := (processRun c worker' run' : StateM FileTree _).run t
        let later' := (processRun c worker run : StateM FileTree _).run outcome'.2
        later.1 = outcome'.1 ∧ later'.1 = outcome.1 ∧ Same later.2 later'.2 := by
  obtain ⟨writes, report, hwrites, hrun⟩ := exists_run_of_sameInputs hwf c worker run
  obtain ⟨houtcome, hsame⟩ := hrun t (AgreeBut.refl t)
  simp only [houtcome]
  refine ⟨effect_of_runWrites hwrites hrun, fun worker' run' hne => ?_⟩
  obtain ⟨writes', report', hwrites', hrun'⟩ := exists_run_of_sameInputs hwf c worker' run'
  obtain ⟨houtcome', hsame'⟩ := hrun' t (AgreeBut.refl t)
  simp only [houtcome', (hrun _ hsame').1, (hrun' _ hsame).1]
  exact ⟨trivial, trivial, hwrites.same_writeAll hwrites' hne t⟩

/-- A run that succeeds and one that breaks off. -/
theorem processRun_smallTree_effect :
    let outcome := (processRun smallConfig ⟨0, true⟩ 7 : StateM FileTree _).run smallTree
    let later := (processRun smallConfig ⟨1, true⟩ 8 : StateM FileTree _).run outcome.2
    let outcome' := (processRun smallConfig ⟨1, true⟩ 8 : StateM FileTree _).run smallTree
    let later' := (processRun smallConfig ⟨0, true⟩ 7 : StateM FileTree _).run outcome'.2
    smallTree.WellFormed ∧ Effect smallConfig ⟨0, true⟩ 7 smallTree outcome.1 outcome.2 ∧
      later.1 = outcome'.1 ∧ later'.1 = outcome.1 ∧ Same later.2 later'.2 := by
  have hwf : smallTree.WellFormed := ⟨by decide, by decide⟩
  obtain ⟨heffect, hcommute⟩ := processRun_effect hwf smallConfig ⟨0, true⟩ 7
  exact ⟨hwf, heffect, hcommute ⟨1, true⟩ 8 (by decide)⟩

end PulseHits.Run
