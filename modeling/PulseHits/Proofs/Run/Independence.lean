import Mathlib.Algebra.Order.BigOperators.Group.List
import Mathlib.Algebra.Order.Group.Nat
import Mathlib.Data.Nat.Cast.Basic
import PulseHits.CommandLine.Program
import PulseHits.Proofs.Run.HitFile
import PulseHits.Proofs.Run.Workers

/-!
# Independence of the workers

Whatever the number of workers and the order of their turns, they compare with the same runs
processed one by one: the files are the same if no run fails, and if one fails, the worker that has
it ends with it and nobody else notices (`workers_independent`). The program prints how each worker
with runs has fared, in the order of the workers.
-/

namespace PulseHits.Run

open FileTree Job

/-! ## One run after the other -/

section reached
variable {c : Config} {t : FileTree} {run : Int}

theorem reached_of_none {runs : List Int} (h : ∀ run ∈ runs, failureAlone? c t run = none) :
    reached c t runs = runs := by
  induction runs with
  | nil => rfl
  | cons run rest ih =>
    rw [reached_cons_of_none (h run List.mem_cons_self),
      ih fun run' hrun' => h run' (List.mem_cons_of_mem _ hrun')]

theorem reached_of_failure {before : List Int} {e : Error}
    (h : ∀ b ∈ before, failureAlone? c t b = none) (hrun : failureAlone? c t run = some e)
    (after : List Int) :
    reached c t (before ++ run :: after) = before ++ [run] := by
  induction before with
  | nil =>
    rw [List.nil_append, reached_cons_of_some hrun]
    rfl
  | cons b before ih =>
    rw [List.cons_append, reached_cons_of_none (h b List.mem_cons_self),
      ih fun b' hb' => h b' (List.mem_cons_of_mem _ hb')]
    rfl

theorem failureAlone?_eq_some_iff {e : Error} :
    failureAlone? c t run = some e ↔
      t.pathExists (c.runPath run) = true ∧ (alone c t run).1.result = .error e := by
  rw [failureAlone?]
  by_cases hexists : t.pathExists (c.runPath run) = true
  · rw [if_pos hexists]
    cases (alone c t run).1.result <;> simp [hexists]
  · rw [if_neg hexists]
    simp [hexists]

theorem failureAlone?_eq_none_iff :
    failureAlone? c t run = none ↔
      (t.pathExists (c.runPath run) = true → (alone c t run).1.result.isOk = true) := by
  rw [failureAlone?]
  by_cases hexists : t.pathExists (c.runPath run) = true
  · rw [if_pos hexists]
    cases (alone c t run).1.result <;> simp [hexists, Except.isOk, Except.toBool]
  · rw [if_neg hexists]
    simp [hexists]

theorem isOk_elim_iff (failure? : Option Error) :
    (failure?.elim (.ok ()) .error : Except Error Unit).isOk = true ↔ failure? = none := by
  cases failure? <;> simp [Except.isOk, Except.toBool]

theorem run_process (hwf : t.WellFormed) (c : Config) (number : Nat) :
    ∃ writes report, (process c ⟨number, true⟩ : StateM FileTree _).run t =
        (report, t.writeAll writes) ∧ SameInputs c t (t.writeAll writes) ∧
      OneByOne c t c.runs writes report.result := by
  obtain ⟨n, writes, report, hyields, honeByOne⟩ :=
    yields_processSubset hwf c ⟨number, true⟩ rfl c.nodup_runs
  obtain ⟨hrun, hsame⟩ := hyields.run (AgreeBut.refl t)
  refine ⟨writes, report, ?_, hsame, honeByOne⟩
  exact (simulates_processSubset c ⟨number, true⟩ c.runs t).symm.trans hrun

end reached

/-! ## All workers together -/

section finished
variable {c : Config} {t : FileTree} {turns : List Nat} {reports : List (Report Unit)}

theorem forall_isOk_iff (hwf : t.WellFormed)
    (h : ((workers c t).interleave turns).Finished reports) :
    (∀ report ∈ reports, report.result.isOk = true) ↔
      ∀ run ∈ c.runs, failureAlone? c t run = none := by
  constructor
  · intro hok run hrun
    obtain ⟨i, hi, hmem⟩ := mem_runs_iff.mp hrun
    have hlt : i < reports.length := by rwa [length_reports h]
    have hreport := hok reports[i] (List.getElem_mem hlt)
    rw [result_of_finished hwf h (List.getElem?_eq_getElem hlt), isOk_elim_iff,
      List.findSome?_eq_none_iff] at hreport
    exact hreport run hmem
  · intro hnone report hreport
    obtain ⟨i, hi⟩ := List.getElem?_of_mem hreport
    rw [result_of_finished hwf h hi, isOk_elim_iff, List.findSome?_eq_none_iff]
    exact fun run hrun => hnone run (mem_runs_of_mem_shareOf hrun)

theorem entryAt?_eq_of_none (hwf : t.WellFormed)
    (h : ((workers c t).interleave turns).Finished reports)
    (hnone : ∀ run ∈ c.runs, failureAlone? c t run = none) (number : Nat) (l : Location) :
    ((workers c t).interleave turns).tree.entryAt? l =
      ((process c ⟨number, true⟩ : StateM FileTree _).run t).2.entryAt? l := by
  obtain ⟨writes, report, hrun, -, -, hwhere, hentry⟩ := run_process hwf c number
  rw [hrun]
  rw [reached_of_none hnone] at hwhere hentry
  by_cases hl : ∃ run ∈ c.runs, IsOutputOf c t run l
  · obtain ⟨run, hmem, houtput⟩ := hl
    obtain ⟨i, hi, hshare⟩ := mem_runs_iff.mp hmem
    have hreached : run ∈ reached c t (shareOf c i) := by
      rw [reached_of_none fun run' hrun' => hnone run' (mem_runs_of_mem_shareOf hrun')]
      exact hshare
    rw [entryAt?_of_reached hwf h hi hreached houtput]
    exact (hentry run hmem l houtput).symm
  · have hnot : l ∉ writes.map (·.1) := fun hmem => hl (hwhere l hmem)
    refine (entryAt?_of_not_reached hwf h fun i run hrun houtput => ?_).trans
      (entryAt?_writeAll_of_notMem hnot).symm
    exact hl ⟨run, mem_runs_of_mem_shareOf (reached_subset _ hrun), houtput⟩

theorem isOk_process_iff (hwf : t.WellFormed)
    (h : ((workers c t).interleave turns).Finished reports) (number : Nat) :
    ((process c ⟨number, true⟩ : StateM FileTree _).run t).1.result.isOk = true ↔
      ∀ report ∈ reports, report.result.isOk = true := by
  obtain ⟨writes, report, hrun, -, honeByOne⟩ := run_process hwf c number
  rw [forall_isOk_iff hwf h, hrun, honeByOne.result_eq, isOk_elim_iff,
    List.findSome?_eq_none_iff]

theorem read_eq_of_forall_isOk (hwf : t.WellFormed)
    (h : ((workers c t).interleave turns).Finished reports)
    (hok : ∀ report ∈ reports, report.result.isOk = true) (number : Nat) (path : String) :
    ((workers c t).interleave turns).tree.read path =
      ((process c ⟨number, true⟩ : StateM FileTree _).run t).2.read path := by
  have hnone := (forall_isOk_iff hwf h).mp hok
  obtain ⟨writes, report, hrun, hsame, -⟩ := run_process hwf c number
  have hstart : ((workers c t).interleave turns).tree.workingDirectory =
      ((process c ⟨number, true⟩ : StateM FileTree _).run t).2.workingDirectory := by
    rw [hrun, ← hsame.workingDirectory_eq]
    exact (sameInputs_interleave hwf c turns).workingDirectory_eq.symm
  exact read_congr hstart (entryAt?_eq_of_none hwf h hnone number) path

section worker
variable {i : Nat} {report : Report Unit}

theorem read_of_isOk (hwf : t.WellFormed) (h : ((workers c t).interleave turns).Finished reports)
    (hi : i < c.subsets.length) (hreport : reports[i]? = some report)
    (hok : report.result.isOk = true) {run : Int} (hrun : run ∈ shareOf c i) :
    ((workers c t).interleave turns).tree.read (c.hitFilePath run) =
      (alone c t run).2.read (c.hitFilePath run) := by
  rw [result_of_finished hwf h hreport, isOk_elim_iff, List.findSome?_eq_none_iff] at hok
  refine read_of_reached hwf h hi ?_
  rwa [reached_of_none hok]

/-- A worker that fails has reached the first of its runs that fails alone, and no later one. -/
theorem exists_reached_of_error (hwf : t.WellFormed)
    (h : ((workers c t).interleave turns).Finished reports) (hreport : reports[i]? = some report)
    {e : Error} (he : report.result = .error e) :
    ∃ before run after, shareOf c i = before ++ run :: after ∧
      (∀ b ∈ before, failureAlone? c t b = none) ∧ failureAlone? c t run = some e ∧
      reached c t (shareOf c i) = before ++ [run] ∧
      ∀ a ∈ after, a ∉ reached c t (shareOf c i) := by
  rw [result_of_finished hwf h hreport] at he
  cases hfailure : (shareOf c i).findSome? (failureAlone? c t) with
  | none =>
    rw [hfailure] at he
    cases he
  | some e' =>
    rw [hfailure] at he
    cases he
    obtain ⟨before, run, after, hshare, hrun, hbefore⟩ := List.findSome?_eq_some_iff.mp hfailure
    have hreached : reached c t (shareOf c i) = before ++ [run] := by
      rw [hshare]
      exact reached_of_failure hbefore hrun after
    have hnodup := nodup_shareOf c i
    rw [hshare, ← List.singleton_append, ← List.append_assoc, ← hreached] at hnodup
    exact ⟨before, run, after, hshare, hbefore, hrun, hreached,
      fun a ha hmem => List.disjoint_of_nodup_append hnodup hmem ha⟩

end worker

end finished

/-! ## The program -/

section program
variable {c : Config} {t : FileTree} {turns : List Nat} {reports : List (Report Unit)}

theorem run_load (path : String) (t : FileTree) :
    ((Config.load path : StateM FileTree _).run t).2 = t := by
  rw [Config.load, FileTree.run_bind, run_pathExists]
  cases t.pathExists path with
  | false => rfl
  | true =>
    simp only [if_true]
    rw [FileTree.run_bind, run_read]
    cases t.read path <;> rfl

/-- The program has each worker with runs do what it does among the others. -/
theorem run_work (hwf : t.WellFormed)
    (h : ((workers c t).interleave turns).Finished reports) :
    ((CommandLine.work c : StateM FileTree _).run t).1 =
      ((c.subsets.zip reports).filter fun p => !p.1.isEmpty).map (·.2) := by
  obtain ⟨p⟩ := nonempty_plan hwf c
  have hyields : ∀ s ∈ c.subsets.zipIdx.filter fun s => !s.1.isEmpty,
      Yields (SameInputs c t) (p.due s.2) (processSubset c ⟨s.2, true⟩ s.1) (p.writes s.2)
        (p.ends s.2) := by
    rintro ⟨runs, number⟩ hs
    have hruns : runs = shareOf c number :=
      getElem?_subsets (List.mem_zipIdx_iff_getElem?.mp (List.mem_of_mem_filter hs))
    subst hruns
    exact p.yields number
  have hrun := ((Yields.mapM hyields).run (AgreeBut.refl t)).1
  have hsimulates : Simulates (CommandLine.work c) (CommandLine.work c) := by
    refine Simulates.mapM (fun s => ?_) _
    obtain ⟨runs, number⟩ := s
    exact simulates_processSubset c ⟨number, true⟩ runs
  rw [← hsimulates t]
  refine (congrArg Prod.fst hrun).trans ?_
  rw [p.reports_eq h, List.zip_map_right, List.zipIdx_eq_zip_range', List.range_eq_range',
    List.filter_map, List.map_map]
  rfl

/-- The lines for the workers that have runs, in the order of the workers. -/
def workerLines (c : Config) (reports : List (Report Unit)) : List Notice :=
  ((c.subsets.zip reports).filter fun p => !p.1.isEmpty).map fun p =>
    CommandLine.workerLine p.2.result

theorem run_commandLine_process (hwf : t.WellFormed)
    (h : ((workers c t).interleave turns).Finished reports) {path : String} {t₀ : FileTree}
    (hlog : t₀.write CommandLine.logFile [] = .ok t)
    (hload : ((Config.load path : StateM FileTree _).run t).1 = .ok c)
    (hworkers : c.hasWorkers = true) :
    ((CommandLine.process path : StateM FileTree _).run t₀).1 =
      CommandLine.info s!"Loading config from {path}..." :: CommandLine.configLines c ++
        workerLines c reports ++ [CommandLine.info "Done."] := by
  have hloaded : (Config.load path : StateM FileTree _).run t = (.ok c, t) :=
    Prod.ext hload (run_load path t)
  rw [CommandLine.process, FileTree.run_bind, run_write hlog]
  simp only
  rw [FileTree.run_bind, hloaded]
  simp only [hworkers, if_true]
  rw [FileTree.run_bind, FileTree.run_bind, FileTree.run_pure, run_work hwf h, workerLines,
    List.map_map]
  rfl

theorem level_workerLine_eq_iff (result : Except Error Unit) :
    (CommandLine.workerLine result).level = .error ↔ result.isOk = false := by
  cases result with
  | ok _ => exact ⟨fun h => (nomatch h), fun h => (nomatch h)⟩
  | error e => exact ⟨fun _ => rfl, fun _ => rfl⟩

end program

/-! ## Independence -/

/-- Workers that started on `t`, ended with `reports` and left `t'` compare with runs alone and
with the runs one by one. -/
structure Independent (c : Config) (t : FileTree) (reports : List (Report Unit)) (t' : FileTree) :
    Prop where
  /-- There is a report for each worker. -/
  length_eq : reports.length = c.subsets.length
  /-- The runs one by one succeed exactly if all workers do. -/
  isOk_iff : ∀ number : Nat,
    ((process c ⟨number, true⟩ : StateM FileTree _).run t).1.result.isOk = true ↔
      ∀ report ∈ reports, report.result.isOk = true
  /-- If they do, every file reads as after the runs one by one. -/
  read_eq : (∀ report ∈ reports, report.result.isOk = true) → ∀ (number : Nat) (path : String),
    t'.read path = ((process c ⟨number, true⟩ : StateM FileTree _).run t).2.read path
  /-- A worker that succeeds leaves the hit files of its runs as they are alone. -/
  succeeded : ∀ (i : Nat) (runs : List Int) (report : Report Unit), c.subsets[i]? = some runs →
    reports[i]? = some report → report.result.isOk = true → ∀ run ∈ runs,
      t'.read (c.hitFilePath run) = (alone c t run).2.read (c.hitFilePath run)
  /-- A worker that fails does so with the first of its runs that fails alone. It leaves the hit
  files up to this run as they are alone, and those of its later runs as they were. -/
  failed : ∀ (i : Nat) (runs : List Int) (report : Report Unit) (e : Error),
    c.subsets[i]? = some runs → reports[i]? = some report → report.result = .error e →
    ∃ before run after, runs = before ++ run :: after ∧
      (∀ b ∈ before, t.pathExists (c.runPath b) = true → (alone c t b).1.result.isOk = true) ∧
      t.pathExists (c.runPath run) = true ∧ (alone c t run).1.result = .error e ∧
      (∀ b ∈ before ++ [run],
        t'.read (c.hitFilePath b) = (alone c t b).2.read (c.hitFilePath b)) ∧
      ∀ a ∈ after, t'.read (c.hitFilePath a) = t.read (c.hitFilePath a)
  /-- The program that finds the tree behind its log file and the configuration in it prints one
  line for each worker that has runs, in their order. -/
  lines_eq : ∀ (path : String) (t₀ : FileTree), t₀.write CommandLine.logFile [] = .ok t →
    ((Config.load path : StateM FileTree _).run t).1 = .ok c → c.hasWorkers = true →
      ((CommandLine.process path : StateM FileTree _).run t₀).1 =
        CommandLine.info s!"Loading config from {path}..." :: CommandLine.configLines c ++
          workerLines c reports ++ [CommandLine.info "Done."]
  /-- The line is one of an error exactly if the worker failed. -/
  level_eq_iff : ∀ report ∈ reports,
    (CommandLine.workerLine report.result).level = .error ↔ report.result.isOk = false

/-- **Independence of the workers.** However the workers take turns at the tree, with enough turns
all come to an end, and whenever they have, they are independent: of their number, of the order of
the turns and of each other. The runs are those of the configuration as long as the number behind
the last one can be counted to. -/
theorem workers_independent {t : FileTree} (hwf : t.WellFormed) (c : Config) :
    (∃ n, ∀ turns : List Nat, (∀ i < c.subsets.length, n ≤ turns.count i) →
        ∃ reports, ((workers c t).interleave turns).Finished reports) ∧
      (∀ turns reports, ((workers c t).interleave turns).Finished reports →
        Independent c t reports ((workers c t).interleave turns).tree) ∧
      (c.lastRun.toInt < 2147483647 → (c.lastRun + 1).toInt = c.lastRun.toInt + 1) := by
  refine ⟨?_, fun turns reports h => ⟨length_reports h, isOk_process_iff hwf h,
    read_eq_of_forall_isOk hwf h, fun i runs report hruns hreport hok run hrun => ?_,
    fun i runs report e hruns hreport he => ?_, fun path t₀ => run_commandLine_process hwf h,
    fun report _ => level_workerLine_eq_iff report.result⟩, Config.toInt_lastRun_add_one⟩
  · obtain ⟨p⟩ := nonempty_plan hwf c
    refine ⟨((List.range c.subsets.length).map p.due).sum, fun turns hturns => ?_⟩
    refine ⟨_, p.finished fun i hi => Nat.le_trans ?_ (hturns i hi)⟩
    exact List.le_sum_of_mem (List.mem_map_of_mem (List.mem_range.mpr hi))
  · have hi : i < c.subsets.length := (List.getElem?_eq_some_iff.mp hruns).1
    rw [getElem?_subsets hruns] at hrun
    exact read_of_isOk hwf h hi hreport hok hrun
  · have hi : i < c.subsets.length := (List.getElem?_eq_some_iff.mp hruns).1
    obtain ⟨before, run, after, hshare, hbefore, hrun, hreached, hafter⟩ :=
      exists_reached_of_error hwf h hreport he
    obtain ⟨hexists, halone⟩ := failureAlone?_eq_some_iff.mp hrun
    refine ⟨before, run, after, (getElem?_subsets hruns).trans hshare,
      fun b hb => failureAlone?_eq_none_iff.mp (hbefore b hb), hexists, halone,
      fun b hb => ?_, fun a ha => ?_⟩
    · refine read_of_reached hwf h hi ?_
      rwa [hreached]
    · refine read_of_not_reached hwf h ?_ (hafter a ha)
      rw [hshare]
      exact List.mem_append_right _ (List.mem_cons_of_mem _ ha)

/-- Two workers that take turns, of which the second fails. -/
theorem workers_smallTree_independent :
    let c := { smallConfig with workers := 2 }
    smallTree.WellFormed ∧ ∃ n reports,
      let pool := (workers c smallTree).interleave (List.replicate n [0, 1]).flatten
      pool.Finished reports ∧ Independent c smallTree reports pool.tree := by
  have hwf : smallTree.WellFormed := ⟨by decide, by decide⟩
  refine ⟨hwf, ?_⟩
  obtain ⟨⟨n, hfinished⟩, hindependent, -⟩ :=
    workers_independent hwf { smallConfig with workers := 2 }
  obtain ⟨reports, hreports⟩ := hfinished (List.replicate n [0, 1]).flatten fun i hi => by
    have hlength : ({ smallConfig with workers := 2 } : Config).subsets.length = 2 := rfl
    have hcases : i = 0 ∨ i = 1 := by omega
    rw [List.count_flatten, List.map_replicate, List.sum_replicate]
    rcases hcases with rfl | rfl <;> simp
  exact ⟨n, reports, hreports, hindependent _ reports hreports⟩

end PulseHits.Run
