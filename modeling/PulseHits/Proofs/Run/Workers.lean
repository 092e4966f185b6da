import PulseHits.CommandLine.Program
import PulseHits.Proofs.Run.Jobs
import PulseHits.Proofs.Run.Shares

/-!
# Workers that share runs

The workers of a configuration work on one tree, each on its share of the runs, and take turns at
every use of the storage in any order. No run is in two shares and no two runs share a hit file, so
each worker comes to the end that its runs come to alone (`Plan`), in whichever order the workers
take turns (`result_of_finished`, `read_of_reached`, `read_of_not_reached`).
-/

namespace PulseHits.Run

open FileTree Job

/-- The workers of a configuration, each before the first of its runs. -/
def workers (c : Config) (t : FileTree) : Pool (Report Unit) where
  jobs := c.subsets.zipIdx.map fun (runs, number) => processSubset c ⟨number, true⟩ runs
  tree := t

/-- The runs of a worker. -/
def shareOf (c : Config) (number : Nat) : List Int :=
  share c.subsets.length c.runs number

section shares
variable {c : Config} {t : FileTree} {i j : Nat} {run : Int}

theorem getElem?_subsets {runs : List Int} (h : c.subsets[i]? = some runs) :
    runs = shareOf c i := by
  rw [shareOf, Config.subsets, length_deal]
  exact (getElem?_deal h).2

theorem nodup_shareOf (c : Config) (i : Nat) : (shareOf c i).Nodup :=
  c.nodup_runs.sublist (share_sublist _ _ i)

theorem eq_of_mem_shareOf (h : run ∈ shareOf c i) (h' : run ∈ shareOf c j) : i = j :=
  eq_of_mem_share c.nodup_runs h h'

theorem length_subsets_pos : 0 < c.subsets.length := by
  rw [Config.subsets, length_deal]
  omega

theorem mem_runs_iff : run ∈ c.runs ↔ ∃ i, i < c.subsets.length ∧ run ∈ shareOf c i :=
  mem_iff_exists_share length_subsets_pos

theorem mem_runs_of_mem_shareOf (h : run ∈ shareOf c i) : run ∈ c.runs :=
  (share_sublist _ _ i).mem h

theorem getElem?_jobs {job : Job (Report Unit)} (h : (workers c t).jobs[i]? = some job) :
    job = processSubset c ⟨i, true⟩ (shareOf c i) := by
  rw [workers, List.getElem?_map, List.getElem?_zipIdx, Option.map_map] at h
  obtain ⟨runs, hruns, rfl⟩ := Option.map_eq_some_iff.mp h
  rw [getElem?_subsets hruns, Nat.zero_add]
  rfl

end shares

/-- What the workers are going to do, in whichever order they take turns. -/
structure Plan (c : Config) (t : FileTree) where
  due : Nat → Nat
  writes : Nat → List (Location × Bytes)
  ends : Nat → Report Unit
  yields : ∀ i, Yields (SameInputs c t) (due i) (processSubset c ⟨i, true⟩ (shareOf c i)) (writes i)
    (ends i)
  oneByOne : ∀ i, OneByOne c t (shareOf c i) (writes i) (ends i).result

theorem nonempty_plan {t : FileTree} (hwf : t.WellFormed) (c : Config) : Nonempty (Plan c t) := by
  choose due writes ends hyields honeByOne using fun i =>
    yields_processSubset hwf c ⟨i, true⟩ rfl (nodup_shareOf c i)
  exact ⟨⟨due, writes, ends, hyields, honeByOne⟩⟩

section finished
variable {c : Config} {t : FileTree} {turns : List Nat} {reports : List (Report Unit)} {i j : Nat}
  {run : Int} {l : Location}

theorem length_reports (h : ((workers c t).interleave turns).Finished reports) :
    reports.length = c.subsets.length := by
  have hlength := Pool.length_interleave (workers c t) turns
  rw [h, List.length_map, workers, List.length_map, List.length_zipIdx] at hlength
  exact hlength

namespace Plan

theorem underway (p : Plan c t) :
    Pool.Underway (SameInputs c t) t p.writes p.ends p.due (fun _ => []) (workers c t) := by
  refine ⟨.refl t, fun i job hjob => ⟨p.writes i, rfl, ?_⟩, fun _ _ _ => rfl⟩
  rw [getElem?_jobs hjob]
  exact p.yields i

theorem finished (p : Plan c t) (hdue : ∀ i < c.subsets.length, p.due i ≤ turns.count i) :
    ((workers c t).interleave turns).Finished ((List.range c.subsets.length).map p.ends) := by
  obtain ⟨made, hunderway⟩ := Pool.underway_interleave p.underway turns
  have hlength : ((workers c t).interleave turns).jobs.length = c.subsets.length := by
    rw [Pool.length_interleave, workers, List.length_map, List.length_zipIdx]
  have hfinished := hunderway.finished fun i hi => by
    rw [hlength] at hi
    exact Nat.sub_eq_zero_of_le (hdue i hi)
  rwa [hlength] at hfinished

theorem notMem_writes (p : Plan c t) (hrun : run ∈ shareOf c i) (hl : IsOutputOf c t run l)
    (hj : j ≠ i) : l ∉ (p.writes j).map (·.1) := by
  intro hmem
  obtain ⟨run', hrun', hl'⟩ := (p.oneByOne j).exists_isOutputOf l hmem
  rw [← hl.run_eq hl'] at hrun'
  exact hj (eq_of_mem_shareOf (reached_subset _ hrun') hrun)

theorem reports_eq (p : Plan c t) (h : ((workers c t).interleave turns).Finished reports) :
    reports = (List.range c.subsets.length).map p.ends := by
  obtain ⟨made, hunderway⟩ := Pool.underway_interleave p.underway turns
  refine List.ext_getElem? fun i => ?_
  rw [List.getElem?_map]
  by_cases hi : i < c.subsets.length
  · have hlt : i < reports.length := by rwa [length_reports h]
    rw [List.getElem?_range hi, List.getElem?_eq_getElem hlt,
      (hunderway.of_finished h (List.getElem?_eq_getElem hlt)).1]
    rfl
  · rw [List.getElem?_eq_none (by rw [length_reports h]; omega),
      List.getElem?_eq_none (by rw [List.length_range]; omega)]
    rfl

/-- At a place that no other worker writes to, the tree is as the worker leaves it. -/
theorem entryAt?_of_finished (p : Plan c t)
    (h : ((workers c t).interleave turns).Finished reports) (hi : i < c.subsets.length)
    (hl : ∀ j, j ≠ i → l ∉ (p.writes j).map (·.1)) :
    ((workers c t).interleave turns).tree.entryAt? l = (t.writeAll (p.writes i)).entryAt? l := by
  obtain ⟨made, hunderway⟩ := Pool.underway_interleave p.underway turns
  have hlt : i < reports.length := by rwa [length_reports h]
  exact (hunderway.of_finished h (List.getElem?_eq_getElem hlt)).2 l hl

end Plan

/-! ## The ends of the workers -/

theorem sameInputs_interleave (hwf : t.WellFormed) (c : Config) (turns : List Nat) :
    SameInputs c t ((workers c t).interleave turns).tree := by
  obtain ⟨p⟩ := nonempty_plan hwf c
  obtain ⟨made, hunderway⟩ := Pool.underway_interleave p.underway turns
  exact hunderway.inside

theorem result_of_finished (hwf : t.WellFormed)
    (h : ((workers c t).interleave turns).Finished reports) {report : Report Unit}
    (hreport : reports[i]? = some report) :
    report.result = ((shareOf c i).findSome? (failureAlone? c t)).elim (.ok ()) .error := by
  obtain ⟨p⟩ := nonempty_plan hwf c
  rw [p.reports_eq h, List.getElem?_map] at hreport
  obtain ⟨i', hi', rfl⟩ := Option.map_eq_some_iff.mp hreport
  obtain ⟨hlt, rfl⟩ := List.getElem?_eq_some_iff.mp hi'
  rw [List.getElem_range, (p.oneByOne _).result_eq]

theorem entryAt?_of_reached (hwf : t.WellFormed)
    (h : ((workers c t).interleave turns).Finished reports) (hi : i < c.subsets.length)
    (hrun : run ∈ reached c t (shareOf c i)) (hl : IsOutputOf c t run l) :
    ((workers c t).interleave turns).tree.entryAt? l = (alone c t run).2.entryAt? l := by
  obtain ⟨p⟩ := nonempty_plan hwf c
  rw [p.entryAt?_of_finished h hi fun j hj => p.notMem_writes (reached_subset _ hrun) hl hj,
    (p.oneByOne i).entry_eq run hrun l hl]

theorem entryAt?_of_not_reached (hwf : t.WellFormed)
    (h : ((workers c t).interleave turns).Finished reports)
    (hl : ∀ i, ∀ run ∈ reached c t (shareOf c i), ¬ IsOutputOf c t run l) :
    ((workers c t).interleave turns).tree.entryAt? l = t.entryAt? l := by
  obtain ⟨p⟩ := nonempty_plan hwf c
  have hnot : ∀ i, l ∉ (p.writes i).map (·.1) := fun i hmem => by
    obtain ⟨run, hrun, houtput⟩ := (p.oneByOne i).exists_isOutputOf l hmem
    exact hl i run hrun houtput
  rw [p.entryAt?_of_finished h length_subsets_pos fun j _ => hnot j,
    entryAt?_writeAll_of_notMem (hnot 0)]

theorem read_of_reached (hwf : t.WellFormed)
    (h : ((workers c t).interleave turns).Finished reports) (hi : i < c.subsets.length)
    (hrun : run ∈ reached c t (shareOf c i)) :
    ((workers c t).interleave turns).tree.read (c.hitFilePath run) =
      (alone c t run).2.read (c.hitFilePath run) := by
  obtain ⟨-, -, -, -, halone, -⟩ := yields_processRun_alone hwf c run
  exact read_hitFilePath_congr (sameInputs_interleave hwf c turns) halone fun l hl =>
    entryAt?_of_reached hwf h hi hrun hl

theorem read_of_not_reached (hwf : t.WellFormed)
    (h : ((workers c t).interleave turns).Finished reports) (hrun : run ∈ shareOf c i)
    (hreached : run ∉ reached c t (shareOf c i)) :
    ((workers c t).interleave turns).tree.read (c.hitFilePath run) =
      t.read (c.hitFilePath run) := by
  refine read_hitFilePath_congr (sameInputs_interleave hwf c turns) (.refl t) fun l hl => ?_
  refine entryAt?_of_not_reached hwf h fun j run' hrun' hl' => ?_
  rw [← hl.run_eq hl'] at hrun'
  rw [eq_of_mem_shareOf (reached_subset _ hrun') hrun] at hrun'
  exact hreached hrun'

end finished

end PulseHits.Run
