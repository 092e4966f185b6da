import PulseHits.Proofs.Run.Jobs

/-!
# The places of runs

Every path that belongs to a run ends in a name made from its number, and a place goes by the last name
of the path to it. So two runs have neither the directory of their data nor their hit file in common,
wherever the configuration puts them, and a hit file is nowhere taken for a directory of data or for a
data file (`runs_apart`).
-/

namespace PulseHits

namespace Path

/-- Two paths that differ and in no tree lead to the same place. -/
structure NeverMeet (path path' : String) : Prop where
  ne : path ≠ path'
  locate_ne : ∀ (t : FileTree) (l : Location), t.locate path = .ok l → t.locate path' ≠ .ok l

theorem neverMeet_join (base base' : String) {name name' : String} (hname : IsName name)
    (hname' : IsName name') (hne : name ≠ name') :
    NeverMeet (join base name) (join base' name') where
  ne heq := by
    have hlast := getLast?_parts_join base hname.slash_notMem
    rw [heq, getLast?_parts_join base' hname'.slash_notMem] at hlast
    exact hne (Option.some.inj hlast).symm
  locate_ne t l hl hl' := by
    obtain ⟨parent, rfl⟩ := FileTree.exists_eq_concat_of_locate_join hname hl
    obtain ⟨parent', heq⟩ := FileTree.exists_eq_concat_of_locate_join hname' hl'
    exact hne (List.append_singleton_inj.mp heq).2

end Path

namespace Run

open Config (runName hitName)

section found
variable {c : Config} {run : Int} {t : FileTree} {path : String}

theorem eq_runPath_of_runDirectory
    (h : ((c.runDirectory run : StateM FileTree _).run t).1 = .ok path) : path = c.runPath run := by
  rw [Config.run_runDirectory] at h
  split at h
  · exact (Except.ok.inj h).symm
  · cases h

theorem eq_hitFilePath_of_hitFile
    (h : ((c.hitFile run : StateM FileTree _).run t).1 = .ok path) : path = c.hitFilePath run := by
  rw [Config.run_hitFile] at h
  split at h
  · exact (Except.ok.inj h).symm
  · cases h

end found

/-- Two runs that share nothing, neither by the paths that belong to them nor by what is found for
them, whatever the tree is by the time. -/
structure Apart (c : Config) (run run' : Int) : Prop where
  runName_ne : runName run ≠ runName run'
  runPath : Path.NeverMeet (c.runPath run) (c.runPath run')
  runDirectory : ∀ (t t' : FileTree) (directory directory' : String),
    ((c.runDirectory run : StateM FileTree _).run t).1 = .ok directory →
    ((c.runDirectory run' : StateM FileTree _).run t').1 = .ok directory' →
    Path.NeverMeet directory directory'
  hitFilePath : Path.NeverMeet (c.hitFilePath run) (c.hitFilePath run')
  hitFile : ∀ (t t' : FileTree) (file file' : String),
    ((c.hitFile run : StateM FileTree _).run t).1 = .ok file →
    ((c.hitFile run' : StateM FileTree _).run t').1 = .ok file' →
    Path.NeverMeet file file'

theorem apart_of_ne (c : Config) {run run' : Int} (hne : run ≠ run') : Apart c run run' := by
  have hrunName : runName run ≠ runName run' := fun heq => hne (Config.runName_injective heq)
  have hhitName : hitName run ≠ hitName run' := fun heq => hne (Config.hitName_injective heq)
  have hrunPath : Path.NeverMeet (c.runPath run) (c.runPath run') :=
    Path.neverMeet_join c.grawPath c.grawPath (Config.isName_runName run)
      (Config.isName_runName run') hrunName
  have hhitFilePath : Path.NeverMeet (c.hitFilePath run) (c.hitFilePath run') :=
    Path.neverMeet_join c.hitPath c.hitPath (Config.isName_hitName run)
      (Config.isName_hitName run') hhitName
  refine ⟨hrunName, hrunPath, fun t t' directory directory' h h' => ?_, hhitFilePath,
    fun t t' file file' h h' => ?_⟩
  · rw [eq_runPath_of_runDirectory h, eq_runPath_of_runDirectory h']
    exact hrunPath
  · rw [eq_hitFilePath_of_hitFile h, eq_hitFilePath_of_hitFile h']
    exact hhitFilePath

/-- What the hit file of a run is never taken for. -/
structure HitFileApart (c : Config) (run : Int) : Prop where
  /-- The name under which the hit file is found. -/
  getLast?_parts : (Path.parts (c.hitFilePath run)).getLast? = some (hitName run)
  hitName_ne_runName : ∀ run', hitName run ≠ runName run'
  /-- It is the directory of no run, not even under another configuration. -/
  runPath : ∀ (c' : Config) (run' : Int), Path.NeverMeet (c.hitFilePath run) (c'.runPath run')
  extension_ne : Path.extension? (hitName run) ≠ some dataExtension
  /-- In whichever directory it is, it is not read as data. -/
  notMem_dataNames : ∀ names, hitName run ∉ dataNames names

theorem hitFileApart (c : Config) (run : Int) : HitFileApart c run where
  getLast?_parts := Path.getLast?_parts_join c.hitPath (Config.isName_hitName run).slash_notMem
  hitName_ne_runName run' := (Config.runName_ne_hitName run' run).symm
  runPath c' run' := Path.neverMeet_join c.hitPath c'.grawPath (Config.isName_hitName run)
    (Config.isName_runName run') (Config.runName_ne_hitName run' run).symm
  extension_ne := by
    rw [Config.extension?_hitName]
    decide
  notMem_dataNames names hmem := by
    have hdata := (mem_dataNames.mp hmem).2
    rw [isData_hitName] at hdata
    cases hdata

/-- **Runs never collide.** Numbers that differ, be they negative or of more than four digits, give
different names, so two runs share neither a directory of data nor a hit file. And the hit file of a
run is no run's directory and no data file. -/
theorem runs_apart (c : Config) (run : Int) :
    (∀ run', run ≠ run' → Apart c run run') ∧ HitFileApart c run :=
  ⟨fun _ hne => apart_of_ne c hne, hitFileApart c run⟩

/-- Runs on both sides of zero, with data and hits in one directory. The zeros stand in front of the
sign. -/
theorem runs_apart_acrossZero :
    let c : Config := ⟨".", ".", -1, 1, 1, true⟩
    let t : FileTree := ⟨["data"], [(["data"], .directory), (["data", "run_00-1"], .directory),
      (["data", "run_0001"], .directory)]⟩
    (-1 : Int) ≠ 1 ∧
      ((c.runDirectory (-1) : StateM FileTree _).run t).1 = .ok "./run_00-1" ∧
      ((c.runDirectory 1 : StateM FileTree _).run t).1 = .ok "./run_0001" ∧
      ((c.hitFile (-1) : StateM FileTree _).run t).1 = .ok "./run_00-1.hits" ∧
      t.locate "./run_00-1" = .ok ["data", "run_00-1"] ∧
      Apart c (-1) 1 ∧ HitFileApart c (-1) := by
  have hne : (-1 : Int) ≠ 1 := by decide
  obtain ⟨hapart, hhitFile⟩ := runs_apart ⟨".", ".", -1, 1, 1, true⟩ (-1)
  exact ⟨hne, by decide, by decide, by decide, by decide, hapart 1 hne, hhitFile⟩

end Run

end PulseHits
