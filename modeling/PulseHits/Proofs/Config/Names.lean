import PulseHits.Config.Files
import PulseHits.Proofs.Storage.Path

/-!
# The names of runs

Zeros in front of a number do not change it, with or without a sign behind them, so runs with
different numbers have different names (`runName_injective`). A run name has neither a dot nor a
slash in it: it leads to one place in a directory, and neither it nor the name of a hit file is the
name of a data file. What is found for a run goes by these names (`run_runDirectory`, `run_hitFile`).
-/

namespace PulseHits.Config

/-! ## Numbers with zeros in front -/

/-- The number that is written with zeros in front. -/
def unpad (padded : List Char) : Int :=
  let value : Nat := Nat.ofDigitChars 10 (padded.filter Char.isDigit) 0
  if '-' ∈ padded then -value else value

theorem toList_toString (run : Int) :
    (toString run).toList = (if run < 0 then ['-'] else []) ++ Nat.toDigits 10 run.natAbs := by
  rw [Int.toString_eq_repr, Int.repr_eq_if]
  by_cases h : run < 0
  · rw [if_neg (by omega), if_pos h, String.toList_append, Nat.toList_repr,
      show (-run).toNat = run.natAbs by omega]
    rfl
  · rw [if_pos (by omega), if_neg h, Nat.toList_repr, show run.toNat = run.natAbs by omega]
    rfl

theorem isDigit_of_mem_toDigits {c : Char} {n : Nat} (h : c ∈ Nat.toDigits 10 n) :
    c.isDigit = true :=
  Nat.isDigit_of_mem_toDigits (by decide) (by decide) h

/-- Neither a sign nor zeros in front have a part in the value of the digits. -/
theorem ofDigitChars_leftpad (n : Nat) {sign : List Char} (hsign : sign.filter Char.isDigit = [])
    (value : Nat) :
    Nat.ofDigitChars 10 ((List.replicate n '0' ++ (sign ++ Nat.toDigits 10 value)).filter
      Char.isDigit) 0 = value := by
  have hdigits : (Nat.toDigits 10 value).filter Char.isDigit = Nat.toDigits 10 value :=
    List.filter_eq_self.mpr fun c hc => isDigit_of_mem_toDigits hc
  rw [List.filter_append, List.filter_append, hsign, hdigits, List.nil_append,
    List.filter_replicate_of_pos (by decide), Nat.ofDigitChars_append]
  simp

theorem unpad_leftpad (run : Int) : unpad ((toString run).toList.leftpad 4 '0') = run := by
  have hminus : '-' ∉ Nat.toDigits 10 run.natAbs := fun h => by
    have := isDigit_of_mem_toDigits h
    cases this
  rw [unpad, toList_toString, List.leftpad]
  generalize 4 - _ = n
  by_cases h : run < 0
  · rw [if_pos h, ofDigitChars_leftpad n rfl, if_pos (by simp)]
    omega
  · rw [if_neg h, ofDigitChars_leftpad n rfl, if_neg (by simp [hminus])]
    omega

theorem runName_injective {run run' : Int} (h : runName run = runName run') : run = run' := by
  have hlist := congrArg String.toList h
  rw [runName, runName, String.toList_append, String.toList_append] at hlist
  have hpadded := List.append_cancel_left hlist
  rw [String.toList_ofList, String.toList_ofList] at hpadded
  rw [← unpad_leftpad run, hpadded, unpad_leftpad]

/-! ## Names and extensions -/

/-- The name of the hit file of a run. -/
abbrev hitName (run : Int) : String :=
  runName run ++ ".hits"

theorem toList_runName (run : Int) :
    ∃ rest, (runName run).toList = 'r' :: 'u' :: 'n' :: '_' :: rest ∧
      ∀ c ∈ rest, c.isDigit = true ∨ c = '-' := by
  refine ⟨(toString run).toList.leftpad 4 '0', ?_, fun c hc => ?_⟩
  · rw [runName, String.toList_append, String.toList_ofList, String.toList_ofList]
    rfl
  · rw [List.leftpad, toList_toString, List.mem_append, List.mem_append] at hc
    rcases hc with hzero | hsign | hdigit
    · rw [List.eq_of_mem_replicate hzero]
      exact .inl rfl
    · split at hsign
      · exact .inr (List.mem_singleton.mp hsign)
      · cases hsign
    · exact .inl (isDigit_of_mem_toDigits hdigit)

theorem notMem_runName {c : Char} (hfront : c ∉ ['r', 'u', 'n', '_']) (hdigit : c.isDigit = false)
    (hminus : c ≠ '-') (run : Int) : c ∉ (runName run).toList := by
  obtain ⟨rest, hrest, hchars⟩ := toList_runName run
  rw [hrest]
  intro hmem
  rcases List.mem_append.mp (show c ∈ ['r', 'u', 'n', '_'] ++ rest from hmem) with hmem | hmem
  · exact hfront hmem
  · rcases hchars c hmem with h | h
    · rw [hdigit] at h
      cases h
    · exact hminus h

theorem dot_notMem_runName (run : Int) : '.' ∉ (runName run).toList :=
  notMem_runName (by decide) rfl (by decide) run

theorem slash_notMem_runName (run : Int) : '/' ∉ (runName run).toList :=
  notMem_runName (by decide) rfl (by decide) run

theorem isName_runName (run : Int) : Path.IsName (runName run) := by
  obtain ⟨rest, hrest, -⟩ := toList_runName run
  exact .of_cons hrest (by decide) (slash_notMem_runName run)

theorem toList_hitName (run : Int) :
    (hitName run).toList = (runName run).toList ++ ['.', 'h', 'i', 't', 's'] := by
  rw [hitName, String.toList_append]
  rfl

theorem isName_hitName (run : Int) : Path.IsName (hitName run) := by
  obtain ⟨rest, hrest, -⟩ := toList_runName run
  have hlist := toList_hitName run
  have hslash : '/' ∉ (hitName run).toList := by
    rw [hlist, List.mem_append]
    rintro (hmem | hmem)
    · exact slash_notMem_runName run hmem
    · simp at hmem
  rw [hrest] at hlist
  exact .of_cons hlist (by decide) hslash

theorem hitName_injective {run run' : Int} (h : hitName run = hitName run') : run = run' := by
  have hlist := congrArg String.toList h
  rw [toList_hitName, toList_hitName] at hlist
  exact runName_injective (String.toList_injective (List.append_cancel_right hlist))

theorem runName_ne_hitName (run run' : Int) : runName run ≠ hitName run' := by
  intro h
  refine dot_notMem_runName run ?_
  rw [h, toList_hitName]
  exact List.mem_append_right _ List.mem_cons_self

theorem extension?_hitName (run : Int) : Path.extension? (hitName run) = some "hits" := by
  obtain ⟨rest, hrest, -⟩ := toList_runName run
  have hlist := toList_hitName run
  have hafter : (((hitName run).toList.reverse.takeWhile (· != '.')).reverse) =
      ['h', 'i', 't', 's'] := by
    rw [hlist, List.reverse_append]
    simp [List.takeWhile]
  rw [Path.extension?]
  simp only [hafter]
  rw [if_neg]
  have hdots := (isName_hitName run).ne_dots
  simp [hlist, hrest, hdots]

/-! ## What is found for a run -/

theorem run_runDirectory (c : Config) (run : Int) (t : FileTree) :
    (c.runDirectory run : StateM FileTree _).run t =
      (if t.pathExists (c.runPath run) then .ok (c.runPath run)
        else .error (.missingPath (c.runPath run)), t) := by
  rw [runDirectory, FileTree.run_bind, FileTree.run_pathExists]
  cases t.pathExists (c.runPath run) <;> rfl

theorem run_hitFile (c : Config) (run : Int) (t : FileTree) :
    (c.hitFile run : StateM FileTree _).run t =
      (if t.pathExists c.hitPath then .ok (c.hitFilePath run)
        else .error (.missingPath c.hitPath), t) := by
  rw [hitFile, FileTree.run_bind, FileTree.run_pathExists]
  cases t.pathExists c.hitPath <;> rfl

end PulseHits.Config
