import Mathlib.Data.List.Intervals
import Mathlib.Data.List.Perm.Basic
import PulseHits.Proofs.Share
import PulseHits.Run.Subsets

/-!
# The shares of the workers

Dealing out gives every place its share (`deal_eq`), so the shares together have each element once
(`perm_flatten_deal`). The runs of a configuration are dealt out to its workers: run by run they are as
many apart as there are workers, and no worker has two runs more than another (`sharedOut_subsets`).
-/

namespace PulseHits

section deal
variable {α : Type} {count : Nat} {xs : List α}

theorem getElem?_foldl_modify (count : Nat) (pairs : List (α × Nat))
    (shares : Array (Array α)) (place : Nat) :
    ((pairs.foldl (fun shares (x, i) => shares.modify (i % count) (·.push x))
        shares)[place]?).map Array.toList =
      (shares[place]?).map fun dealt =>
        dealt.toList ++ (pairs.filter fun p => p.2 % count = place).map (·.1) := by
  induction pairs generalizing shares with
  | nil => simp
  | cons p pairs ih =>
    rw [List.foldl_cons, ih, Array.getElem?_modify]
    by_cases hp : p.2 % count = place
    · rw [if_pos hp, List.filter_cons_of_pos (by simpa using hp), Option.map_map]
      congr 1
      funext dealt
      simp
    · rw [if_neg hp, List.filter_cons_of_neg (by simpa using hp)]

theorem deal_eq (count : Nat) (xs : List α) :
    deal count xs = (List.range count).map (share count xs) := by
  refine List.ext_getElem? fun place => ?_
  have hplace := getElem?_foldl_modify count xs.zipIdx
    (Array.replicate count (#[] : Array α)) place
  rw [deal, List.getElem?_map, Array.getElem?_toList]
  refine hplace.trans ?_
  rw [Array.getElem?_replicate, List.getElem?_map]
  by_cases hlt : place < count
  · rw [if_pos hlt, List.getElem?_range hlt]
    rfl
  · rw [if_neg hlt, List.getElem?_eq_none (by simpa using hlt)]
    rfl

theorem length_deal (count : Nat) (xs : List α) : (deal count xs).length = count := by
  rw [deal_eq, List.length_map, List.length_range]

theorem getElem?_deal {place : Nat} {dealt : List α} (h : (deal count xs)[place]? = some dealt) :
    place < count ∧ dealt = share count xs place := by
  rw [deal_eq, List.getElem?_map] at h
  obtain ⟨place', hplace', rfl⟩ := Option.map_eq_some_iff.mp h
  obtain ⟨hlt, hget⟩ := List.getElem?_eq_some_iff.mp hplace'
  rw [List.length_range] at hlt
  rw [List.getElem_range] at hget
  exact ⟨hlt, by rw [hget]⟩

theorem mem_deal_iff {dealt : List α} :
    dealt ∈ deal count xs ↔ ∃ place, place < count ∧ dealt = share count xs place := by
  rw [deal_eq, List.mem_map]
  simp only [List.mem_range, eq_comm]

theorem perm_flatten_deal (hcount : 0 < count) (hxs : xs.Nodup) :
    (deal count xs).flatten.Perm xs := by
  have hnodup : (deal count xs).flatten.Nodup := by
    rw [List.nodup_flatten, deal_eq]
    refine ⟨fun dealt hdealt => ?_, ?_⟩
    · obtain ⟨place, -, rfl⟩ := List.mem_map.mp hdealt
      exact hxs.sublist (share_sublist _ _ place)
    · rw [List.pairwise_map]
      refine List.pairwise_lt_range.imp fun {place place'} hlt => ?_
      intro x hx hx'
      exact absurd (eq_of_mem_share hxs hx hx') (Nat.ne_of_lt hlt)
  refine (List.perm_ext_iff_of_nodup hnodup hxs).mpr fun x => ?_
  rw [List.mem_flatten, mem_iff_exists_share hcount]
  simp only [mem_deal_iff]
  constructor
  · rintro ⟨_, ⟨place, hplace, rfl⟩, hx⟩
    exact ⟨place, hplace, hx⟩
  · rintro ⟨place, hplace, hx⟩
    exact ⟨_, ⟨place, hplace, rfl⟩, hx⟩

theorem filter_deal (count : Nat) (xs : List α) :
    (deal count xs).filter (fun dealt => !dealt.isEmpty) =
      (deal count xs).take (min count xs.length) := by
  have hrange : (List.range count).filter (· < xs.length) = List.range (min count xs.length) := by
    rw [← List.Ico.zero_bot, ← List.Ico.zero_bot, List.Ico.filter_lt]
  have hempty : ∀ place ∈ List.range count,
      (!(share count xs place).isEmpty) = decide (place < xs.length) := by
    intro place hplace
    have hnil : share count xs place = [] ↔ xs.length ≤ place :=
      share_eq_nil_iff (List.mem_range.mp hplace)
    rw [Bool.eq_iff_iff, Bool.not_eq_true', List.isEmpty_eq_false_iff, decide_eq_true_eq, Ne, hnil,
      Nat.not_le]
  rw [deal_eq, List.filter_map, ← List.map_take, List.take_range, Nat.min_right_comm, Nat.min_self,
    ← hrange]
  exact congrArg _ (List.filter_congr hempty)

end deal

/-! ## The runs of a configuration -/

namespace Config

theorem length_runs (c : Config) :
    c.runs.length = (c.lastRun.toInt + 1 - c.firstRun.toInt).toNat := by
  rw [runs, List.length_map, List.length_range]

theorem getElem?_runs (c : Config) (i : Nat) :
    c.runs[i]? = if c.firstRun.toInt + i ≤ c.lastRun.toInt then some (c.firstRun.toInt + i)
      else none := by
  rw [runs, List.getElem?_map]
  by_cases hi : c.firstRun.toInt + i ≤ c.lastRun.toInt
  · rw [if_pos hi, List.getElem?_range (by omega), Option.map_some]
  · rw [if_neg hi, List.getElem?_eq_none (by rw [List.length_range]; omega), Option.map_none]

theorem mem_runs {c : Config} {run : Int} :
    run ∈ c.runs ↔ c.firstRun.toInt ≤ run ∧ run ≤ c.lastRun.toInt := by
  rw [runs, List.mem_map]
  constructor
  · rintro ⟨i, hi, rfl⟩
    rw [List.mem_range] at hi
    omega
  · rintro ⟨hfirst, hlast⟩
    refine ⟨(run - c.firstRun.toInt).toNat, List.mem_range.mpr (by omega), by omega⟩

theorem pairwise_runs (c : Config) : c.runs.Pairwise (· < ·) := by
  rw [runs, List.pairwise_map]
  refine List.pairwise_lt_range.imp fun hlt => ?_
  omega

theorem nodup_runs (c : Config) : c.runs.Nodup :=
  c.pairwise_runs.imp Int.ne_of_lt

/-- The runs of a configuration are shared out among so many workers. -/
structure SharedOut (c : Config) (workers : Nat) (shares : List (List Int)) : Prop where
  length_eq : shares.length = workers
  /-- From one run of a share to the next there are as many runs as there are workers. -/
  getElem?_eq : ∀ (i : Nat) (runs : List Int), shares[i]? = some runs → ∀ j : Nat,
    runs[j]? = if c.firstRun.toInt + (i + j * workers : Nat) ≤ c.lastRun.toInt then
      some (c.firstRun.toInt + (i + j * workers : Nat)) else none
  /-- Every run is in one share, once. -/
  count_eq : ∀ run : Int, shares.flatten.count run =
    if c.firstRun.toInt ≤ run ∧ run ≤ c.lastRun.toInt then 1 else 0
  pairwise_lt : ∀ runs ∈ shares, runs.Pairwise (· < ·)
  /-- The shares differ by one run at most, and the larger ones come first. -/
  length_le : ∀ (i i' : Nat) (runs runs' : List Int), i ≤ i' → shares[i]? = some runs →
    shares[i']? = some runs' → runs'.length ≤ runs.length ∧ runs.length ≤ runs'.length + 1
  /-- As many workers as possible have a run, and they are the first ones. -/
  filter_eq : shares.filter (fun runs => !runs.isEmpty) =
    shares.take (min workers (c.lastRun.toInt + 1 - c.firstRun.toInt).toNat)
  eq_nil : c.lastRun.toInt < c.firstRun.toInt → ∀ runs ∈ shares, runs = []

theorem sharedOut_deal (c : Config) {workers : Nat} (hpos : 0 < workers) :
    c.SharedOut workers (deal workers c.runs) where
  length_eq := length_deal workers c.runs
  getElem?_eq i runs hruns j := by
    obtain ⟨hi, rfl⟩ := getElem?_deal hruns
    rw [getElem?_share hi, getElem?_runs]
  count_eq run := by
    rw [(perm_flatten_deal hpos c.nodup_runs).count_eq, c.nodup_runs.count]
    simp only [mem_runs]
  pairwise_lt runs hruns := by
    obtain ⟨place, -, rfl⟩ := mem_deal_iff.mp hruns
    exact c.pairwise_runs.sublist (share_sublist _ _ place)
  length_le i i' runs runs' hle hruns hruns' := by
    obtain ⟨hi', rfl⟩ := getElem?_deal hruns'
    obtain ⟨-, rfl⟩ := getElem?_deal hruns
    exact length_share_le hle hi'
  filter_eq := by
    rw [filter_deal, length_runs]
  eq_nil hlt runs hruns := by
    obtain ⟨place, hplace, rfl⟩ := mem_deal_iff.mp hruns
    refine (share_eq_nil_iff hplace).mpr ?_
    rw [length_runs]
    omega

theorem toInt_lastRun_add_one {c : Config} (hlast : c.lastRun.toInt < 2147483647) :
    (c.lastRun + 1).toInt = c.lastRun.toInt + 1 := by
  have hleast : -2 ^ 31 ≤ c.lastRun.toInt := c.lastRun.le_toInt
  rw [Int32.toInt_add, show (1 : Int32).toInt = 1 from rfl]
  exact Int.bmod_eq_of_le (by omega) (by omega)

/-- **The runs are shared out fairly.** As long as the number behind the last run can be counted to,
whatever number of workers is asked for: there are as many shares, one at least, and each run is in
one of them. -/
theorem sharedOut_subsets {c : Config} (hlast : c.lastRun.toInt < 2147483647) :
    (c.lastRun + 1).toInt = c.lastRun.toInt + 1 ∧
      c.SharedOut (max c.workers.toInt 1).toNat c.subsets :=
  ⟨toInt_lastRun_add_one hlast, c.sharedOut_deal (by omega)⟩

/-- Fewer runs than workers, on both sides of zero, and a number of workers that is no number of
workers. -/
theorem sharedOut_acrossZero :
    let c : Config := ⟨"graw", "hits", -2, 0, 5, true⟩
    let alone : Config := { c with workers := -3 }
    (c.lastRun.toInt < 2147483647 ∧ c.SharedOut 5 c.subsets ∧
        c.subsets = [[-2], [-1], [0], [], []]) ∧
      alone.SharedOut 1 alone.subsets ∧ alone.subsets = [[-2, -1, 0]] := by
  intro c alone
  have hlast : c.lastRun.toInt < 2147483647 := by decide
  exact ⟨⟨hlast, (sharedOut_subsets hlast).2, by decide⟩,
    (sharedOut_subsets (c := alone) hlast).2, by decide⟩

end Config

end PulseHits
