import Mathlib.Data.List.Induction
import Mathlib.Data.List.Nodup
import Mathlib.Data.Nat.ModEq

/-!
# What is dealt out in turns

Of elements that are dealt out in turns, the share at a place has those whose position leaves that
place as the remainder. The places before the remainder of all get one element more than the others
(`length_share`), and each element of a share stands a whole round behind the one before
(`getElem?_share`). So every element is in one share and in no other, and each share keeps the order.
-/

namespace PulseHits

section share
variable {α : Type} {count : Nat} {xs : List α}

/-- The elements at the positions that leave `place` as the remainder. -/
def share (count : Nat) (xs : List α) (place : Nat) : List α :=
  (xs.zipIdx.filter fun p => p.2 % count = place).map (·.1)

theorem mem_share_iff {place : Nat} {x : α} :
    x ∈ share count xs place ↔ ∃ i, xs[i]? = some x ∧ i % count = place := by
  rw [share, List.mem_map]
  constructor
  · rintro ⟨⟨y, i⟩, hy, rfl⟩
    obtain ⟨hmem, hi⟩ := List.mem_filter.mp hy
    exact ⟨i, List.mem_zipIdx_iff_getElem?.mp hmem, by simpa using hi⟩
  · rintro ⟨i, hx, hi⟩
    exact ⟨(x, i), List.mem_filter.mpr ⟨List.mem_zipIdx_iff_getElem?.mpr hx, by simpa using hi⟩, rfl⟩

theorem share_sublist (count : Nat) (xs : List α) (place : Nat) :
    (share count xs place).Sublist xs := by
  have h := (List.filter_sublist (l := xs.zipIdx)
    (p := fun p => decide (p.2 % count = place))).map (·.1)
  rwa [List.zipIdx_map_fst] at h

theorem eq_of_mem_share (hxs : xs.Nodup) {place place' : Nat} {x : α}
    (h : x ∈ share count xs place) (h' : x ∈ share count xs place') : place = place' := by
  obtain ⟨i, hi, rfl⟩ := mem_share_iff.mp h
  obtain ⟨i', hi', rfl⟩ := mem_share_iff.mp h'
  have hlt : i < xs.length := (List.getElem?_eq_some_iff.mp hi).1
  rw [(List.getElem?_inj hlt hxs).mp (hi.trans hi'.symm)]

theorem mem_iff_exists_share (hcount : 0 < count) {x : α} :
    x ∈ xs ↔ ∃ place, place < count ∧ x ∈ share count xs place := by
  constructor
  · intro hx
    obtain ⟨i, hi⟩ := List.getElem?_of_mem hx
    exact ⟨i % count, Nat.mod_lt i hcount, mem_share_iff.mpr ⟨i, hi, rfl⟩⟩
  · rintro ⟨place, -, hx⟩
    exact (share_sublist count xs place).mem hx

/-! ## Turn by turn -/

/-- One more element goes to the place whose turn it is. -/
theorem share_concat (count : Nat) (xs : List α) (x : α) (place : Nat) :
    share count (xs ++ [x]) place =
      share count xs place ++ if xs.length % count = place then [x] else [] := by
  rw [share, share, List.zipIdx_append, List.filter_append, List.map_append, Nat.zero_add,
    List.zipIdx_singleton]
  by_cases h : xs.length % count = place <;> simp [h]

section places
variable {place : Nat}

/-- Each place gets one element in every whole round, and those before the remainder one more. -/
theorem length_share (hplace : place < count) (xs : List α) :
    (share count xs place).length =
      xs.length / count + if place < xs.length % count then 1 else 0 := by
  induction xs using List.reverseRecOn with
  | nil => simp [share]
  | append_singleton xs x ih =>
    have hlt : xs.length % count < count := Nat.mod_lt _ (by omega)
    rw [share_concat, List.length_append, ih, List.length_append, List.length_singleton]
    by_cases hround : xs.length % count + 1 = count
    · have hdvd : count ∣ xs.length + 1 := by
        rw [Nat.dvd_iff_mod_eq_zero, ← Nat.mod_add_mod, hround, Nat.mod_self]
      rw [Nat.succ_div_of_dvd hdvd, Nat.mod_eq_zero_of_dvd hdvd]
      grind
    · have hmod : (xs.length + 1) % count = xs.length % count + 1 := by
        rw [← Nat.mod_add_mod, Nat.mod_eq_of_lt (by omega)]
      have hdvd : ¬ count ∣ xs.length + 1 := by
        rw [Nat.dvd_iff_mod_eq_zero, hmod]
        omega
      rw [Nat.succ_div_of_not_dvd hdvd, hmod]
      grind

theorem length_share_of_turn (hplace : place < count) (hturn : xs.length % count = place) :
    (share count xs place).length = xs.length / count := by
  rw [length_share hplace, if_neg (by omega), Nat.add_zero]

theorem getElem?_share (hplace : place < count) (xs : List α) (j : Nat) :
    (share count xs place)[j]? = xs[place + j * count]? := by
  have hconcat : ∀ (ys : List α) (y : α) (i : Nat),
      (ys ++ [y])[i]? = if i = ys.length then some y else ys[i]? := by
    intro ys y i
    grind
  induction xs using List.reverseRecOn with
  | nil => simp [share]
  | append_singleton xs x ih =>
    have hlast : place + j * count = xs.length ↔
        xs.length / count = j ∧ xs.length % count = place := by
      rw [Nat.div_mod_unique (by omega), Nat.mul_comm, and_iff_left hplace]
    rw [share_concat, hconcat, ← ih]
    by_cases hturn : xs.length % count = place
    · rw [if_pos hturn, hconcat, length_share_of_turn hplace hturn]
      simp only [hlast, hturn, and_true, eq_comm]
    · rw [if_neg hturn, List.append_nil, if_neg fun h => hturn (hlast.mp h).2]

theorem share_eq_nil_iff (hplace : place < count) :
    share count xs place = [] ↔ xs.length ≤ place := by
  have hfirst := getElem?_share hplace xs 0
  rw [Nat.zero_mul, Nat.add_zero] at hfirst
  rw [← List.getElem?_eq_none_iff, ← hfirst, List.getElem?_eq_none_iff, Nat.le_zero,
    List.length_eq_zero_iff]

theorem length_share_le {place' : Nat} (hle : place ≤ place') (hplace' : place' < count) :
    (share count xs place').length ≤ (share count xs place).length ∧
      (share count xs place).length ≤ (share count xs place').length + 1 := by
  rw [length_share hplace', length_share (Nat.lt_of_le_of_lt hle hplace')]
  split <;> split <;> omega

end places

end share

end PulseHits
