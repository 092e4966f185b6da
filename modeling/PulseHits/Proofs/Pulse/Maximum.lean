import PulseHits.Pulse.Extract

/-!
# The highest sample

The scan for the highest sample keeps the first greatest value of what it has seen
(`IsFirstMax.concat_of_lt`, `IsFirstMax.concat_of_not_lt`), so it ends at the first greatest value
of the trace (`exists_isFirstMax`).
-/

namespace PulseHits.Pulse

open Channel (Sample)

/-- The sample at an index has the greatest value of the trace, and every sample before it has a
smaller one. -/
structure IsFirstMax (samples : List Sample) (index : Nat) (s : Sample) : Prop where
  getElem?_eq : samples[index]? = some s
  le : ∀ t ∈ samples, t.value ≤ s.value
  lt : ∀ i < index, ∀ t, samples[i]? = some t → t.value < s.value

namespace IsFirstMax
variable {seen : List Sample} {index : Nat} {s t : Sample}

theorem lt_length (h : IsFirstMax seen index s) : index < seen.length :=
  (List.getElem?_eq_some_iff.mp h.getElem?_eq).1

theorem concat_of_lt (h : IsFirstMax seen index s) (hlt : s.value < t.value) :
    IsFirstMax (seen ++ [t]) seen.length t where
  getElem?_eq := List.getElem?_concat_length
  le := by
    intro u hu
    rcases List.mem_append.mp hu with hu | hu
    · exact UInt16.le_trans (h.le u hu) (UInt16.le_of_lt hlt)
    · rw [List.mem_singleton.mp hu]
      exact UInt16.le_refl _
  lt := by
    intro i hi u hu
    rw [List.getElem?_append_left hi] at hu
    exact UInt16.lt_of_le_of_lt (h.le u (List.mem_of_getElem? hu)) hlt

theorem concat_of_not_lt (h : IsFirstMax seen index s) (hnot : ¬ s.value < t.value) :
    IsFirstMax (seen ++ [t]) index s where
  getElem?_eq := by rw [List.getElem?_append_left h.lt_length, h.getElem?_eq]
  le := by
    intro u hu
    rcases List.mem_append.mp hu with hu | hu
    · exact h.le u hu
    · rw [List.mem_singleton.mp hu]
      exact UInt16.not_lt.mp hnot
  lt := by
    intro i hi u hu
    rw [List.getElem?_append_left (Nat.lt_trans hi h.lt_length)] at hu
    exact h.lt i hi u hu

end IsFirstMax

/-- What the scan keeps over all samples that are left. -/
theorem exists_isFirstMax_peakIndexFrom {seen rest : List Sample} {index : Nat} {s : Sample}
    (h : IsFirstMax seen index s) :
    ∃ t, IsFirstMax (seen ++ rest) (peakIndexFrom seen.length index s.value rest) t := by
  induction rest generalizing seen index s with
  | nil => exact ⟨s, by rwa [List.append_nil]⟩
  | cons t rest ih =>
    unfold peakIndexFrom
    have hlength : seen.length + 1 = (seen ++ [t]).length := by simp
    rw [List.append_cons, hlength]
    by_cases hlt : s.value < t.value
    · rw [if_pos hlt]
      exact ih (h.concat_of_lt hlt)
    · rw [if_neg hlt]
      exact ih (h.concat_of_not_lt hlt)

theorem exists_isFirstMax {samples : List Sample} (h : samples ≠ []) :
    ∃ s, IsFirstMax samples (peakIndex samples) s := by
  cases samples with
  | nil => exact absurd rfl h
  | cons s rest =>
    have hfirst : IsFirstMax [s] 0 s := by
      refine ⟨rfl, ?_, nofun⟩
      intro t ht
      rw [List.mem_singleton.mp ht]
      exact UInt16.le_refl _
    exact exists_isFirstMax_peakIndexFrom hfirst

end PulseHits.Pulse
