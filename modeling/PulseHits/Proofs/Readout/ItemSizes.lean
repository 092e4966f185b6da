import PulseHits.Proofs.Readout.Hits

/-!
# Items of the wrong size

Each readout prescribes the size of its items. A partial readout frame fails at the first item of
another size, whatever comes before or after it (`process_of_isMissized`), and a frame fails for no
other reason (`result_processWith_eq_error_iff`). The items of a full readout are taken as they
come: a field that does not fit reads as zero, and of an item that is too long the last bits are
taken.
-/

namespace PulseHits.Readout

open Channel (Accumulator)

/-- The size in bytes that a readout prescribes for its items. -/
def Kind.itemSize? : Kind → Option Nat
  | .partialReadout => some partialItemSize
  | .fullReadout => some fullItemSize
  | .unrecognized _ => none

/-- The item has another size than its readout prescribes. -/
def IsMissized (kind : Kind) (item : Item) : Prop :=
  ∃ size, kind.itemSize? = some size ∧ item.size ≠ size

theorem isMissized_partialReadout_iff {item : Item} :
    IsMissized .partialReadout item ↔ item.size ≠ partialItemSize := by
  simp [IsMissized, Kind.itemSize?]

theorem not_isMissized_unrecognized (code : UInt16) (item : Item) :
    ¬ IsMissized (.unrecognized code) item := by
  rintro ⟨size, hsize, -⟩
  exact nomatch hsize

theorem error?_decodePartial_eq_some_iff {items : List Item} {channels : Accumulator}
    {e : DecodeError} :
    (decodePartial items channels).error? = some e ↔
      ∃ before first after, items = before ++ first :: after ∧
        (∀ item ∈ before, ¬ IsMissized .partialReadout item) ∧ IsMissized .partialReadout first ∧
        e = .itemSize before.length first.size := by
  simp only [isMissized_partialReadout_iff, not_not]
  rw [decodePartial, error?_decodePartialFrom, Option.map_eq_some_iff]
  constructor
  · rintro ⟨first, hfirst, rfl⟩
    obtain ⟨after, hafter⟩ := List.head?_eq_some_iff.mp hfirst
    refine ⟨items.takeWhile isPartialSized, first, after, ?_, fun item hitem => ?_, ?_, ?_⟩
    · rw [← hafter, List.takeWhile_append_dropWhile]
    · have hsized : isPartialSized item = true := List.mem_takeWhile_imp hitem
      exact of_decide_eq_true hsized
    · have hnot := List.head?_dropWhile_not isPartialSized items
      rw [hfirst] at hnot
      exact of_decide_eq_false hnot
    · rw [Nat.zero_add]
  · rintro ⟨before, first, after, rfl, hbefore, hfirst, rfl⟩
    have hsized : ∀ item ∈ before, isPartialSized item = true :=
      fun item hitem => decide_eq_true (hbefore item hitem)
    have hmissized : ¬ isPartialSized first = true := fun h => hfirst (of_decide_eq_true h)
    refine ⟨first, ?_, ?_⟩
    · rw [List.dropWhile_append_of_pos hsized, List.dropWhile_cons_of_neg hmissized]
      rfl
    · rw [List.takeWhile_append_of_pos hsized, List.takeWhile_cons_of_neg hmissized,
        List.append_nil, Nat.zero_add]

theorem result_processWith_eq_error_iff {v : View} {channels : Accumulator} {e : DecodeError} :
    (processWith v channels).result = .error e ↔
      (classify v).kind = .partialReadout ∧ (decodePartial v.items .empty).error? = some e := by
  simp only [processWith, Accumulator.clear_eq_empty]
  cases (classify v).kind with
  | partialReadout =>
    cases (decodePartial v.items .empty).error? with
    | none => simp
    | some e' => simp
  | fullReadout => simp
  | unrecognized code => simp

theorem exists_first_isMissized {kind : Kind} {items : List Item}
    (h : ∃ item ∈ items, IsMissized kind item) :
    ∃ before first after, items = before ++ first :: after ∧
      (∀ item ∈ before, ¬ IsMissized kind item) ∧ IsMissized kind first := by
  induction items with
  | nil => simp at h
  | cons item items ih =>
    by_cases hitem : IsMissized kind item
    · exact ⟨[], item, items, rfl, nofun, hitem⟩
    · obtain ⟨before, first, after, rfl, hbefore, hfirst⟩ := ih (by simpa [hitem] using h)
      exact ⟨item :: before, first, after, rfl, List.forall_mem_cons.mpr ⟨hitem, hbefore⟩, hfirst⟩

/-- **A malformed frame yields no hits**, unless it is a full readout. Wherever its items of the
wrong size are and whatever the channels hold, the frame fails at the first of them. -/
theorem process_of_isMissized {v : View} (hkind : (classify v).kind ≠ .fullReadout)
    (h : ∃ item ∈ v.items, IsMissized (classify v).kind item) (channels : Accumulator) :
    ∃ before first after, v.items = before ++ first :: after ∧
      (∀ item ∈ before, ¬ IsMissized (classify v).kind item) ∧
      IsMissized (classify v).kind first ∧
      (processWith v channels).result = .error (.itemSize before.length first.size) := by
  obtain ⟨before, first, after, hitems, hbefore, hfirst⟩ := exists_first_isMissized h
  refine ⟨before, first, after, hitems, hbefore, hfirst, ?_⟩
  have hpartial : (classify v).kind = .partialReadout := by
    cases hclass : (classify v).kind with
    | partialReadout => rfl
    | fullReadout => exact absurd hclass hkind
    | unrecognized code =>
      rw [hclass] at hfirst
      exact absurd hfirst (not_isMissized_unrecognized code first)
  rw [hpartial] at hbefore hfirst
  rw [result_processWith_eq_error_iff]
  exact ⟨hpartial, error?_decodePartial_eq_some_iff.mpr
    ⟨before, first, after, hitems, hbefore, hfirst, rfl⟩⟩

/-- An item of three bytes and one of none stand between words. -/
theorem process_twoMissizedItems :
    let word := PartialItem.toItem ⟨2, 5, ⟨100, 0xABC⟩⟩
    let v := View.ofItems 1 0 0 [word, ⟨[1, 2, 3]⟩, ⟨[]⟩, word]
    (classify v).kind ≠ .fullReadout ∧ (∃ item ∈ v.items, IsMissized (classify v).kind item) ∧
      (process v).result = .error (.itemSize 1 3) := by
  intro word v
  have hitems : v.items = [word, ⟨[1, 2, 3]⟩, ⟨[]⟩, word] := View.items_ofItems ..
  have hkind : (classify v).kind ≠ .fullReadout := by decide
  have hsize : word.size = partialItemSize := PartialItem.size_toItem _
  have hmissized : ∃ item ∈ v.items, IsMissized (classify v).kind item := by
    refine ⟨⟨[1, 2, 3]⟩, ?_, partialItemSize, rfl, by decide⟩
    rw [hitems]
    simp
  refine ⟨hkind, hmissized, ?_⟩
  obtain ⟨before, first, after, hsplit, hbefore, hfirst, hresult⟩ :=
    process_of_isMissized hkind hmissized .empty
  rw [hitems] at hsplit
  match before with
  | [] =>
    obtain ⟨rfl, -⟩ := List.cons.inj hsplit
    exact absurd hsize (isMissized_partialReadout_iff.mp hfirst)
  | [_] =>
    obtain ⟨-, htail⟩ := List.cons.inj hsplit
    obtain ⟨rfl, -⟩ := List.cons.inj htail
    exact hresult
  | _ :: second :: _ =>
    obtain ⟨-, htail⟩ := List.cons.inj hsplit
    obtain ⟨rfl, -⟩ := List.cons.inj htail
    refine absurd ?_ (hbefore ⟨[1, 2, 3]⟩ (by simp))
    exact isMissized_partialReadout_iff.mpr (by decide)

/-- Nobody asks for the size of the items of a full readout: three bytes are taken for a sample. -/
theorem not_forall_isMissized_error :
    ¬ ∀ v : View, (∃ item ∈ v.items, IsMissized (classify v).kind item) →
      ∃ e, (process v).result = .error e := by
  intro h
  obtain ⟨v, hv⟩ : ∃ v, v = View.ofItems 2 0 0 [⟨[0xC0, 1, 2]⟩] := ⟨_, rfl⟩
  have hitems : v.items = [⟨[0xC0, 1, 2]⟩] := by rw [hv, View.items_ofItems]
  have hkind : (classify v).kind = .fullReadout := by
    rw [hv, View.classify_ofItems]
    rfl
  have hmissized : ∃ item ∈ v.items, IsMissized (classify v).kind item := by
    refine ⟨⟨[0xC0, 1, 2]⟩, ?_, fullItemSize, ?_, by decide⟩
    · rw [hitems]
      exact List.mem_singleton_self _
    · rw [hkind]
      rfl
  obtain ⟨e, he⟩ := h v hmissized
  have hpartial := (result_processWith_eq_error_iff.mp he).1
  rw [hkind] at hpartial
  exact nomatch hpartial

end PulseHits.Readout
