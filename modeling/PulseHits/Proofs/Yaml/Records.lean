import PulseHits.Proofs.Yaml.Texts
import PulseHits.Yaml.Record

/-!
# Records of several texts

A record is read from texts that are put together as it is from their entries: what a field is
depends on nothing but the entries of its name, wherever they stand (`record_join`).
-/

namespace PulseHits.Yaml

/-- The text of a key. -/
def keyText? : Node → Option (List Char)
  | .scalar _ _ text => some text
  | _ => none

/-- The entries of a text, none if it has another form. -/
def entriesOf (text : String) : List (Node × Node) :=
  (blockEntries? text).getD []

/-- Whole lines of entries whose keys are scalars. -/
def IsEntries (text : String) : Prop :=
  ∃ entries, blockEntries? text = some entries ∧ ∀ e ∈ entries, (keyText? e.1).isSome

/-- The entries of a name. -/
def named (name : String) (entries : List (Node × Node)) : List (Node × Node) :=
  entries.filter fun e => keyText? e.1 == some name.toList

/-- A field has the name that is written as its key, and the value if that is a scalar. -/
def IsField (e : Node × Node) (f : List Char × Node) : Prop :=
  keyText? e.1 = some f.1 ∧ e.2.Keeps f.2

theorem entriesOf_eq {text : String} {entries : List (Node × Node)}
    (h : blockEntries? text = some entries) : entriesOf text = entries := by
  rw [entriesOf, h]
  rfl

theorem named_append (name : String) (a b : List (Node × Node)) :
    named name (a ++ b) = named name a ++ named name b :=
  List.filter_append a b

/-! ## Fields -/

section fields
variable {entries : List (Node × Node)} {r : Record} {name : String}

theorem IsField.named (h : List.Forall₂ IsField entries r) (name : String) :
    List.Forall₂ IsField (named name entries) (r.filter (·.1 == name.toList)) := by
  refine List.rel_filter (fun e f hf => ?_) h
  show (keyText? e.1 == some name.toList) = true ↔ (f.1 == name.toList) = true
  rw [hf.1]
  simp

theorem field?_of_nil (h : List.Forall₂ IsField entries r) (hnamed : named name entries = []) :
    r.field? name = .ok none := by
  have hfields := IsField.named h name
  rw [hnamed] at hfields
  rw [Record.field?, List.forall₂_nil_left_iff.mp hfields]

theorem field?_of_scalar (h : List.Forall₂ IsField entries r) {key : Node} {tag? : Option Tag}
    {style : Style} {text : List Char}
    (hnamed : named name entries = [(key, .scalar tag? style text)]) :
    r.field? name = .ok (some (.scalar tag? style text)) := by
  have hfields := IsField.named h name
  rw [hnamed] at hfields
  obtain ⟨⟨name', value⟩, more, hfield, hmore, hfilter⟩ := List.forall₂_cons_left_iff.mp hfields
  obtain rfl : value = .scalar tag? style text := hfield.2 tag? style text rfl
  rw [Record.field?, hfilter, List.forall₂_nil_left_iff.mp hmore]

theorem field?_of_two (h : List.Forall₂ IsField entries r)
    (hnamed : 2 ≤ (named name entries).length) :
    r.field? name = .error (.duplicateField name) := by
  have hlength := (IsField.named h name).length_eq
  rw [Record.field?]
  split
  · next heq =>
    rw [heq, List.length_nil] at hlength
    omega
  · next heq =>
    rw [heq, List.length_singleton] at hlength
    omega
  · rfl

end fields

/-! ## Texts put together -/

theorem fields_of_keepsEntry {d : Document} {entries entries' : List (Node × Node)}
    (h : List.Forall₂ KeepsEntry entries entries')
    (hkeys : ∀ e ∈ entries, (keyText? e.1).isSome) :
    ∃ r, d.fields entries' = .ok r ∧ List.Forall₂ IsField entries r := by
  induction h with
  | nil => exact ⟨[], rfl, .nil⟩
  | @cons e e' entries entries' hkeeps _ ih =>
    obtain ⟨r, hr, hfields⟩ := ih fun e he => hkeys e (List.mem_cons_of_mem _ he)
    obtain ⟨key, value⟩ := e
    obtain ⟨key', value'⟩ := e'
    have hkey := hkeys _ List.mem_cons_self
    cases key with
    | scalar tag? style text =>
      obtain rfl : key' = .scalar tag? style text := hkeeps.1 tag? style text rfl
      refine ⟨(text, d.follow value') :: r, ?_, .cons ⟨rfl, ?_⟩ hfields⟩
      · show (d.fields entries').map ((text, d.follow value') :: ·) = _
        rw [hr]
        rfl
      · rintro tag? style text rfl
        obtain rfl : value' = .scalar tag? style text := hkeeps.2 tag? style text rfl
        rfl
    | _ => cases hkey

/-- Texts of entries are read as a record of all their fields. -/
theorem record_join {texts : List String} (hne : texts ≠ []) (h : ∀ t ∈ texts, IsEntries t) :
    ∃ d r, Document.parse (String.join texts) = .ok d ∧ d.record = .ok r ∧
      List.Forall₂ IsField (texts.flatMap entriesOf) r := by
  have hmap : (texts.map fun t => (t, entriesOf t)).map Prod.fst = texts := by
    simp [Function.comp_def]
  have hflatMap :
      (texts.map fun t => (t, entriesOf t)).flatMap Prod.snd = texts.flatMap entriesOf := by
    simp [List.flatMap_map]
  obtain ⟨d, entries, hparse, hroot, hkeeps⟩ :=
    @parse_join (texts.map fun t => (t, entriesOf t)) (by simpa using hne) fun t ht => by
      obtain ⟨text, htext, rfl⟩ := List.mem_map.mp ht
      obtain ⟨entries, hentries, -⟩ := h text htext
      rw [entriesOf_eq hentries]
      exact hentries
  rw [hmap] at hparse
  rw [hflatMap] at hkeeps
  obtain ⟨r, hr, hfields⟩ := fields_of_keepsEntry (d := d) hkeeps fun e he => by
    obtain ⟨text, htext, he⟩ := List.mem_flatMap.mp he
    obtain ⟨entries, hentries, hkeys⟩ := h text htext
    rw [entriesOf_eq hentries] at he
    exact hkeys e he
  refine ⟨d, r, hparse, ?_, hfields⟩
  rw [Document.record, hroot]
  exact hr

end PulseHits.Yaml
