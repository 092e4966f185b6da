import PulseHits.Config.Yaml
import PulseHits.Proofs.Yaml.Records
import PulseHits.Proofs.Yaml.Written

/-!
# Configurations that are read back

A configuration is read back from what is written for it, whatever its paths and numbers are, and
from the same entries in any order with other entries among them. Of the known entries only the last
one may be missing, and none may be there twice (`ofYaml_toYaml`).
-/

namespace PulseHits.Config

open Yaml

/-! ## What is written -/

/-- The entries that are written for a configuration. -/
def entries (c : Config) : List (String × Value) :=
  [("graw_path", .text c.grawPath.toList), ("hit_path", .text c.hitPath.toList),
    ("first_run_number", .integer c.firstRun.toInt), ("last_run_number", .integer c.lastRun.toInt),
    ("n_threads", .integer c.workers.toInt), ("skip_bad_frames", .boolean c.skipBadFrames)]

/-- The names of the entries that are known. -/
def knownNames : List String :=
  ["graw_path", "hit_path", "first_run_number", "last_run_number", "n_threads", "skip_bad_frames"]

/-- The name of the only entry that may be missing. -/
def optionalName : String := "skip_bad_frames"

/-- The lines of an entry. -/
def entryText (e : String × Value) : String :=
  String.ofList (writeEntry e.1.toList e.2)

theorem toYaml_eq_join (c : Config) : c.toYaml = String.join (c.entries.map entryText) := by
  have hmap : c.toYaml = writeMapping (c.entries.map fun e => (e.1.toList, e.2)) := rfl
  rw [hmap, writeMapping, ← String.toList_inj, String.toList_join, String.toList_ofList,
    List.flatMap_map, List.flatMap_map]
  simp only [entryText, String.toList_ofList]

theorem map_fst_entries (c : Config) : c.entries.map Prod.fst = knownNames := rfl

theorem isName_of_mem {c : Config} {e : String × Value} (h : e ∈ c.entries) :
    IsName e.1.toList := by
  have hall : ∀ name ∈ knownNames, canBePlain name.toList = true ∧ name.toList ≠ [] ∧
      4 * name.toList.length ≤ Scanner.maxKeyLength := by
    decide
  obtain ⟨hplain, hne, hlength⟩ := hall e.1 (c.map_fst_entries ▸ List.mem_map_of_mem h)
  exact ⟨hplain, hne, hlength⟩

/-! ## Values -/

theorem text?_node (s : String) : (Value.text s.toList).node.text? = some s := by
  simp [Value.node, Value.chars, Node.text?]

theorem int32?_toInt (n : Int32) : int32? n.toInt = some n := by
  rw [int32?, if_pos ⟨n.minValue_le_toInt, n.toInt_le⟩, Int32.ofInt_toInt]

theorem integer?_node (n : Int32) :
    (Value.integer n.toInt).node.integer?.bind int32? = some n := by
  have hread : (Value.integer n.toInt).node.integer? = some n.toInt :=
    Text.integer?_toString n.toInt
  rw [hread]
  exact int32?_toInt n

theorem boolean?_node (b : Bool) : (Value.boolean b).node.boolean? = some b := by
  cases b <;> rfl

/-! ## Records -/

section record
variable {r : Record} {c : Config} {name : String} {α : Type} {read? : Node → Option α}

theorem get_of_field {value : Node} {x : α} (h : r.field? name = .ok (some value))
    (hx : read? value = some x) : r.get name read? = .ok x := by
  simp [Record.get, h, hx, bind, Except.bind, pure, Except.pure]

theorem getD_of_field {value : Node} {x : α} (h : r.field? name = .ok (some value))
    (hx : read? value = some x) (default : α) : r.getD name read? default = .ok x := by
  simp [Record.getD, h, hx, bind, Except.bind, pure, Except.pure]

theorem get_of_none (h : r.field? name = .ok none) :
    r.get name read? = .error (.missingField name) := by
  simp [Record.get, h, bind, Except.bind, throw, throwThe, MonadExceptOf.throw]

theorem getD_of_none (h : r.field? name = .ok none) (default : α) :
    r.getD name read? default = .ok default := by
  simp [Record.getD, h, bind, Except.bind, pure, Except.pure]

theorem get_of_error {e : Yaml.Error} (h : r.field? name = .error e) :
    r.get name read? = .error e := by
  simp [Record.get, h, bind, Except.bind]

theorem getD_of_error {e : Yaml.Error} (h : r.field? name = .error e) (default : α) :
    r.getD name read? default = .error e := by
  simp [Record.getD, h, bind, Except.bind]

/-- The fields of a configuration whose names satisfy `p` are read. -/
structure Gets (r : Record) (c : Config) (p : String → Prop) : Prop where
  grawPath : p "graw_path" → r.get "graw_path" Node.text? = .ok c.grawPath
  hitPath : p "hit_path" → r.get "hit_path" Node.text? = .ok c.hitPath
  firstRun : p "first_run_number" →
    r.get "first_run_number" (fun n => n.integer?.bind int32?) = .ok c.firstRun
  lastRun : p "last_run_number" →
    r.get "last_run_number" (fun n => n.integer?.bind int32?) = .ok c.lastRun
  workers : p "n_threads" → r.get "n_threads" (fun n => n.integer?.bind int32?) = .ok c.workers
  skipBadFrames : p "skip_bad_frames" →
    r.getD "skip_bad_frames" Node.boolean? template.skipBadFrames = .ok c.skipBadFrames

theorem gets {p : String → Prop}
    (h : ∀ e ∈ c.entries, p e.1 → r.field? e.1 = .ok (some e.2.node)) : Gets r c p where
  grawPath hp := get_of_field (h ("graw_path", _) (by simp [entries]) hp) (text?_node _)
  hitPath hp := get_of_field (h ("hit_path", _) (by simp [entries]) hp) (text?_node _)
  firstRun hp := get_of_field (h ("first_run_number", _) (by simp [entries]) hp) (integer?_node _)
  lastRun hp := get_of_field (h ("last_run_number", _) (by simp [entries]) hp) (integer?_node _)
  workers hp := get_of_field (h ("n_threads", _) (by simp [entries]) hp) (integer?_node _)
  skipBadFrames hp :=
    getD_of_field (h ("skip_bad_frames", _) (by simp [entries]) hp) (boolean?_node _) _

theorem ofRecord_of_gets (h : Gets r c fun _ => True) : ofRecord r = .ok c := by
  simp [ofRecord, h.grawPath trivial, h.hitPath trivial, h.firstRun trivial, h.lastRun trivial,
    h.workers trivial, h.skipBadFrames trivial, bind, Except.bind, pure, Except.pure]

theorem ofRecord_default (h : Gets r c (· ≠ optionalName))
    (hnone : r.field? optionalName = .ok none) :
    ofRecord r = .ok { c with skipBadFrames := template.skipBadFrames } := by
  have hskip : r.getD "skip_bad_frames" Node.boolean? template.skipBadFrames =
      .ok template.skipBadFrames := getD_of_none hnone _
  simp [ofRecord, h.grawPath (by decide), h.hitPath (by decide), h.firstRun (by decide),
    h.lastRun (by decide), h.workers (by decide), hskip, bind, Except.bind, pure, Except.pure]

theorem ofRecord_error {e : Yaml.Error} (hname : name ∈ knownNames) (h : Gets r c (· ≠ name))
    (hget : ∀ {α : Type} (read? : Node → Option α), r.get name read? = .error e)
    (hgetD : name = optionalName →
      ∀ {α : Type} (read? : Node → Option α) (default : α), r.getD name read? default = .error e) :
    ofRecord r = .error e := by
  obtain ⟨hgraw, hhit, hfirst, hlast, hworkers, -⟩ := h
  simp only [knownNames, List.mem_cons, List.not_mem_nil, or_false] at hname
  rcases hname with rfl | rfl | rfl | rfl | rfl | rfl
  · simp [ofRecord, hget, bind, Except.bind]
  · simp [ofRecord, hgraw, hget, bind, Except.bind]
  · simp [ofRecord, hgraw, hhit, hget, bind, Except.bind]
  · simp [ofRecord, hgraw, hhit, hfirst, hget, bind, Except.bind]
  · simp [ofRecord, hgraw, hhit, hfirst, hlast, hget, bind, Except.bind]
  · simp [ofRecord, hgraw, hhit, hfirst, hlast, hworkers, hgetD rfl, bind, Except.bind]

end record

/-! ## Texts put together -/

/-- Whether a text is whole lines of entries none of which is a known one. -/
def isForeign (text : String) : Bool :=
  (blockEntries? text).any fun es => es.all fun e =>
    (keyText? e.1).any fun key => !knownNames.contains (String.ofList key)

/-- Whether a text is the lines of one entry of the name, with whatever value. -/
def repeats (name text : String) : Bool :=
  (blockEntries? text).any fun es =>
    es.length == 1 && es.all fun e => keyText? e.1 == some name.toList

theorem of_isForeign {text : String} (h : isForeign text = true) :
    ∃ es, blockEntries? text = some es ∧
      ∀ e ∈ es, ∃ key, keyText? e.1 = some key ∧ String.ofList key ∉ knownNames := by
  obtain ⟨es, hes, hall⟩ := (Option.any_eq_true _ _).mp h
  refine ⟨es, hes, fun e he => ?_⟩
  obtain ⟨key, hkey, hunknown⟩ := (Option.any_eq_true _ _).mp (List.all_eq_true.mp hall e he)
  exact ⟨key, hkey, by simpa using hunknown⟩

theorem of_repeats {name text : String} (h : repeats name text = true) :
    ∃ e, blockEntries? text = some [e] ∧ keyText? e.1 = some name.toList := by
  obtain ⟨es, hes, hall⟩ := (Option.any_eq_true _ _).mp h
  rw [Bool.and_eq_true, beq_iff_eq] at hall
  obtain ⟨e, rfl⟩ := List.length_eq_one_iff.mp hall.1
  exact ⟨e, hes, beq_iff_eq.mp (List.all_eq_true.mp hall.2 e List.mem_cons_self)⟩

/-- What an entry is read as. -/
def readEntry (e : String × Value) : Node × Node :=
  (.scalar none .plain e.1.toList, e.2.node)

section texts
variable {c : Config} {base : List (String × Value)} {foreign others pieces : List String}
  {name text : String}

theorem blockEntries?_entryText {e : String × Value} (h : IsName e.1.toList) :
    blockEntries? (entryText e) = some [readEntry e] :=
  blockEntries?_writeEntry h e.2

theorem isEntries_entryText {e : String × Value} (h : IsName e.1.toList) :
    IsEntries (entryText e) :=
  ⟨_, blockEntries?_entryText h, by simp [readEntry, keyText?]⟩

theorem isEntries_of_isForeign (h : isForeign text = true) : IsEntries text := by
  obtain ⟨es, hes, hkeys⟩ := of_isForeign h
  refine ⟨es, hes, fun e he => ?_⟩
  obtain ⟨key, hkey, -⟩ := hkeys e he
  rw [hkey]
  rfl

theorem isEntries_of_repeats (h : repeats name text = true) : IsEntries text := by
  obtain ⟨e, hes, hkey⟩ := of_repeats h
  refine ⟨[e], hes, fun e' he => ?_⟩
  rw [List.mem_singleton.mp he, hkey]
  rfl

theorem named_entryText (h : ∀ e ∈ base, IsName e.1.toList) (name : String) :
    named name ((base.map entryText).flatMap entriesOf) =
      (base.filter (·.1 == name)).map readEntry := by
  induction base with
  | nil => rfl
  | cons e base ih =>
    have hkey : (keyText? (readEntry e).1 == some name.toList) = (e.1 == name) := by
      show (some e.1.toList == some name.toList) = (e.1 == name)
      rw [Bool.eq_iff_iff]
      simp [String.toList_inj]
    rw [List.map_cons, List.flatMap_cons, named_append,
      ih fun e he => h e (List.mem_cons_of_mem _ he),
      entriesOf_eq (blockEntries?_entryText (h e List.mem_cons_self)), named, List.filter_cons,
      List.filter_cons, hkey]
    split <;> simp

theorem named_foreign (h : ∀ t ∈ foreign, isForeign t = true) (hname : name ∈ knownNames) :
    named name (foreign.flatMap entriesOf) = [] := by
  rw [named, List.filter_eq_nil_iff]
  intro e he hkey
  obtain ⟨t, ht, he⟩ := List.mem_flatMap.mp he
  obtain ⟨es, hes, hkeys⟩ := of_isForeign (h t ht)
  rw [entriesOf_eq hes] at he
  obtain ⟨key, htext, hunknown⟩ := hkeys e he
  rw [htext, beq_iff_eq] at hkey
  rw [Option.some.inj hkey, String.ofList_toList] at hunknown
  exact hunknown hname

theorem exists_record (hbase : ∀ e ∈ base, IsName e.1.toList) (hne : base ≠ [])
    (hothers : ∀ t ∈ others, IsEntries t) (hperm : pieces.Perm (base.map entryText ++ others)) :
    ∃ r es, ofYaml (String.join pieces) = ofRecord r ∧ List.Forall₂ IsField es r ∧
      ∀ name, (named name es).Perm
        ((base.filter (·.1 == name)).map readEntry ++ named name (others.flatMap entriesOf)) := by
  have hpieces : ∀ t ∈ pieces, IsEntries t := by
    intro t ht
    rcases List.mem_append.mp (hperm.mem_iff.mp ht) with ht | ht
    · obtain ⟨e, he, rfl⟩ := List.mem_map.mp ht
      exact isEntries_entryText (hbase e he)
    · exact hothers t ht
  have hnepieces : pieces ≠ [] := by
    rintro rfl
    have hnil := hperm.symm.eq_nil
    simp [hne] at hnil
  obtain ⟨d, r, hparse, hr, hfields⟩ := record_join hnepieces hpieces
  refine ⟨r, _, ?_, hfields, fun name => ?_⟩
  · rw [ofYaml, hparse]
    show (d.record >>= ofRecord) = _
    rw [hr]
    rfl
  · rw [← named_entryText hbase, ← named_append, ← List.flatMap_append]
    exact (hperm.flatMap_right entriesOf).filter _

theorem field?_of_perm {r : Record} {es : List (Node × Node)} {e : String × Value}
    (hfields : List.Forall₂ IsField es r) (h : (named e.1 es).Perm [readEntry e]) :
    r.field? e.1 = .ok (some e.2.node) :=
  field?_of_scalar hfields (List.perm_singleton.mp h)

theorem filter_entries {e : String × Value} (he : e ∈ c.entries) :
    c.entries.filter (·.1 == e.1) = [e] := by
  simp only [entries, List.mem_cons, List.not_mem_nil, or_false] at he
  rcases he with rfl | rfl | rfl | rfl | rfl | rfl <;> rfl

theorem mem_knownNames {e : String × Value} (he : e ∈ c.entries) : e.1 ∈ knownNames :=
  c.map_fst_entries ▸ List.mem_map_of_mem he

theorem filter_entries_ne {e : String × Value} (he : e ∈ c.entries) (hne : e.1 ≠ name) :
    (c.entries.filter (·.1 != name)).filter (·.1 == e.1) = [e] := by
  rw [List.filter_filter, ← filter_entries he]
  refine List.filter_congr fun f _ => ?_
  cases hf : f.1 == e.1 with
  | false => rfl
  | true =>
    rw [beq_iff_eq.mp hf, Bool.true_and, bne_iff_ne]
    exact hne

theorem filter_entries_ne_self :
    (c.entries.filter (·.1 != name)).filter (·.1 == name) = [] := by
  rw [List.filter_filter, List.filter_eq_nil_iff]
  simp

/-- All entries of a configuration, in whatever order and whatever is among them. -/
theorem ofYaml_of_perm (hforeign : ∀ t ∈ foreign, isForeign t = true)
    (hperm : pieces.Perm (c.entries.map entryText ++ foreign)) :
    ofYaml (String.join pieces) = .ok c := by
  obtain ⟨r, es, hread, hfields, hnamed⟩ := exists_record (fun e he => isName_of_mem he)
    (by simp [entries]) (fun t ht => isEntries_of_isForeign (hforeign t ht)) hperm
  rw [hread]
  refine ofRecord_of_gets (gets fun e he _ => field?_of_perm hfields ?_)
  have hperm := hnamed e.1
  rwa [filter_entries he, named_foreign hforeign (mem_knownNames he)] at hperm

theorem exists_record_of_missing (hname : name ∈ knownNames)
    (hforeign : ∀ t ∈ foreign, isForeign t = true)
    (hperm : pieces.Perm ((c.entries.filter (·.1 != name)).map entryText ++ foreign)) :
    ∃ r, ofYaml (String.join pieces) = ofRecord r ∧ Gets r c (· ≠ name) ∧
      r.field? name = .ok none := by
  obtain ⟨e, he, hother⟩ : ∃ e ∈ c.entries, e.1 ≠ name := by
    by_cases h : name = "graw_path"
    · have hne : "hit_path" ≠ "graw_path" := by decide
      exact ⟨("hit_path", _), List.mem_cons_of_mem _ List.mem_cons_self, h ▸ hne⟩
    · exact ⟨("graw_path", _), List.mem_cons_self, Ne.symm h⟩
  have hne : c.entries.filter (·.1 != name) ≠ [] :=
    List.ne_nil_of_mem (List.mem_filter.mpr ⟨he, bne_iff_ne.mpr hother⟩)
  obtain ⟨r, es, hread, hfields, hnamed⟩ := exists_record
    (fun e he => isName_of_mem (List.mem_filter.mp he).1) hne
    (fun t ht => isEntries_of_isForeign (hforeign t ht)) hperm
  refine ⟨r, hread, gets fun e he hother => field?_of_perm hfields ?_, ?_⟩
  · have hperm := hnamed e.1
    rwa [filter_entries_ne he hother, named_foreign hforeign (mem_knownNames he)] at hperm
  · have hperm := hnamed name
    rw [filter_entries_ne_self, named_foreign hforeign hname] at hperm
    exact field?_of_nil hfields hperm.eq_nil

theorem exists_record_of_repeats (hname : name ∈ knownNames) (hrepeats : repeats name text = true)
    (hforeign : ∀ t ∈ foreign, isForeign t = true)
    (hperm : pieces.Perm (c.entries.map entryText ++ text :: foreign)) :
    ∃ r, ofYaml (String.join pieces) = ofRecord r ∧ Gets r c (· ≠ name) ∧
      r.field? name = .error (.duplicateField name) := by
  have hothers : ∀ t ∈ text :: foreign, IsEntries t := by
    intro t ht
    rcases List.mem_cons.mp ht with rfl | ht
    · exact isEntries_of_repeats hrepeats
    · exact isEntries_of_isForeign (hforeign t ht)
  obtain ⟨r, es, hread, hfields, hnamed⟩ := exists_record (fun e he => isName_of_mem he)
    (by simp [entries]) hothers hperm
  obtain ⟨again, hagain, hkey⟩ := of_repeats hrepeats
  have hagain : ∀ known ∈ knownNames, named known ((text :: foreign).flatMap entriesOf) =
      if name = known then [again] else [] := by
    intro known hknown
    rw [List.flatMap_cons, named_append, named_foreign hforeign hknown, entriesOf_eq hagain]
    by_cases h : name = known <;> simp [named, hkey, h, String.toList_inj]
  refine ⟨r, hread, gets fun e he hother => field?_of_perm hfields ?_, ?_⟩
  · have hperm := hnamed e.1
    rwa [filter_entries he, hagain _ (mem_knownNames he), if_neg (Ne.symm hother)] at hperm
  · refine field?_of_two hfields ?_
    obtain ⟨e, he, rfl⟩ := List.mem_map.mp (c.map_fst_entries.symm ▸ hname)
    rw [(hnamed e.1).length_eq, filter_entries he, hagain _ hname, if_pos rfl]
    exact Nat.le_refl 2

end texts

/-- What is written for a configuration is read as the configuration: as it stands, with the entries
in another order and other entries among them, and without the optional entry if that has the value
it is left out for. Without any other entry, or with one of them twice, it is read as none. -/
theorem ofYaml_toYaml (c : Config) :
    ofYaml c.toYaml = .ok c ∧ c.toYaml = String.join (c.entries.map entryText) ∧
      ∀ foreign pieces : List String, (∀ text ∈ foreign, isForeign text) →
        (pieces.Perm (c.entries.map entryText ++ foreign) →
          ofYaml (String.join pieces) = .ok c) ∧
        (c.skipBadFrames = true →
          pieces.Perm ((c.entries.filter (·.1 != optionalName)).map entryText ++ foreign) →
            ofYaml (String.join pieces) = .ok c) ∧
        ∀ name ∈ knownNames,
          (name ≠ optionalName →
            pieces.Perm ((c.entries.filter (·.1 != name)).map entryText ++ foreign) →
              ofYaml (String.join pieces) = .error (.missingField name)) ∧
          ∀ again, repeats name again →
            pieces.Perm (c.entries.map entryText ++ again :: foreign) →
              ofYaml (String.join pieces) = .error (.duplicateField name) := by
  refine ⟨?_, c.toYaml_eq_join, fun foreign pieces hforeign =>
    ⟨ofYaml_of_perm hforeign, fun hskip hperm => ?_, fun name hname =>
      ⟨fun hrequired hperm => ?_, fun again hrepeats hperm => ?_⟩⟩⟩
  · rw [toYaml_eq_join]
    exact @ofYaml_of_perm c [] _ nofun (by simp)
  · obtain ⟨r, hread, hgets, hnone⟩ := exists_record_of_missing (by decide) hforeign hperm
    rw [hread, ofRecord_default hgets hnone]
    obtain ⟨grawPath, hitPath, firstRun, lastRun, workers, skipBadFrames⟩ := c
    obtain rfl : skipBadFrames = true := hskip
    rfl
  · obtain ⟨r, hread, hgets, hnone⟩ := exists_record_of_missing hname hforeign hperm
    rw [hread]
    exact ofRecord_error hname hgets (fun _ => get_of_none hnone) fun h => absurd h hrequired
  · obtain ⟨r, hread, hgets, herror⟩ := exists_record_of_repeats hname hrepeats hforeign hperm
    rw [hread]
    exact ofRecord_error hname hgets (fun _ => get_of_error herror) fun _ _ _ =>
      getD_of_error herror

/-- Entries in reverse order, with a list of an unknown name among them. -/
theorem ofYaml_toYaml_reverse :
    let c : Config := ⟨"/data/a b", "", -1, 2147483647, 8, true⟩
    let foreign := ["extra: [1, 2]\n"]
    let again := "n_threads: 4\n"
    (∀ text ∈ foreign, isForeign text = true) ∧ repeats "n_threads" again = true ∧
      ofYaml (String.join (c.entries.map entryText ++ foreign).reverse) = .ok c ∧
      ofYaml (String.join ((c.entries.filter (·.1 != optionalName)).map entryText ++
        foreign).reverse) = .ok c ∧
      ofYaml (String.join ((c.entries.filter (·.1 != "hit_path")).map entryText ++
        foreign).reverse) = .error (.missingField "hit_path") ∧
      ofYaml (String.join (c.entries.map entryText ++ again :: foreign).reverse) =
        .error (.duplicateField "n_threads") := by
  intro c foreign again
  have hforeign : ∀ text ∈ foreign, isForeign text = true := by decide +kernel
  have hrepeats : repeats "n_threads" again = true := by decide +kernel
  have h := fun pieces => (ofYaml_toYaml c).2.2 foreign pieces hforeign
  refine ⟨hforeign, hrepeats, (h _).1 (List.reverse_perm _),
    (h _).2.1 rfl (List.reverse_perm _),
    ((h _).2.2 "hit_path" (by decide)).1 (by decide) (List.reverse_perm _),
    ((h _).2.2 "n_threads" (by decide)).2 again hrepeats (List.reverse_perm _)⟩

end PulseHits.Config
