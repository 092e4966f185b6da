import PulseHits.Proofs.Storage.Path

/-!
# Trees that agree but for some files

Programs that write some files see trees that differ in these files only. `AgreeBut` says what such
trees have in common: the directories, everything at other locations, and in each directory the
names that `isInput` asks for. It is kept by a write to one of the files (`AgreeBut.insert_output`), and
then no question about other locations has another answer.
-/

namespace PulseHits.FileTree

/-! ## Writing files -/

/-- Writes files one after the other. -/
def writeAll (t : FileTree) (writes : List (Location × Bytes)) : FileTree :=
  writes.foldl (fun t w => t.insert w.1 (.file w.2)) t

section writeAll
variable {t t' : FileTree} {l : Location}

theorem writeAll_append (t : FileTree) (writes writes' : List (Location × Bytes)) :
    t.writeAll (writes ++ writes') = (t.writeAll writes).writeAll writes' :=
  List.foldl_append

theorem entryAt?_insert_congr (h : t.entryAt? l = t'.entryAt? l) (l' : Location) (e : Entry) :
    (t.insert l' e).entryAt? l = (t'.insert l' e).entryAt? l := by
  by_cases hl : l = l'
  · subst hl
    by_cases hnil : l = []
    · subst hnil
      rfl
    · rw [entryAt?_insert_self hnil, entryAt?_insert_self hnil]
  · rw [entryAt?_insert_of_ne hl, entryAt?_insert_of_ne hl, h]

theorem entryAt?_writeAll_congr (h : t.entryAt? l = t'.entryAt? l)
    (writes : List (Location × Bytes)) :
    (t.writeAll writes).entryAt? l = (t'.writeAll writes).entryAt? l := by
  induction writes generalizing t t' with
  | nil => exact h
  | cons w writes ih => exact ih (entryAt?_insert_congr h w.1 (.file w.2))

theorem entryAt?_writeAll_of_notMem {writes : List (Location × Bytes)}
    (h : l ∉ writes.map (·.1)) : (t.writeAll writes).entryAt? l = t.entryAt? l := by
  induction writes generalizing t with
  | nil => rfl
  | cons w writes ih =>
    rw [List.map_cons, List.mem_cons, not_or] at h
    have hrest : ((t.insert w.1 (.file w.2)).writeAll writes).entryAt? l =
        (t.insert w.1 (.file w.2)).entryAt? l := ih h.2
    exact hrest.trans (entryAt?_insert_of_ne h.1)

end writeAll

/-! ## Names in a directory -/

/-- The name of a location in a directory, if it is in this directory. -/
def childName? (l l' : Location) : Option String :=
  match l'.reverse with
  | name :: parent => if parent.reverse = l then some name else none
  | [] => none

theorem childNames_eq (t : FileTree) (l : Location) :
    t.childNames l = t.entries.filterMap fun p => childName? l p.1 := rfl

theorem eq_concat_of_childName? {l' : Location} {name : String}
    (h : childName? l l' = some name) : l' = l ++ [name] := by
  rw [childName?] at h
  split at h
  · next last parent hreverse =>
    split at h
    · next hparent =>
      cases h
      rw [← hparent, ← List.reverse_cons, ← hreverse, List.reverse_reverse]
    · cases h
  · cases h

/-! ## Locations of names -/

section names
variable {t : FileTree} {l : Location}

theorem isName_of_mem_step {name : String} (hl : ∀ part ∈ l, Path.IsName part)
    (hname : '/' ∉ name.toList) : ∀ part ∈ step l name, Path.IsName part := by
  intro part hpart
  rw [step] at hpart
  split at hpart
  · exact hl part hpart
  · next hhere =>
    split at hpart
    · exact hl part ((List.dropLast_sublist l).mem hpart)
    · next hup =>
      rcases List.mem_append.mp hpart with hpart | hpart
      · exact hl part hpart
      · rw [List.mem_singleton.mp hpart]
        exact ⟨hname, fun hempty => hhere (.inl hempty), fun hdot => hhere (.inr hdot), hup⟩

theorem isName_of_walk {start : Location} {names : List String}
    (hstart : ∀ part ∈ start, Path.IsName part) (hnames : ∀ name ∈ names, '/' ∉ name.toList)
    (h : t.walk start names = .ok l) : ∀ part ∈ l, Path.IsName part := by
  induction names generalizing start with
  | nil =>
    cases h
    exact hstart
  | cons name names ih =>
    rw [walk] at h
    split at h
    · exact ih (isName_of_mem_step hstart (hnames name List.mem_cons_self))
        (fun name' hname' => hnames name' (List.mem_cons_of_mem _ hname')) h
    · cases h
    · cases h

end names

/-- The locations of a tree are made of names. -/
structure WellFormed (t : FileTree) : Prop where
  isName_of_mem_workingDirectory : ∀ name ∈ t.workingDirectory, Path.IsName name
  isName_of_mem : ∀ p ∈ t.entries, ∀ name ∈ p.1, Path.IsName name

namespace WellFormed

variable {t t' : FileTree} {l : Location} {path : String}

theorem isName_of_mem_childNames (h : t.WellFormed) {name : String}
    (hname : name ∈ t.childNames l) : Path.IsName name := by
  rw [childNames_eq] at hname
  obtain ⟨p, hp, hchild⟩ := List.mem_filterMap.mp hname
  refine h.isName_of_mem p hp name ?_
  rw [eq_concat_of_childName? hchild]
  simp

theorem isName_of_locate (h : t.WellFormed) (hlocate : t.locate path = .ok l) :
    ∀ part ∈ l, Path.IsName part := by
  rw [locate] at hlocate
  split at hlocate
  · cases hlocate
  · refine isName_of_walk ?_ (fun name => Path.slash_notMem_of_mem_parts) hlocate
    split
    · simp
    · exact h.isName_of_mem_workingDirectory

theorem insert (h : t.WellFormed) (hl : ∀ part ∈ l, Path.IsName part) (e : Entry) :
    (t.insert l e).WellFormed := by
  refine ⟨h.isName_of_mem_workingDirectory, fun p hp => ?_⟩
  rcases List.mem_cons.mp hp with rfl | hp
  · exact hl
  · exact h.isName_of_mem p (List.mem_filter.mp hp).1

theorem write {content : Bytes} (h : t.WellFormed) (hwrite : t.write path content = .ok t') :
    t'.WellFormed := by
  obtain ⟨l, hlocate, -, rfl⟩ := write_eq_ok_iff.mp hwrite
  exact h.insert (h.isName_of_locate hlocate) _

end WellFormed

/-! ## Agreement -/

/-- The trees have the same directories, the same at all locations but `outputs`, and in each
directory the same names among those that are inputs. -/
structure AgreeBut (outputs : Location → Prop) (isInput : String → Bool) (t t' : FileTree) : Prop
    extends SameDirectories t t' where
  entry_eq : ∀ l, ¬ outputs l → t'.entryAt? l = t.entryAt? l
  names_eq : ∀ l, (t'.childNames l).filter isInput = (t.childNames l).filter isInput

namespace AgreeBut

variable {outputs : Location → Prop} {isInput : String → Bool} {t t' : FileTree} {l : Location}
  {path : String}

theorem refl (t : FileTree) : AgreeBut outputs isInput t t :=
  ⟨.refl t, fun _ _ => rfl, fun _ => rfl⟩

theorem filter_childNames_insert {parent : Location} {name : String}
    (hname : isInput name = false) (t : FileTree) (e : Entry) (l : Location) :
    ((t.insert (parent ++ [name]) e).childNames l).filter isInput =
      (t.childNames l).filter isInput := by
  have hchild : (childName? l (parent ++ [name])).filter isInput = none := by
    cases h : childName? l (parent ++ [name]) with
    | none => rfl
    | some name' =>
      obtain ⟨-, rfl⟩ := List.append_singleton_inj.mp (eq_concat_of_childName? h)
      simp [hname]
  rw [childNames_eq, childNames_eq, insert, List.filter_filterMap, List.filter_filterMap,
    List.filterMap_cons]
  simp only [hchild]
  rw [List.filterMap_filter]
  congr 1
  funext p
  by_cases hp : p.1 = parent ++ [name]
  · simp [hp, hchild]
  · simp [hp]

theorem insert_output (h : AgreeBut outputs isInput t t') {parent : Location} {name : String}
    (houtput : outputs (parent ++ [name])) (hname : isInput name = false)
    (hdirectory : t.entryAt? (parent ++ [name]) ≠ some .directory) (content : Bytes) :
    AgreeBut outputs isInput t (t'.insert (parent ++ [name]) (.file content)) := by
  have hdirectory' : t'.entryAt? (parent ++ [name]) ≠ some .directory :=
    mt (h.directory_iff _).mpr hdirectory
  refine ⟨h.toSameDirectories.trans (sameDirectories_insert_file hdirectory' content),
    fun l hl => ?_, fun l => ?_⟩
  · have hne : l ≠ parent ++ [name] := by
      rintro rfl
      exact hl houtput
    rw [entryAt?_insert_of_ne hne, h.entry_eq l hl]
  · rw [filter_childNames_insert hname, h.names_eq l]

theorem pathExists_eq (h : AgreeBut outputs isInput t t')
    (hpath : ∀ l, t.locate path = .ok l → ¬ outputs l) : t'.pathExists path = t.pathExists path := by
  cases hlocate : t.locate path with
  | ok l =>
    rw [pathExists_of_locate hlocate, pathExists_of_locate (h.locate_eq_ok hlocate),
      h.entry_eq l (hpath l hlocate)]
  | error cause =>
    cases hlocate' : t'.locate path with
    | ok l => cases hlocate.symm.trans (h.symm.locate_eq_ok hlocate')
    | error cause' =>
      rw [pathExists_of_locate_error hlocate, pathExists_of_locate_error hlocate']

theorem read_eq (h : AgreeBut outputs isInput t t') (hlocate : t.locate path = .ok l)
    (hl : ¬ outputs l) : t'.read path = t.read path := by
  rw [read_of_locate hlocate, read_of_locate (h.locate_eq_ok hlocate), h.entry_eq l hl]

theorem names_of_agree (h : AgreeBut outputs isInput t t') (hlocate : t.locate path = .ok l)
    (hl : ¬ outputs l) :
    t'.names path = match t.entryAt? l with
      | some .directory => .ok (t'.childNames l)
      | some (.file _) => .error .notDirectory
      | none => .error .notFound := by
  have hnames := names_of_locate (h.locate_eq_ok hlocate)
  rw [h.entry_eq l hl] at hnames
  exact hnames

/-- A joined path leads to the same place, or fails in the same way, if the path before it does not
lead to an output. -/
theorem locate_join_eq (h : AgreeBut outputs isInput t t') {base name : String} (hbase : base ≠ "")
    (hname : Path.IsName name) (hlocate : t.locate base = .ok l) (hl : ¬ outputs l) :
    t'.locate (Path.join base name) = t.locate (Path.join base name) := by
  rw [locate_join hbase hname hlocate, locate_join hbase hname (h.locate_eq_ok hlocate),
    walk_singleton, walk_singleton, h.entry_eq l hl]

end AgreeBut

end PulseHits.FileTree
