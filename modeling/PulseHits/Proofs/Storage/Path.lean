import PulseHits.Proofs.Storage.Tree

/-!
# Where joined paths lead

A name behind a path is one part more (`parts_join`), so a path leads to a directory and the joined
path to the name in it (`locate_join`). Whatever the path before it, what a joined path leads to
goes by the name (`exists_eq_concat_of_locate_join`).
-/

namespace PulseHits

namespace Path

/-- One name, which leads from a directory to something in it. -/
structure IsName (name : String) : Prop where
  slash_notMem : '/' ∉ name.toList
  ne_empty : name ≠ ""
  ne_dot : name ≠ "."
  ne_dots : name ≠ ".."

instance : DecidablePred IsName := fun name =>
  decidable_of_iff ('/' ∉ name.toList ∧ name ≠ "" ∧ name ≠ "." ∧ name ≠ "..")
    ⟨fun ⟨hslash, hempty, hdot, hdots⟩ => ⟨hslash, hempty, hdot, hdots⟩,
      fun h => ⟨h.slash_notMem, h.ne_empty, h.ne_dot, h.ne_dots⟩⟩

theorem IsName.of_cons {name : String} {first : Char} {rest : List Char}
    (h : name.toList = first :: rest) (hfirst : first ≠ '.') (hslash : '/' ∉ name.toList) :
    IsName name where
  slash_notMem := hslash
  ne_empty := by
    rintro rfl
    cases h
  ne_dot := by
    rintro rfl
    exact hfirst (List.cons.inj h).1.symm
  ne_dots := by
    rintro rfl
    exact hfirst (List.cons.inj h).1.symm

theorem parts_eq_singleton {name : String} (h : '/' ∉ name.toList) : parts name = [name] := by
  rw [parts, List.splitOnP_eq_singleton, List.map_singleton, String.ofList_toList]
  intro x hx
  have hne : x ≠ '/' := by
    rintro rfl
    exact h hx
  simpa using hne

theorem parts_append_slash (front : List Char) (name : String) (h : '/' ∉ name.toList) :
    (((front ++ '/' :: name.toList).splitOnP (· == '/')).map String.ofList) =
      (front.splitOnP (· == '/')).map String.ofList ++ [name] := by
  rw [List.splitOnP_append_cons _ _ (by simp), List.map_append, ← parts, parts_eq_singleton h]

theorem not_of_mem_splitOnP {α : Type} {p : α → Bool} {xs part : List α}
    (h : part ∈ xs.splitOnP p) : ∀ x ∈ part, p x = false := by
  induction xs generalizing part with
  | nil =>
    rw [List.splitOnP_nil, List.mem_singleton] at h
    simp [h]
  | cons x xs ih =>
    rw [List.splitOnP_cons_eq_if_modifyHead] at h
    by_cases hx : p x = true
    · rw [if_pos hx, List.mem_cons] at h
      rcases h with rfl | h
      · simp
      · exact ih h
    · rw [if_neg hx] at h
      cases hparts : xs.splitOnP p with
      | nil => exact absurd hparts (List.splitOnP_ne_nil p xs)
      | cons first rest =>
        rw [hparts] at h ih
        rcases List.mem_cons.mp h with rfl | h
        · intro y hy
          rcases List.mem_cons.mp hy with rfl | hy
          · simpa using hx
          · exact ih List.mem_cons_self y hy
        · exact ih (List.mem_cons_of_mem _ h)

theorem slash_notMem_of_mem_parts {path name : String} (h : name ∈ parts path) :
    '/' ∉ name.toList := by
  obtain ⟨part, hpart, rfl⟩ := List.mem_map.mp h
  intro hslash
  rw [String.toList_ofList] at hslash
  simpa using not_of_mem_splitOnP hpart '/' hslash

theorem isAbsolute_append {base : String} (hbase : base ≠ "") (rest : String) :
    isAbsolute (base ++ rest) = isAbsolute base := by
  cases hlist : base.toList with
  | nil => exact absurd (String.toList_eq_nil_iff.mp hlist) hbase
  | cons x xs => rw [isAbsolute, isAbsolute, String.toList_append, hlist]; rfl

theorem not_isAbsolute {name : String} (h : '/' ∉ name.toList) : isAbsolute name = false := by
  rw [isAbsolute]
  cases hlist : name.toList with
  | nil => rfl
  | cons x xs =>
    have hne : x ≠ '/' := by
      rintro rfl
      exact h (by simp [hlist])
    simpa using hne

/-- A name takes the place of the empty part that a slash at the end of a path leaves, and is one
part more behind any other path. -/
theorem parts_join {base name : String} (hbase : base ≠ "") (hname : '/' ∉ name.toList) :
    (∃ front, parts base = front ++ [""] ∧ parts (join base name) = front ++ [name]) ∨
      parts (join base name) = parts base ++ [name] := by
  rw [join, not_isAbsolute hname, if_neg (by simp)]
  rcases List.eq_nil_or_concat base.toList with hnil | ⟨front, last, hlist⟩
  · exact absurd (String.toList_eq_nil_iff.mp hnil) hbase
  · rw [List.concat_eq_append] at hlist
    by_cases hlast : last = '/'
    · subst hlast
      refine .inl ⟨(front.splitOnP (· == '/')).map String.ofList, ?_, ?_⟩
      · rw [parts, hlist]
        exact parts_append_slash front "" (by simp)
      · rw [if_pos (by simp [hlist]), parts, String.toList_append, hlist, List.append_assoc]
        exact parts_append_slash front name hname
    · refine .inr ?_
      rw [if_neg (by simp [hlist, hlast]), parts, String.toList_append, String.toList_append,
        List.append_assoc]
      exact parts_append_slash base.toList name hname

theorem exists_parts_join_eq_concat (base : String) {name : String} (hname : '/' ∉ name.toList) :
    ∃ front, parts (join base name) = front ++ [name] := by
  by_cases hbase : base = ""
  · subst hbase
    refine ⟨[], ?_⟩
    rw [join, not_isAbsolute hname]
    simpa using parts_eq_singleton hname
  · rcases parts_join hbase hname with ⟨front, -, hjoined⟩ | hjoined
    · exact ⟨front, hjoined⟩
    · exact ⟨_, hjoined⟩

theorem getLast?_parts_join (base : String) {name : String} (hname : '/' ∉ name.toList) :
    (parts (join base name)).getLast? = some name := by
  obtain ⟨front, hfront⟩ := exists_parts_join_eq_concat base hname
  rw [hfront, List.getLast?_concat]

theorem join_ne_empty {base name : String} (h : name ≠ "") : join base name ≠ "" := by
  rw [join]
  split
  · exact h
  · split
    · exact fun hempty => h (String.append_eq_empty_iff.mp hempty).2
    · exact fun hempty => h (String.append_eq_empty_iff.mp hempty).2

end Path

namespace FileTree

variable {t : FileTree} {l : Location} {base name : String}

theorem step_of_isName (l : Location) (h : Path.IsName name) : step l name = l ++ [name] := by
  rw [step, if_neg, if_neg h.ne_dots]
  rintro (hempty | hdot)
  · exact h.ne_empty hempty
  · exact h.ne_dot hdot

theorem walk_append (t : FileTree) (start : Location) (names names' : List String) :
    t.walk start (names ++ names') = (t.walk start names).bind fun l => t.walk l names' := by
  induction names generalizing start with
  | nil => rfl
  | cons name names ih =>
    rw [List.cons_append, walk, walk]
    split
    · exact ih _
    · rfl
    · rfl

theorem walk_singleton (t : FileTree) (l : Location) (name : String) :
    t.walk l [name] = match t.entryAt? l with
      | some .directory => .ok (step l name)
      | some (.file _) => .error .notDirectory
      | none => .error .notFound := by
  rw [walk]
  rfl

theorem locate_join (hbase : base ≠ "") (hname : Path.IsName name) (h : t.locate base = .ok l) :
    t.locate (Path.join base name) = t.walk l [name] := by
  have hjoin : ∃ rest, Path.join base name = base ++ rest := by
    rw [Path.join, Path.not_isAbsolute hname.slash_notMem, if_neg (by simp)]
    split
    · exact ⟨name, rfl⟩
    · exact ⟨"/" ++ name, by rw [String.append_assoc]⟩
  have hne : Path.join base name ≠ "" := Path.join_ne_empty hname.ne_empty
  have habsolute : Path.isAbsolute (Path.join base name) = Path.isAbsolute base := by
    obtain ⟨rest, hrest⟩ := hjoin
    rw [hrest, Path.isAbsolute_append hbase]
  rw [locate, if_neg hbase] at h
  rw [locate, if_neg hne, habsolute]
  rcases Path.parts_join hbase hname.slash_notMem with ⟨front, hparts, hjoined⟩ | hjoined
  · rw [hparts, walk_append] at h
    rw [hjoined, walk_append]
    cases hfront : t.walk (if Path.isAbsolute base then [] else t.workingDirectory) front with
    | error cause =>
      rw [hfront] at h
      cases h
    | ok l' =>
      rw [hfront] at h
      have hempty : t.walk l' [""] = .ok l := h
      rw [walk_singleton] at hempty
      split at hempty
      · cases hempty
        rfl
      · cases hempty
      · cases hempty
  · rw [hjoined, walk_append, h]
    rfl

theorem exists_eq_concat_of_locate_join (hname : Path.IsName name)
    (h : t.locate (Path.join base name) = .ok l) : ∃ parent, l = parent ++ [name] := by
  obtain ⟨front, hfront⟩ := Path.exists_parts_join_eq_concat base hname.slash_notMem
  rw [locate] at h
  split at h
  · cases h
  · rw [hfront, walk_append] at h
    cases hwalk : t.walk (if Path.isAbsolute (Path.join base name) then [] else
        t.workingDirectory) front with
    | error cause =>
      rw [hwalk] at h
      cases h
    | ok parent =>
      rw [hwalk] at h
      have hlast : t.walk parent [name] = .ok l := h
      rw [walk_singleton] at hlast
      split at hlast
      · cases hlast
        exact ⟨parent, step_of_isName parent hname⟩
      · cases hlast
      · cases hlast

end FileTree

end PulseHits
