import PulseHits.Storage.Tree

/-!
# What the operations on a tree find and leave

Each operation in terms of the location that its path leads to. Writing a file makes and removes no
directory, so it leads no path elsewhere (`SameDirectories`), and what was written is what is read
(`read_write`).
-/

namespace PulseHits.FileTree

variable {t t' : FileTree} {l : Location} {path : String}

/-! ## Operations and locations -/

theorem find_of_locate (h : t.locate path = .ok l) :
    t.find path = (t.entryAt? l).elim (.error .notFound) .ok := by
  simp only [find, h, bind, Except.bind]
  cases t.entryAt? l <;> rfl

theorem pathExists_of_locate (h : t.locate path = .ok l) :
    t.pathExists path = (t.entryAt? l).isSome := by
  rw [pathExists, find_of_locate h]
  cases t.entryAt? l <;> rfl

theorem pathExists_of_locate_error {cause : IoError} (h : t.locate path = .error cause) :
    t.pathExists path = false := by
  rw [pathExists, find, h]
  rfl

theorem read_of_locate (h : t.locate path = .ok l) :
    t.read path = match t.entryAt? l with
      | some (.file content) => .ok content
      | some .directory => .error .isDirectory
      | none => .error .notFound := by
  rw [read, find_of_locate h]
  rcases t.entryAt? l with - | (- | content) <;> rfl

theorem read_of_locate_error {cause : IoError} (h : t.locate path = .error cause) :
    t.read path = .error cause := by
  rw [read, find, h]
  rfl

theorem names_of_locate (h : t.locate path = .ok l) :
    t.names path = match t.entryAt? l with
      | some .directory => .ok (t.childNames l)
      | some (.file _) => .error .notDirectory
      | none => .error .notFound := by
  rw [names, find_of_locate h]
  rcases t.entryAt? l with - | (- | content)
  · rfl
  · show (do return t.childNames (← t.locate path)) = _
    rw [h]
    rfl
  · rfl

theorem write_of_locate (h : t.locate path = .ok l) (content : Bytes) :
    t.write path content = if t.entryAt? l = some .directory then .error .isDirectory
      else .ok (t.insert l (.file content)) := by
  simp only [write, h, bind, Except.bind]
  rcases t.entryAt? l with - | (- | content') <;> rfl

theorem write_of_locate_error {cause : IoError} (h : t.locate path = .error cause)
    (content : Bytes) : t.write path content = .error cause := by
  rw [write, h]
  rfl

theorem write_eq_ok_iff {content : Bytes} :
    t.write path content = .ok t' ↔ ∃ l, t.locate path = .ok l ∧
      t.entryAt? l ≠ some .directory ∧ t' = t.insert l (.file content) := by
  cases h : t.locate path with
  | error cause => simp [write, h, bind, Except.bind]
  | ok l =>
    rw [write_of_locate h]
    constructor
    · intro hwrite
      split at hwrite
      · cases hwrite
      · next hdir => exact ⟨l, rfl, hdir, (Except.ok.inj hwrite).symm⟩
    · rintro ⟨l', hl, hdir, rfl⟩
      cases hl
      rw [if_neg hdir]

theorem pathExists_of_names {listed : List String} (h : t.names path = .ok listed) :
    t.pathExists path = true := by
  cases hfind : t.find path with
  | error cause => simp [names, hfind, bind, Except.bind] at h
  | ok e => simp [pathExists, hfind, Except.isOk, Except.toBool]

/-! ## Trees with the same entries -/

theorem walk_congr (h : ∀ l, t.entryAt? l = t'.entryAt? l) (start : Location)
    (names : List String) : t.walk start names = t'.walk start names := by
  induction names generalizing start with
  | nil => rfl
  | cons name names ih =>
    rw [walk, walk, h start]
    split
    · exact ih _
    · rfl
    · rfl

theorem read_congr (hstart : t.workingDirectory = t'.workingDirectory)
    (h : ∀ l, t.entryAt? l = t'.entryAt? l) (path : String) : t.read path = t'.read path := by
  have hlocate : t.locate path = t'.locate path := by
    rw [locate, locate, hstart, walk_congr h]
  cases hl : t'.locate path with
  | error cause => rw [read_of_locate_error (hlocate.trans hl), read_of_locate_error hl]
  | ok l => rw [read_of_locate (hlocate.trans hl), read_of_locate hl, h l]

/-! ## Writing at two places -/

theorem entryAt?_insert (t : FileTree) (l : Location) (e : Entry) (l' : Location) :
    (t.insert l e).entryAt? l' = if l' = l ∧ l' ≠ [] then some e else t.entryAt? l' := by
  by_cases hnil : l' = []
  · subst hnil
    simp [entryAt?]
  · by_cases hl : l' = l
    · subst hl
      rw [entryAt?_insert_self hnil, if_pos ⟨rfl, hnil⟩]
    · rw [entryAt?_insert_of_ne hl, if_neg fun h => hl h.1]

theorem insert_insert (t : FileTree) (l : Location) (e e' : Entry) :
    (t.insert l e).insert l e' = t.insert l e' := by
  simp [insert, List.filter_filter]

/-- The trees hold the same at every place. Their entries may be listed in another order. -/
structure Same (t t' : FileTree) : Prop where
  workingDirectory_eq : t.workingDirectory = t'.workingDirectory
  entry_eq : ∀ l, t.entryAt? l = t'.entryAt? l
  perm : t.entries.Perm t'.entries

theorem Same.refl (t : FileTree) : Same t t :=
  ⟨rfl, fun _ => rfl, .refl _⟩

theorem same_insert_insert {l' : Location} (hne : l ≠ l') (t : FileTree) (e e' : Entry) :
    Same ((t.insert l e).insert l' e') ((t.insert l' e').insert l e) := by
  refine ⟨rfl, fun k => ?_, ?_⟩
  · simp only [entryAt?_insert]
    by_cases hl : k = l
    · subst hl
      simp [hne]
    · simp [hl]
  · simp only [insert, List.filter_cons, bne_iff_ne.mpr hne, bne_iff_ne.mpr hne.symm, if_true,
      List.filter_filter, Bool.and_comm]
    exact List.Perm.swap _ _ _

/-! ## Trees with the same directories -/

/-- Every path leads to the same place in both trees, if it leads anywhere. -/
structure SameDirectories (t t' : FileTree) : Prop where
  workingDirectory_eq : t.workingDirectory = t'.workingDirectory
  directory_iff : ∀ l, t.entryAt? l = some .directory ↔ t'.entryAt? l = some .directory

namespace SameDirectories

theorem refl (t : FileTree) : SameDirectories t t :=
  ⟨rfl, fun _ => Iff.rfl⟩

theorem symm (h : SameDirectories t t') : SameDirectories t' t :=
  ⟨h.workingDirectory_eq.symm, fun l => (h.directory_iff l).symm⟩

theorem trans {t'' : FileTree} (h : SameDirectories t t') (h' : SameDirectories t' t'') :
    SameDirectories t t'' :=
  ⟨h.workingDirectory_eq.trans h'.workingDirectory_eq,
    fun l => (h.directory_iff l).trans (h'.directory_iff l)⟩

theorem walk_eq_ok (h : SameDirectories t t') {start : Location} {names : List String}
    (hwalk : t.walk start names = .ok l) : t'.walk start names = .ok l := by
  induction names generalizing start with
  | nil => exact hwalk
  | cons name names ih =>
    rw [walk] at hwalk ⊢
    split at hwalk
    · next hdir =>
      rw [(h.directory_iff start).mp hdir]
      exact ih hwalk
    · cases hwalk
    · cases hwalk

theorem locate_eq_ok (h : SameDirectories t t') (hlocate : t.locate path = .ok l) :
    t'.locate path = .ok l := by
  rw [locate] at hlocate ⊢
  split at hlocate
  · cases hlocate
  · next hne =>
    rw [if_neg hne, ← h.workingDirectory_eq]
    exact h.walk_eq_ok hlocate

end SameDirectories

theorem ne_nil_of_not_directory (h : t.entryAt? l ≠ some .directory) : l ≠ [] := by
  rintro rfl
  exact h rfl

theorem sameDirectories_insert_file (h : t.entryAt? l ≠ some .directory) (content : Bytes) :
    SameDirectories t (t.insert l (.file content)) := by
  refine ⟨rfl, fun l' => ?_⟩
  by_cases hl : l' = l
  · subst hl
    rw [entryAt?_insert_self (ne_nil_of_not_directory h)]
    exact iff_of_false h (by simp)
  · rw [entryAt?_insert_of_ne hl]

theorem sameDirectories_write {content : Bytes} (h : t.write path content = .ok t') :
    SameDirectories t t' := by
  obtain ⟨l, -, hdir, rfl⟩ := write_eq_ok_iff.mp h
  exact sameDirectories_insert_file hdir content

theorem read_write {content : Bytes} (h : t.write path content = .ok t') :
    t'.read path = .ok content := by
  have hsame := sameDirectories_write h
  obtain ⟨l, hlocate, hdir, rfl⟩ := write_eq_ok_iff.mp h
  rw [read_of_locate (hsame.locate_eq_ok hlocate),
    entryAt?_insert_self (ne_nil_of_not_directory hdir)]

theorem exists_write_of_write {content : Bytes} (h : t.write path content = .ok t')
    (content' : Bytes) : ∃ t'', t.write path content' = .ok t'' := by
  obtain ⟨l, hlocate, hdir, -⟩ := write_eq_ok_iff.mp h
  exact ⟨_, write_eq_ok_iff.mpr ⟨l, hlocate, hdir, rfl⟩⟩

/-! ## Programs over a tree -/

theorem run_bind {α β : Type} (x : StateM FileTree α) (f : α → StateM FileTree β) (t : FileTree) :
    (x >>= f).run t = (f (x.run t).1).run (x.run t).2 := rfl

theorem run_pure {α : Type} (a : α) (t : FileTree) : (pure a : StateM FileTree α).run t = (a, t) :=
  rfl

theorem run_pathExists (path : String) (t : FileTree) :
    (Storage.pathExists path : StateM FileTree Bool).run t = (t.pathExists path, t) := rfl

theorem run_names (path : String) (t : FileTree) :
    (Storage.names path : StateM FileTree (Except IoError (List String))).run t =
      (t.names path, t) := rfl

theorem run_read (path : String) (t : FileTree) :
    (Storage.read path : StateM FileTree (Except IoError Bytes)).run t = (t.read path, t) := rfl

theorem run_write {content : Bytes} (h : t.write path content = .ok t') :
    (Storage.write path content : StateM FileTree (Except IoError Unit)).run t = (.ok (), t') := by
  simp only [Storage.write, StateT.run_bind, StateT.run_get, pure_bind, h]
  rfl

end PulseHits.FileTree
