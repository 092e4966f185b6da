import PulseHits.Storage.Basic
import PulseHits.Storage.Path

/-!
# Trees of files

A tree of directories and files as a value. A location is the list of names that leads to it from
the root, and a path is followed name by name, each from a directory. Writing changes what is at
one location and at no other.
-/

namespace PulseHits

/-- The names that lead from the root to a place in a tree. -/
abbrev Location := List String

inductive Entry where
  | directory
  | file (content : Bytes)
  deriving DecidableEq, Repr

structure FileTree where
  /-- Where paths that are not absolute start. -/
  workingDirectory : Location
  entries : List (Location × Entry)
  deriving DecidableEq, Repr

namespace FileTree

/-- What is at a location. The root is a directory. -/
def entryAt? (t : FileTree) (l : Location) : Option Entry :=
  if l = [] then some .directory else t.entries.lookup l

/-- Puts an entry at a location, in place of what was there. -/
def insert (t : FileTree) (l : Location) (e : Entry) : FileTree :=
  { t with entries := (l, e) :: t.entries.filter (·.1 != l) }

theorem entryAt?_insert_self {t : FileTree} {l : Location} {e : Entry} (h : l ≠ []) :
    (t.insert l e).entryAt? l = some e := by
  simp [entryAt?, insert, h]

theorem lookup_filter_ne {l l' : Location} (entries : List (Location × Entry)) (h : l' ≠ l) :
    (entries.filter (·.1 != l)).lookup l' = entries.lookup l' := by
  induction entries with
  | nil => rfl
  | cons p rest ih =>
    obtain ⟨k, e⟩ := p
    by_cases hk : k = l
    · have hb : (l' == l) = false := by simpa using h
      simp [List.lookup_cons, hk, hb, ih]
    · by_cases hl : l' = k <;> simp [List.lookup_cons, hk, hl, ih]

theorem entryAt?_insert_of_ne {t : FileTree} {l l' : Location} {e : Entry} (h : l' ≠ l) :
    (t.insert l e).entryAt? l' = t.entryAt? l' := by
  by_cases hl : l' = []
  · simp [entryAt?, hl]
  · have hb : (l' == l) = false := by simpa using h
    simp only [entryAt?, if_neg hl, insert, List.lookup_cons, hb]
    exact lookup_filter_ne t.entries h

/-! ## Following paths -/

/-- One name further: an empty name and one dot lead nowhere else, two dots lead up. -/
def step (l : Location) (name : String) : Location :=
  if name = "" ∨ name = "." then l
  else if name = ".." then l.dropLast
  else l ++ [name]

/-- Follows names from a location on. There has to be a directory wherever a name follows. -/
def walk (t : FileTree) (l : Location) : (names : List String) → Except IoError Location
  | [] => .ok l
  | name :: rest =>
    match t.entryAt? l with
    | some .directory => t.walk (step l name) rest
    | some (.file _) => .error .notDirectory
    | none => .error .notFound

/-- The location that a path leads to, whether or not there is something. -/
def locate (t : FileTree) (path : String) : Except IoError Location :=
  if path = "" then .error .notFound
  else t.walk (if Path.isAbsolute path then [] else t.workingDirectory) (Path.parts path)

/-- What a path leads to. -/
def find (t : FileTree) (path : String) : Except IoError Entry := do
  match t.entryAt? (← t.locate path) with
  | some e => return e
  | none => throw .notFound

/-! ## The operations -/

def pathExists (t : FileTree) (path : String) : Bool :=
  (t.find path).isOk

/-- The names of the entries of a directory. -/
def childNames (t : FileTree) (l : Location) : List String :=
  t.entries.filterMap fun (l', _) =>
    match l'.reverse with
    | name :: parent => if parent.reverse = l then some name else none
    | [] => none

def names (t : FileTree) (path : String) : Except IoError (List String) := do
  match ← t.find path with
  | .directory => return t.childNames (← t.locate path)
  | .file _ => throw .notDirectory

def read (t : FileTree) (path : String) : Except IoError Bytes := do
  match ← t.find path with
  | .directory => throw .isDirectory
  | .file content => return content

def write (t : FileTree) (path : String) (content : Bytes) : Except IoError FileTree := do
  let l ← t.locate path
  match t.entryAt? l with
  | some .directory => throw .isDirectory
  | _ => return t.insert l (.file content)

instance : Storage (StateM FileTree) where
  pathExists path := return (← get).pathExists path
  names path := return (← get).names path
  read path := return (← get).read path
  write path content := do
    match (← get).write path content with
    | .ok t => set t; return .ok ()
    | .error e => return .error e

/-! ## Building trees -/

/-- Makes the directories that lead to a location and the one there, where nothing is yet. -/
def makeDirectory (t : FileTree) (l : Location) : FileTree :=
  let onTheWay := (List.range l.length).map fun n => l.take (n + 1)
  onTheWay.foldl (fun t l => if (t.entryAt? l).isSome then t else t.insert l .directory) t

/-- A tree that holds nothing but its working directory. -/
def empty (workingDirectory : Location) : FileTree :=
  makeDirectory ⟨workingDirectory, []⟩ workingDirectory

/-- Puts a file at a location below directories that are made for it. -/
def makeFile (t : FileTree) (l : Location) (content : Bytes) : FileTree :=
  (t.makeDirectory l.dropLast).insert l (.file content)

/-- The files below the working directory, under the paths that lead to them from there. -/
def files (t : FileTree) : List (String × Bytes) :=
  t.entries.filterMap fun (l, e) =>
    match e with
    | .file content =>
      if t.workingDirectory.isPrefixOf l then
        some ("/".intercalate (l.drop t.workingDirectory.length), content)
      else none
    | .directory => none

end FileTree

end PulseHits
