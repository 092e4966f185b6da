import PulseHits.Text.Numeral
import PulseHits.Yaml.Node
import PulseHits.Yaml.Writer

/-!
# Records

Reading a mapping as a record: every key is a text, a field is looked up by its name, and what a
scalar is taken for depends on what the field asks for. Entries of other names are ignored.
-/

namespace PulseHits.Yaml

/-- The fields of a record under their names, in the order of the text. -/
abbrev Record := List (List Char × Node)

/-- The entries of a mapping with their aliases replaced. -/
def Document.fields (d : Document) : List (Node × Node) → Except Error Record
  | [] => .ok []
  | (key, value) :: rest =>
    match d.follow key with
    | .scalar _ _ name => (d.fields rest).map ((name, d.follow value) :: ·)
    | _ => .error .keyNotText

def Document.record (d : Document) : Except Error Record :=
  match d.root with
  | .mapping entries => d.fields entries
  | _ => .error .notAMapping

/-- The value of a field, which may not be there twice. -/
def Record.field? (r : Record) (name : String) : Except Error (Option Node) :=
  match r.filter (·.1 == name.toList) with
  | [] => .ok none
  | [(_, value)] => .ok (some value)
  | _ => .error (.duplicateField name)

/-- The value of a field that has to be there, taken for what `read?` makes of it. -/
def Record.get {α : Type} (r : Record) (name : String) (read? : Node → Option α) :
    Except Error α := do
  match ← r.field? name with
  | none => throw (.missingField name)
  | some value =>
    match read? value with
    | some x => return x
    | none => throw (.wrongType name)

/-- The value of a field that may be left out. -/
def Record.getD {α : Type} (r : Record) (name : String) (read? : Node → Option α) (default : α) :
    Except Error α := do
  match ← r.field? name with
  | none => return default
  | some value =>
    match read? value with
    | some x => return x
    | none => throw (.wrongType name)

/-! ## What a scalar is taken for -/

/-- Any scalar is a text. -/
def Node.text? : Node → Option String
  | .scalar _ _ text => some (String.ofList text)
  | _ => none

/-- The text of a scalar that may be more than a text: a plain one, or a literal block that is
tagged with the type it is asked for. -/
def Node.typed? (tag : Tag) : Node → Option (List Char)
  | .scalar _ .plain text => some text
  | .scalar (some t) .literal text => if t == tag then some text else none
  | _ => none

def Node.integer? (n : Node) : Option Int :=
  (n.typed? (.ofChars "tag:yaml.org,2002:int".toList)).bind Text.integer?

def Node.boolean? (n : Node) : Option Bool :=
  (n.typed? (.ofChars "tag:yaml.org,2002:bool".toList)).bind bool?

end PulseHits.Yaml
