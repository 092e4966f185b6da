/-!
# Paths

Paths are texts whose parts are separated by slashes. A path that starts with a slash is absolute
and leads on from the root wherever it stands.
-/

namespace PulseHits.Path

def isAbsolute (path : String) : Bool :=
  path.toList.head? == some '/'

/-- Leads on from `base`. An empty base and one that ends in a slash need no further slash. -/
def join (base path : String) : String :=
  if isAbsolute path then path
  else if base.toList.getLast?.all (· == '/') then base ++ path
  else base ++ "/" ++ path

/-- What follows the last dot of a file name. A name whose only dot is its first character has no
extension. -/
def extension? (name : String) : Option String :=
  let chars := name.toList
  let after := (chars.reverse.takeWhile (· != '.')).reverse
  let before := chars.length - after.length
  if before ≤ 1 || name == ".." then none else some (String.ofList after)

/-- The parts of a path, empty ones included. -/
def parts (path : String) : List String :=
  (path.toList.splitOnP (· == '/')).map String.ofList

end PulseHits.Path
