import PulseHits.Bytes
import PulseHits.IoError

/-!
# Storage

What the library asks of the place where files are kept. The operations are written once over any
such place: a tree of files held as a value, about which statements can be proved, or the disk.
-/

namespace PulseHits

/-- Access to stored files by their paths. -/
class Storage (m : Type → Type) where
  pathExists : String → m Bool
  /-- The names in a directory, in no particular order. -/
  names : String → m (Except IoError (List String))
  read : String → m (Except IoError Bytes)
  /-- Gives a file its whole content. What it held before is lost. -/
  write : String → Bytes → m (Except IoError Unit)

end PulseHits
