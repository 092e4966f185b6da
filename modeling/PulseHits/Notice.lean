/-!
# Notices

What the library has to say while it works: lines of text with a level of importance, kept in the
order in which they arise.
-/

namespace PulseHits

inductive Level where
  | debug
  | info
  | warn
  | error
  deriving DecidableEq, Repr

structure Notice where
  level : Level
  text : String
  deriving DecidableEq, Repr

end PulseHits
