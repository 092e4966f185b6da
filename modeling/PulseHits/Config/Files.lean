import PulseHits.Config.Yaml
import PulseHits.Storage.Basic
import PulseHits.Text.Quoted
import PulseHits.Text.Utf8

/-!
# Configurations and stored files

Reading a configuration from its file, and finding what belongs to a run. A path counts only if it
exists: the directory with the data of the run, and for its hits the directory they go to.
-/

namespace PulseHits.Config

/-- Why there is no configuration, or not the path it speaks of. -/
inductive Error where
  | missingPath (path : String)
  | io (cause : IoError)
  | yaml (cause : Yaml.Error)
  deriving DecidableEq, Repr

def Error.message : Error → String
  | .missingPath path =>
    s!"Failed to load configuration as file {Text.quoted path} does not exist"
  | .io cause => s!"Config failed due to IO error: {cause.message}"
  | .yaml cause => s!"Config failed to parse YAML: {cause.message}"

/-- The configuration that a file holds. -/
def ofFile (content : Bytes) : Except Error Config :=
  match Text.Utf8.decode? content with
  | none => .error (.io .notUtf8)
  | some text => (ofYaml text).mapError .yaml

variable {m : Type → Type} [Monad m] [Storage m]

def load (path : String) : m (Except Error Config) := do
  if ← Storage.pathExists path then
    match ← Storage.read path with
    | .ok content => return ofFile content
    | .error e => return .error (.io e)
  else return .error (.missingPath path)

/-- Whether there are data of a run. -/
def runExists (c : Config) (run : Int) : m Bool :=
  Storage.pathExists (c.runPath run)

/-- The directory with the data files of a run. -/
def runDirectory (c : Config) (run : Int) : m (Except Error String) := do
  let path := c.runPath run
  return if ← Storage.pathExists path then .ok path else .error (.missingPath path)

/-- The file for the hits of a run, which itself need not exist. -/
def hitFile (c : Config) (run : Int) : m (Except Error String) := do
  return if ← Storage.pathExists c.hitPath then .ok (c.hitFilePath run)
    else .error (.missingPath c.hitPath)

end PulseHits.Config
