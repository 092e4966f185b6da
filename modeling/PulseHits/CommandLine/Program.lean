import PulseHits.CommandLine.Request
import PulseHits.Number.Shortest
import PulseHits.Run.Process
import PulseHits.Run.Subsets

/-!
# The program

What the program does for each request: the files it reads and writes, the lines it prints and its
exit code. Workers share the runs of a configuration among them, and how each has fared is told in
their order.
-/

namespace PulseHits.CommandLine

/-- How the program ends, with the lines that it prints. -/
inductive Outcome where
  | help
  | invalidArguments
  | completed (lines : List Notice)
  /-- The template of a configuration cannot be written. -/
  | unwritable (lines : List Notice) (cause : IoError)

def Outcome.exitCode : Outcome → UInt8
  | .help | .completed _ => 0
  | .invalidArguments => 2
  | .unwritable _ _ => 101

def info (text : String) : Notice := ⟨.info, text⟩

def error (text : String) : Notice := ⟨.error, text⟩

variable {m : Type → Type} [Monad m] [Storage m]

/-! ## Printing a hit file -/

def hitLine (h : Hit) : Notice :=
  info <| s!"CoBo: {h.cobo} AsAd: {h.asad} AGET: {h.aget} Channel: {h.channel} -- " ++
    s!"time: {h.time.text} peak: {h.peak.text} integral: {h.integral.text}"

def eventLines (e : Hit.EventHits) : List Notice :=
  info s!"Event {e.eventId} Time {e.eventTime} -- {e.hits.length} hits" :: e.hits.map hitLine

def readFailure (cause : Hit.FileError) : Notice :=
  error s!"Failed to read hit file: {cause.message}"

/-- The records of a hit file up to the first that cannot be read. -/
def hitFileLines (content : Bytes) : List Notice :=
  let (records, error?) := Hit.readAll content
  records.flatMap eventLines ++ (error?.map readFailure).toList

def dump (path : String) : m (List Notice) := do
  if ← Storage.pathExists path then
    match ← Storage.read path with
    | .ok content => return hitFileLines content
    | .error e => return [readFailure (.io e)]
  else return [error (Hit.FileError.missingFile path).message]

/-! ## Processing -/

/-- Where the notices of the workers go. -/
def logFile : String := "./get_hits.log"

def levelName : Level → String
  | .debug => "debug"
  | .info => "info"
  | .warn => "warn"
  | .error => "error"

def logContent (notices : List Notice) : Bytes :=
  Text.Utf8.encode (String.join (notices.map fun n => s!"[{levelName n.level}] - {n.text}\n"))

def configLines (c : Config) : List Notice := [
  info "Config successfully loaded.",
  info s!"GRAW Path: {c.grawPath}",
  info s!"Hit Path: {c.hitPath}",
  info s!"First Run: {c.firstRun.toInt} Last Run: {c.lastRun.toInt}",
  info s!"Number of workers: {c.workers.toInt}",
  info s!"Skip bad frames: {c.skipBadFrames}"]

/-- How a worker has fared. -/
def workerLine (result : Except Run.Error Unit) : Notice :=
  match result with
  | .ok () => info "Worker successfully extracted hits!"
  | .error e => error s!"Worker failed with error: {e.message}. Check {logFile} for details."

/-- Lets every worker that has runs process them. -/
def work (c : Config) : m (List (Run.Report Unit)) :=
  let shares := c.subsets.zipIdx.filter fun (runs, _) => !runs.isEmpty
  shares.mapM fun (runs, number) => Run.processSubset c ⟨number, true⟩ runs

def process (path : String) : m (List Notice) := do
  match ← Storage.write logFile [] with
  | .error e => return [error s!"Could not create log file {logFile}: open file error: {e.message}"]
  | .ok () =>
    let loading := info s!"Loading config from {path}..."
    match ← Config.load path with
    | .error e => return [loading, error e.message]
    | .ok c =>
      let loaded := loading :: configLines c
      if c.hasWorkers then
        let reports ← work c
        let _ ← Storage.write logFile (logContent (reports.flatMap (·.notices)))
        return loaded ++ reports.map (workerLine ·.result) ++ [info "Done."]
      else return loaded ++ [error "Number of workers must be at least 1!"]

/-! ## Requests -/

def pathRequired : Notice :=
  error "A configuration file path is required (-p/--path)"

def writeTemplate (path : String) : m Outcome := do
  let making := info s!"Making a template config at {path}..."
  match ← Storage.write path (Text.Utf8.encode Config.template.toYaml) with
  | .ok () => return .completed [making, info "Done."]
  | .error e => return .unwritable [making] e

/-- Runs the program with the given arguments. -/
def run (args : List String) : m Outcome :=
  match Request.ofArgs args with
  | none => return .invalidArguments
  | some .help => return .help
  | some (.dump hitFile) => .completed <$> dump hitFile
  | some (.template none) => return .completed [pathRequired]
  | some (.template (some path)) => writeTemplate path
  | some (.process path) => .completed <$> process path

end PulseHits.CommandLine
