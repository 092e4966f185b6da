import PulseHits.Run.Frames
import PulseHits.Text.ByteSize

/-!
# Processing runs

A run is processed by taking in the data files of its directory in the order of their names and
writing its hit file. Nothing is written before it is known that there are data and where the hits
go. Several runs are processed one after the other; those without data are passed over, and the
first that fails is the last.
-/

namespace PulseHits.Run

variable {m : Type → Type} [Monad m] [Storage m]

def dataExtension : String := "graw"

/-- The names of the data files among the names in a directory, sorted by their bytes. -/
def dataNames (names : List String) : List String :=
  (names.filter fun n => Path.extension? n == some dataExtension).mergeSort fun a b => a ≤ b

/-- The data files of a directory with what could be read of them. -/
def dataFiles (directory : String) :
    m (Except Error (List (String × Except IoError Bytes))) := do
  match ← Storage.names directory with
  | .error e => return .error (.io e)
  | .ok names =>
    match dataNames names with
    | [] => return .error (.noDataFiles directory)
    | names =>
      let files ← names.mapM fun name => do
        let path := Path.join directory name
        return (path, ← Storage.read path)
      return .ok files

/-- The bytes of data files together. One that cannot be read counts for nothing, whatever size the
disk gives for it, and the run ends when it is taken in. -/
def totalSize (files : List (String × Except IoError Bytes)) : Nat :=
  files.foldl (fun size (_, content) => size + (content.toOption.getD []).length) 0

/-- What becomes of a run whose data files and hit file are known: the content of the hit file and
what is told once it is written. -/
def reduce (skipBadFrames : Bool) (run : Int) (worker : Worker) (hitFile : String)
    (files : List (String × Except IoError Bytes)) : Bytes × Report Summary :=
  if !worker.observed then ([], ⟨.error .observerGone, [], []⟩)
  else
    let (s, error?) := (State.start (totalSize files)).takeFiles skipBadFrames files
    let content := s.hitFile.bytes
    let statuses := s.reported.toList.map (⟨·, run, worker.number⟩)
    match error? with
    | some e => (content, ⟨.error e, statuses, s.notices.toList⟩)
    | none =>
      let n := s.summary
      let told : List Notice := [
        ⟨.info, s!"Run {run}: {n.frames} frames ({Text.byteSize n.bytes}), " ++
          s!"{n.framesWithHits} frames with hits, {n.hits} hits, " ++
          s!"{n.skippedFrames} skipped frames, {n.badFrames} bad frames"⟩,
        ⟨.info, s!"Hits written to {hitFile}"⟩]
      (content, ⟨.ok n, statuses ++ [⟨.ofRat 1, run, worker.number⟩], s.notices.toList ++ told⟩)

/-- Processes a run. -/
def processRun (c : Config) (worker : Worker) (run : Int) : m (Report Summary) := do
  match ← c.runDirectory run with
  | .error e => return ⟨.error (.config e), [], []⟩
  | .ok directory =>
    match ← dataFiles directory with
    | .error e => return ⟨.error e, [], []⟩
    | .ok files =>
      let size := Text.byteSize (totalSize files)
      let found : Notice := ⟨.info, s!"Found {files.length} GRAW files with total size: {size}"⟩
      match ← c.hitFile run with
      | .error e => return ⟨.error (.config e), [], [found]⟩
      | .ok hitFile =>
        let (content, report) := reduce c.skipBadFrames run worker hitFile files
        match ← Storage.write hitFile content with
        | .error e => return ⟨.error (.hitFile (.io e)), [], [found]⟩
        | .ok () => return { report with notices := found :: report.notices }

/-- Processes those of some runs that have data, up to the first that fails. -/
def processSubset (c : Config) (worker : Worker) : (runs : List Int) → m (Report Unit)
  | [] => return ⟨.ok (), [], []⟩
  | run :: rest => do
    if ← c.runExists run then
      let report ← processRun c worker run
      let begun : Notice := ⟨.info, s!"Processing run {run}..."⟩
      match report.result with
      | .error e => return ⟨.error e, report.statuses, begun :: report.notices⟩
      | .ok _ =>
        let finished : Notice := ⟨.info, s!"Finished processing run {run}."⟩
        let later ← processSubset c worker rest
        return { later with
          statuses := report.statuses ++ later.statuses
          notices := begun :: report.notices ++ finished :: later.notices }
    else
      let passedOver : Notice := ⟨.info, s!"Run {run} does not exist, skipping..."⟩
      let later ← processSubset c worker rest
      return { later with notices := passedOver :: later.notices }

/-- Processes all runs of a configuration. -/
def process (c : Config) (worker : Worker) : m (Report Unit) :=
  processSubset c worker c.runs

end PulseHits.Run
