import PulseHits.Storage.Path

/-!
# Configuration

Where the data of the runs are, where their hits go, which runs to process and by how many workers.
The data files of a run are in a directory named after the run, and its hits go to a file named
after it.
-/

namespace PulseHits

structure Config where
  grawPath : String
  hitPath : String
  firstRun : Int32
  lastRun : Int32
  workers : Int32
  /-- Whether a frame that cannot be decoded is dropped instead of ending the run. -/
  skipBadFrames : Bool
  deriving DecidableEq, Repr

namespace Config

/-- A configuration to be filled in: its paths name nothing. -/
def template : Config where
  grawPath := "None"
  hitPath := "None"
  firstRun := 0
  lastRun := 0
  workers := 1
  skipBadFrames := true

/-- There has to be a worker. -/
def hasWorkers (c : Config) : Bool :=
  1 ≤ c.workers.toInt

/-- The numbers of the runs, the last one included. They are counted in 32 bits up to the number
behind the last run, so there has to be such a number. -/
def runs (c : Config) : List Int :=
  (List.range (c.lastRun.toInt + 1 - c.firstRun.toInt).toNat).map fun (i : Nat) => c.firstRun.toInt + i

/-- A run is named by its number with zeros in front, also in front of a sign, up to four
characters. -/
def runName (run : Int) : String :=
  "run_" ++ String.ofList ((toString run).toList.leftpad 4 '0')

/-- Where the data files of a run are. -/
def runPath (c : Config) (run : Int) : String :=
  Path.join c.grawPath (runName run)

/-- Where the hits of a run go. -/
def hitFilePath (c : Config) (run : Int) : String :=
  Path.join c.hitPath (runName run ++ ".hits")

end Config

end PulseHits
