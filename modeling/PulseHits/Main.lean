import PulseHits.CommandLine.Program
import Std.Time.DateTime.Timestamp

/-!
# The executable

Runs the program on the disk and prints its lines with the time of day in front: failures to the
standard error stream, everything else to the standard output.
-/

namespace PulseHits

/-- The cause of a failure of the disk. -/
def IoError.ofSystem : IO.Error → IoError
  | .noFileOrDirectory .. => .notFound
  | .inappropriateType _ 21 _ => .isDirectory
  | .inappropriateType _ 20 _ => .notDirectory
  | e => .other (toString e)

def attempt {α : Type} (action : IO α) : IO (Except IoError α) := do
  try return .ok (← action)
  catch e => return .error (.ofSystem e)

instance : Storage IO where
  pathExists path := return (← attempt (IO.FS.Handle.mk path .read)).isOk
  names path := attempt do
    return ((← (← IO.FS.realPath path).readDir).map (·.fileName)).toList
  read path := attempt do return (← IO.FS.readBinFile path).toList
  write path content := attempt (IO.FS.writeBinFile path ⟨content.toArray⟩)

/-- The time of day of a moment given in seconds since a midnight. -/
def timeOfDay (seconds : Nat) : String :=
  let two (n : Nat) : String := String.ofList ((toString n).toList.leftpad 2 '0')
  s!"{two (seconds / 3600 % 24)}:{two (seconds / 60 % 60)}:{two (seconds % 60)}"

def printLine (n : Notice) : IO Unit := do
  let time := timeOfDay (← Std.Time.Timestamp.now).toSecondsSinceUnixEpoch.toInt.toNat
  let line := s!"{time} [{(CommandLine.levelName n.level).toUpper}] {n.text}"
  match n.level with
  | .error => IO.eprintln line
  | _ => IO.println line

def usage : String :=
  "Usage: [-p FILE] [new | dump HIT_FILE | help]\n\n" ++
    "  -p, --path FILE  the configuration whose runs are processed\n" ++
    "  new              write a configuration to be filled in\n" ++
    "  dump HIT_FILE    print the contents of a hit file"

end PulseHits

open PulseHits

def main (args : List String) : IO UInt32 := do
  let outcome ← CommandLine.run args
  match outcome with
  | .help => IO.println usage
  | .invalidArguments => IO.eprintln usage
  | .completed lines => lines.forM printLine
  | .unwritable lines cause =>
    lines.forM printLine
    IO.eprintln s!"Could not create the template: {cause.message}"
  return outcome.exitCode.toUInt32
