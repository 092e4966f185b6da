/-!
# Command lines

What the arguments of the program ask for. A path to a configuration stands in front of the
subcommand; arguments that fit nothing make the whole command line invalid.
-/

namespace PulseHits.CommandLine

inductive Request where
  | help
  /-- Print the contents of a hit file. -/
  | dump (hitFile : String)
  /-- Write a configuration to be filled in. -/
  | template (path? : Option String)
  /-- Process the runs of a configuration. -/
  | process (path : String)
  deriving DecidableEq, Repr

/-- An argument that starts with a hyphen is an option, unless the hyphen is all there is. -/
def isOption (arg : String) : Bool :=
  arg.startsWith "-" && arg != "-"

def isHelp (arg : String) : Bool :=
  arg == "--help" || arg.startsWith "-h"

/-- How the path to a configuration is given by an argument: in it or by the next one. -/
inductive PathOption where
  | inside (value : String)
  | next

def pathOption? (arg : String) : Option PathOption :=
  if arg == "-p" || arg == "--path" then some .next
  else
    match arg.toList with
    | '-' :: '-' :: 'p' :: 'a' :: 't' :: 'h' :: '=' :: value
    | '-' :: 'p' :: '=' :: value
    | '-' :: 'p' :: value => some (.inside (String.ofList value))
    | _ => none

namespace Request

/-- The arguments behind `new`. -/
def ofTemplateArgs (path? : Option String) : List String → Option Request
  | [] | ["--"] => some (.template path?)
  | arg :: _ => if isHelp arg then some .help else none

/-- The arguments behind `dump`. Behind two hyphens nothing is an option. -/
def ofDumpArgs : (file? : Option String) → List String → Option Request
  | some file, [] | some file, ["--"] | none, ["--", file] => some (.dump file)
  | none, [] | _, "--" :: _ => none
  | file?, arg :: rest =>
    if isHelp arg then some .help
    else if isOption arg || file?.isSome then none
    else ofDumpArgs (some arg) rest

/-- The arguments behind `help`. -/
def ofHelpArgs : List String → Option Request
  | [] | ["new"] | ["dump"] | ["help"] => some .help
  | _ => none

/-- The arguments behind those that have given a path. -/
def ofArgsFrom : (path? : Option String) → List String → Option Request
  | path?, [] | path?, ["--"] => path?.map .process
  | path?, "new" :: rest => ofTemplateArgs path? rest
  | _, "dump" :: rest => ofDumpArgs none rest
  | _, "help" :: rest => ofHelpArgs rest
  | path?, arg :: rest =>
    if isHelp arg then some .help
    else
      match path?, pathOption? arg, rest with
      | none, some (.inside value), rest => ofArgsFrom (some value) rest
      | none, some .next, value :: rest =>
        if isOption value then none else ofArgsFrom (some value) rest
      | _, _, _ => none

/-- What a command line asks for, if it is valid. -/
def ofArgs (args : List String) : Option Request :=
  ofArgsFrom none args

end Request

end PulseHits.CommandLine
