import PulseHits.Config.Basic
import PulseHits.Yaml.Record
import PulseHits.Yaml.Writer

/-!
# Configurations as YAML

A configuration is written as a mapping with one entry for each field. It is read from any document
that is a mapping with these fields; only the last one may be left out.
-/

namespace PulseHits.Config

/-- A number of 32 bits. -/
def int32? (n : Int) : Option Int32 :=
  if Int32.minValue.toInt ≤ n ∧ n ≤ Int32.maxValue.toInt then some (.ofInt n) else none

def ofRecord (r : Yaml.Record) : Except Yaml.Error Config := do
  let integer? (n : Yaml.Node) : Option Int32 := n.integer?.bind int32?
  return {
    grawPath := ← r.get "graw_path" Yaml.Node.text?
    hitPath := ← r.get "hit_path" Yaml.Node.text?
    firstRun := ← r.get "first_run_number" integer?
    lastRun := ← r.get "last_run_number" integer?
    workers := ← r.get "n_threads" integer?
    skipBadFrames := ← r.getD "skip_bad_frames" Yaml.Node.boolean? template.skipBadFrames }

def ofYaml (text : String) : Except Yaml.Error Config := do
  ofRecord (← (← Yaml.Document.parse text).record)

def toYaml (c : Config) : String :=
  Yaml.writeMapping [
    ("graw_path".toList, .text c.grawPath.toList),
    ("hit_path".toList, .text c.hitPath.toList),
    ("first_run_number".toList, .integer c.firstRun.toInt),
    ("last_run_number".toList, .integer c.lastRun.toInt),
    ("n_threads".toList, .integer c.workers.toInt),
    ("skip_bad_frames".toList, .boolean c.skipBadFrames)]

end PulseHits.Config
