/-!
# Faults of a YAML text
-/

namespace PulseHits.Yaml

/-- Why a text is not a YAML document of the expected form. -/
inductive Error where
  | controlCharacter
  | unexpectedCharacter (line column : Nat)
  | unterminatedScalar
  | badEscape
  | badBlockHeader
  | tabIndentation
  | badName
  | badDirective
  | missingColon
  | misplacedEntry
  | unexpectedToken
  | undefinedTag
  | unknownAnchor
  | severalDocuments
  | tooDeep
  | notAMapping
  | keyNotText
  | missingField (name : String)
  | duplicateField (name : String)
  | wrongType (name : String)
  deriving DecidableEq, Repr

def Error.message : Error → String
  | .controlCharacter => "control characters are not allowed"
  | .unexpectedCharacter line column =>
    s!"no token can start at line {line + 1} column {column + 1}"
  | .unterminatedScalar => "a quoted scalar does not end"
  | .badEscape => "unknown or malformed escape in a quoted scalar"
  | .badBlockHeader => "malformed header of a block scalar"
  | .tabIndentation => "a tab stands where indentation is expected"
  | .badName => "malformed anchor, alias or tag"
  | .badDirective => "malformed or unsupported directive"
  | .missingColon => "a key is not followed by a colon"
  | .misplacedEntry => "an entry is not allowed here"
  | .unexpectedToken => "the structure of the document is broken"
  | .undefinedTag => "undefined tag handle"
  | .unknownAnchor => "unknown anchor"
  | .severalDocuments => "more than one document"
  | .tooDeep => "nested too deeply"
  | .notAMapping => "expected a mapping"
  | .keyNotText => "expected a scalar as key"
  | .missingField name => s!"missing field {name}"
  | .duplicateField name => s!"duplicate field {name}"
  | .wrongType name => s!"invalid value of field {name}"

end PulseHits.Yaml
