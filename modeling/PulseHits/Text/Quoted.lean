import PulseHits.Text.Hex
import PulseHits.Text.Visible

/-!
# Quoted text

The form in which messages show a path: between double quotes, with a backslash before these and
before backslashes, short escapes for the common controls, and the code point of any other character
that would not be seen.
-/

namespace PulseHits.Text

def quotedChar (c : Char) : List Char :=
  match c with
  | '\x00' => ['\\', '0']
  | '\t' => ['\\', 't']
  | '\n' => ['\\', 'n']
  | '\r' => ['\\', 'r']
  | '"' => ['\\', '"']
  | '\\' => ['\\', '\\']
  | c => if isVisible c then [c] else ['\\', 'u', '\x7b'] ++ hex c.toNat ++ ['\x7d']

def quoted (s : String) : String :=
  String.ofList ('"' :: s.toList.flatMap quotedChar ++ ['"'])

end PulseHits.Text
