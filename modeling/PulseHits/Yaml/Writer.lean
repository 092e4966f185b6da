import PulseHits.Text.Hex
import PulseHits.Text.Numeral
import PulseHits.Yaml.Chars

/-!
# Writing mappings

A mapping of names to texts and numbers, one entry a line. A text stands plain where it reads back
as the same text and as nothing else, in single quotes where plain it would read as something else,
as an indented block if it has line feeds, and in double quotes where characters have to be escaped
or blanks meet a line break.
-/

namespace PulseHits.Yaml

/-! ## What a plain scalar reads as -/

def isNull (text : List Char) : Bool :=
  ["null", "Null", "NULL", "~"].any (·.toList == text)

def bool? (text : List Char) : Option Bool :=
  if ["true", "True", "TRUE"].any (·.toList == text) then some true
  else if ["false", "False", "FALSE"].any (·.toList == text) then some false
  else none

/-- Whether a text reads as an integer of at most 128 bits. -/
def readsAsInteger (text : List Char) : Bool :=
  match Text.integer? text with
  | some n => if n < 0 then n.natAbs ≤ 1 <<< 127 else n.natAbs < 1 <<< 128
  | none => false

def isInfinity (text : List Char) : Bool :=
  [".inf", ".Inf", ".INF"].any (·.toList == text)

def isNotANumber (text : List Char) : Bool :=
  [".nan", ".NaN", ".NAN"].any (·.toList == text)

def readsAsFloat (text : List Char) : Bool :=
  match Text.dropPlus? text with
  | none => false
  | some unsigned =>
    isInfinity unsigned || (text.head? == some '-' && isInfinity (text.drop 1)) ||
      isNotANumber text || (Text.decimal? unsigned).any (·.isFiniteDouble)

/-- Whether a plain text would be taken for something else, or for a number by mistake. -/
def isAmbiguous (text : List Char) : Bool :=
  text.isEmpty || isNull text || (bool? text).isSome || readsAsInteger text ||
    Text.hasLeadingZero text || readsAsFloat text

/-! ## Which styles can carry a text -/

/-- The characters that need no escape: all but controls, the byte order mark and the two last ones
of the basic plane. Line feeds and the Unicode separators are among them. -/
def isPrintable (c : Char) : Bool :=
  let n := c.toNat
  n == 0xa || (0x20 ≤ n && n ≤ 0x7e) || (0xa0 ≤ n && n ≤ 0xfffd && n != 0xfeff) || 0x10000 ≤ n

/-- Whether somewhere a character that satisfies `p` stands right before one that satisfies `q`. -/
def hasPair (p q : Char → Bool) : List Char → Bool
  | a :: b :: rest => (p a && q b) || hasPair p q (b :: rest)
  | _ => false

def isSpace (c : Char) : Bool :=
  c == ' '

/-- Whether a text starts as something other than a plain scalar. -/
def startsLikeIndicator (text : List Char) : Bool :=
  match text with
  | [] => false
  | c :: rest =>
    ['#', ',', '[', ']', '{', '}', '&', '*', '!', '|', '>', '\x27', '"', '%', '@', '`'].contains c ||
      (['?', ':', '-'].contains c && startsWithGap rest) ||
      ['-', '-', '-'].isPrefixOf text || ['.', '.', '.'].isPrefixOf text

/-- Whether a colon ends a key inside a text. -/
def hasKeyColon : List Char → Bool
  | [] => false
  | c :: rest => (c == ':' && startsWithGap rest) || hasKeyColon rest

/-- A text that can stand plain. -/
def canBePlain (text : List Char) : Bool :=
  text.all (fun c => isPrintable c && !isBreak c) && !startsLikeIndicator text &&
    !hasKeyColon text && !hasPair isGap (· == '#') text &&
    !text.head?.any isSpace && !text.getLast?.any isSpace

/-- A text without characters to escape and without blanks beside a line break. -/
def canBeSingleQuoted (text : List Char) : Bool :=
  text.all isPrintable && !hasPair isSpace isBreak text && !hasPair isBreak isSpace text

/-- A text without characters to escape and without blanks at the end of a line. -/
def canBeLiteral (text : List Char) : Bool :=
  text.all isPrintable && !hasPair isSpace isBreak text && !text.getLast?.any isSpace

/-! ## The four styles -/

/-- The columns by which the lines of a value are indented. -/
def valueIndent : List Char :=
  [' ', ' ']

/-- In front of every line but empty ones there is the indentation. `lineStart` tells whether a line
starts with the first character. -/
def indentLines (lineStart : Bool) : (text : List Char) → List Char
  | [] => []
  | c :: rest =>
    if isBreak c then c :: indentLines true rest
    else (if lineStart then valueIndent else []) ++ c :: indentLines false rest

def singleQuoted (text : List Char) : List Char :=
  let body := indentLines false (text.flatMap fun c => if c == '\x27' then [c, c] else [c])
  let indent := if text.getLast?.any isBreak then valueIndent else []
  ['\x27'] ++ body ++ indent ++ ['\x27']

/-- The letter of a character that has an escape of its own. -/
def escapeLetter? : Char → Option Char
  | '\x00' => some '0'
  | '\x07' => some 'a'
  | '\x08' => some 'b'
  | '\t' => some 't'
  | '\n' => some 'n'
  | '\x0b' => some 'v'
  | '\x0c' => some 'f'
  | '\r' => some 'r'
  | '\x1b' => some 'e'
  | '"' => some '"'
  | '\\' => some '\\'
  | '\u0085' => some 'N'
  | '\u2028' => some 'L'
  | '\u2029' => some 'P'
  | _ => none

def escaped (c : Char) : List Char :=
  match escapeLetter? c with
  | some e => ['\\', e]
  | none =>
    if isPrintable c then [c]
    else if c.toNat ≤ 0xff then ['\\', 'x'] ++ Text.hexFixed Text.hexDigitUpper 2 c.toNat
    else if c.toNat ≤ 0xffff then ['\\', 'u'] ++ Text.hexFixed Text.hexDigitUpper 4 c.toNat
    else ['\\', 'U'] ++ Text.hexFixed Text.hexDigitUpper 8 c.toNat

def doubleQuoted (text : List Char) : List Char :=
  ['"'] ++ text.flatMap escaped ++ ['"']

/-- The marks of a literal block: the indentation if the text starts with a blank or a break, and
what becomes of the breaks at its end. -/
def literalMarks (text : List Char) : List Char :=
  let indent := if text.head?.any (fun c => isSpace c || isBreak c) then ['2'] else []
  let chomping :=
    match text.reverse with
    | [] => ['-']
    | last :: before =>
      if !isBreak last then ['-']
      else if before.head?.all isBreak then ['+'] else []
  indent ++ chomping

def literal (text : List Char) : List Char :=
  ['|'] ++ literalMarks text ++ ['\n'] ++ indentLines true text

/-- A text as the value of an entry. -/
def writeText (text : List Char) : List Char :=
  if text.contains '\n' then if canBeLiteral text then literal text else doubleQuoted text
  else if canBePlain text && !isAmbiguous text then text
  else if canBeSingleQuoted text then singleQuoted text
  else doubleQuoted text

/-! ## Mappings -/

/-- The value of an entry. -/
inductive Value where
  | text (chars : List Char)
  | integer (n : Int)
  | boolean (b : Bool)
  deriving DecidableEq, Repr

def Value.write : Value → List Char
  | .text chars => writeText chars
  | .integer n => (toString n).toList
  | .boolean b => (toString b).toList

/-- An entry takes whole lines. -/
def writeEntry (name : List Char) (v : Value) : List Char :=
  let value := v.write
  let lineEnd := if value.getLast?.any isBreak then [] else ['\n']
  name ++ [':', ' '] ++ value ++ lineEnd

def writeMapping (entries : List (List Char × Value)) : String :=
  String.ofList (entries.flatMap fun (name, v) => writeEntry name v)

end PulseHits.Yaml
