/-!
# Characters and places in a YAML text

The character classes that the rules of YAML 1.2 speak of, and places in a text, counted in bytes,
lines and columns. A text is prepared first: every line break of one or two characters becomes a line
feed, and control characters are refused. The two Unicode separators stay breaks of their own kind.
-/

namespace PulseHits.Yaml

def lineSeparator : Char := '\u2028'
def paragraphSeparator : Char := '\u2029'
def byteOrderMark : Char := '\ufeff'

/-- A line break of a prepared text. -/
def isBreak (c : Char) : Bool :=
  c == '\n' || c == lineSeparator || c == paragraphSeparator

def isBlank (c : Char) : Bool :=
  c == ' ' || c == '\t'

def isGap (c : Char) : Bool :=
  isBlank c || isBreak c

/-- Whether a text ends or has a gap at its start. -/
def startsWithGap : List Char → Bool
  | [] => true
  | c :: _ => isGap c

/-- Letters, digits, hyphen and underscore, as in the names of anchors and tag handles. -/
def isWord (c : Char) : Bool :=
  c.isAlphanum || c == '-' || c == '_'

/-- The characters that may stand in a text at all. -/
def isAllowed (c : Char) : Bool :=
  let n := c.toNat
  n == 0x9 || n == 0xa || n == 0xd || (0x20 ≤ n && n ≤ 0x7e) || n == 0x85 ||
    (0xa0 ≤ n && n ≤ 0xd7ff) || (0xe000 ≤ n && n ≤ 0xfffd) || 0x10000 ≤ n

/-- Every line break but the two Unicode separators becomes a line feed. -/
def normalizeBreaks : List Char → List Char
  | [] => []
  | '\r' :: '\n' :: r => '\n' :: normalizeBreaks r
  | '\r' :: r => '\n' :: normalizeBreaks r
  | '\u0085' :: r => '\n' :: normalizeBreaks r
  | c :: r => c :: normalizeBreaks r

/-- The text as the scanner reads it, unless it has a control character. -/
def prepare? (text : String) : Option (List Char) :=
  let chars := text.toList
  if chars.all isAllowed then some (normalizeBreaks chars) else none

/-- Whether a line starts with a mark of three equal characters that stands alone. -/
def startsWithMark (mark : Char) : List Char → Bool
  | a :: b :: c :: r => a == mark && b == mark && c == mark && startsWithGap r
  | _ => false

/-- Whether a line starts with the beginning or the end of a document. -/
def startsWithDocumentMark (chars : List Char) : Bool :=
  startsWithMark '-' chars || startsWithMark '.' chars

/-! ## Places -/

structure Place where
  /-- The bytes of the text so far. -/
  offset : Nat
  line : Nat
  column : Nat
  deriving DecidableEq, Repr, Inhabited

/-- The place behind a character. -/
def Place.after (p : Place) (c : Char) : Place :=
  let offset := p.offset + c.utf8Size
  if isBreak c then ⟨offset, p.line + 1, 0⟩ else ⟨offset, p.line, p.column + 1⟩

/-- What is still to be read, and where it starts. -/
structure Cursor where
  chars : List Char
  place : Place
  deriving Repr, Inhabited

namespace Cursor

/-- Moves over `count` characters. -/
def forward (c : Cursor) (count : Nat) : Cursor :=
  ⟨c.chars.drop count, (c.chars.take count).foldl Place.after c.place⟩

/-- Moves over one character. -/
def next (c : Cursor) : Cursor :=
  c.forward 1

/-- Moves over the characters at the front that satisfy a test. -/
def skipWhile (c : Cursor) (test : Char → Bool) : Cursor :=
  c.forward (c.chars.takeWhile test).length

end Cursor

end PulseHits.Yaml
