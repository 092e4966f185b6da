import PulseHits.Text.Hex
import PulseHits.Yaml.Chars
import PulseHits.Yaml.Error

/-!
# Reading scalars

The five ways to write a scalar. Plain and quoted scalars fold: a run of blanks inside a line is
kept, a single line break becomes a blank and further ones stay. Block scalars are indented lines;
literal ones keep their breaks, folded ones join lines that are not indented further.
-/

namespace PulseHits.Yaml

/-- How a scalar was written. -/
inductive Style where
  | plain
  | singleQuoted
  | doubleQuoted
  | literal
  | folded
  deriving DecidableEq, Repr

/-! ## Folding -/

/-- The blanks and breaks since the last visible character of a scalar, latest first. -/
inductive Fold where
  | none
  | blanks (chars : List Char)
  /-- The first break, nothing if it was escaped, and the ones after it. -/
  | breaks (first : List Char) (more : List Char)
  deriving DecidableEq, Repr

namespace Fold

def addBlank (f : Fold) (c : Char) : Fold :=
  match f with
  | .none => .blanks [c]
  | .blanks cs => .blanks (c :: cs)
  | .breaks first more => .breaks first more

def addBreak (f : Fold) (c : Char) : Fold :=
  match f with
  | .none | .blanks _ => .breaks [c] []
  | .breaks first more => .breaks first (c :: more)

/-- What a fold stands for once a visible character follows, latest character first. -/
def chars : Fold → List Char
  | .none => []
  | .blanks cs => cs
  | .breaks ['\n'] [] => [' ']
  | .breaks ['\n'] more => more
  | .breaks first more => more ++ first

def hasBreak : Fold → Bool
  | .breaks _ _ => true
  | _ => false

end Fold

/-! ## Plain scalars -/

/-- A scalar that has been read, the text behind it and whether it ended behind a line break. -/
structure Scanned where
  text : List Char
  rest : Cursor
  afterBreak : Bool

def isFlowIndicator (c : Char) : Bool :=
  c == ',' || c == '[' || c == ']' || c == '{' || c == '}'

/-- Whether the colon at the front of `':' :: rest` belongs to no plain scalar of a flow collection,
not even as its last character. -/
def colonMisplaced : (rest : List Char) → Bool
  | c :: _ => isFlowIndicator c || c == '?'
  | [] => false

/-- Whether a plain scalar ends in front of `c :: rest`, with `fold` as the gap before it. -/
def plainEnds (inFlow : Bool) (indent : Nat) (c : Char) (rest : List Char) (place : Place)
    (fold : Fold) : Bool :=
  (fold.hasBreak && !inFlow && place.column < indent) ||
    (place.column == 0 && startsWithDocumentMark (c :: rest)) ||
    (c == '#' && fold != .none) || (c == ':' && startsWithGap rest) ||
    (inFlow && isFlowIndicator c)

/-- Reads a plain scalar on. `text` is what has been read, latest character first, `fold` the gap
behind it, and `indent` the least column in which a further line may start. -/
def plainFrom (inFlow : Bool) (indent : Nat) :
    (chars : List Char) → Place → (text : List Char) → Fold → Except Error Scanned
  | [], place, text, fold => .ok ⟨text.reverse, ⟨[], place⟩, fold.hasBreak⟩
  | c :: rest, place, text, fold =>
    if isBlank c then
      if fold.hasBreak && place.column < indent && c == '\t' then .error .tabIndentation
      else plainFrom inFlow indent rest (place.after c) text (fold.addBlank c)
    else if isBreak c then plainFrom inFlow indent rest (place.after c) text (fold.addBreak c)
    else if inFlow && c == ':' && colonMisplaced rest then .error .misplacedEntry
    else if plainEnds inFlow indent c rest place fold then
      .ok ⟨text.reverse, ⟨c :: rest, place⟩, fold.hasBreak⟩
    else plainFrom inFlow indent rest (place.after c) (c :: (fold.chars ++ text)) .none

def scanPlain (inFlow : Bool) (indent : Nat) (c : Cursor) : Except Error Scanned :=
  plainFrom inFlow indent c.chars c.place [] .none

/-! ## Quoted scalars -/

/-- The character that a one-letter escape stands for. -/
def escapeOf? : Char → Option Char
  | '0' => some '\x00'
  | 'a' => some '\x07'
  | 'b' => some '\x08'
  | 't' | '\t' => some '\t'
  | 'n' => some '\n'
  | 'v' => some '\x0b'
  | 'f' => some '\x0c'
  | 'r' => some '\r'
  | 'e' => some '\x1b'
  | ' ' => some ' '
  | '"' => some '"'
  | '/' => some '/'
  | '\\' => some '\\'
  | 'N' => some '\u0085'
  | '_' => some '\u00a0'
  | 'L' => some lineSeparator
  | 'P' => some paragraphSeparator
  | _ => none

/-- The number of hexadecimal digits after an escape. -/
def escapeDigits? : Char → Option Nat
  | 'x' => some 2
  | 'u' => some 4
  | 'U' => some 8
  | _ => none

/-- Where the reading of a quoted scalar stands. -/
inductive QuotedMode where
  | text
  /-- Behind a backslash. -/
  | escape
  /-- Inside a code point of which `left` digits are to come. -/
  | code (left value : Nat)
  /-- Behind a quote that is doubled or ends the scalar. -/
  | quote
  deriving DecidableEq, Repr

/-- Reads a quoted scalar on, behind its opening quote. -/
def quotedFrom (double : Bool) :
    (chars : List Char) → Place → QuotedMode → (text : List Char) → Fold → Except Error Scanned
  | [], place, .quote, text, _ => .ok ⟨text.reverse, ⟨[], place⟩, false⟩
  | [], _, _, _, _ => .error .unterminatedScalar
  | c :: rest, place, .quote, text, fold =>
    if c == '\x27' then quotedFrom double rest (place.after c) .text (c :: text) fold
    else .ok ⟨text.reverse, ⟨c :: rest, place⟩, false⟩
  | c :: rest, place, .escape, text, fold =>
    if isBreak c then quotedFrom double rest (place.after c) .text text (.breaks [] [])
    else
      match escapeOf? c, escapeDigits? c with
      | some e, _ => quotedFrom double rest (place.after c) .text (e :: text) fold
      | none, some digits => quotedFrom double rest (place.after c) (.code digits 0) text fold
      | none, none => .error .badEscape
  | c :: rest, place, .code left value, text, fold =>
    match Text.hexValue? c with
    | none => .error .badEscape
    | some digit =>
      let value := 16 * value + digit
      if left ≤ 1 then
        if h : value.isValidChar then
          quotedFrom double rest (place.after c) .text (Char.ofNatAux value h :: text) fold
        else .error .badEscape
      else quotedFrom double rest (place.after c) (.code (left - 1) value) text fold
  | c :: rest, place, .text, text, fold =>
    if isBlank c then quotedFrom double rest (place.after c) .text text (fold.addBlank c)
    else if isBreak c then quotedFrom double rest (place.after c) .text text (fold.addBreak c)
    else if place.column == 0 && startsWithDocumentMark (c :: rest) then
      .error .unterminatedScalar
    else
      let text := fold.chars ++ text
      if double && c == '"' then .ok ⟨text.reverse, ⟨rest, place.after c⟩, false⟩
      else if double && c == '\\' then quotedFrom double rest (place.after c) .escape text .none
      else if !double && c == '\x27' then quotedFrom double rest (place.after c) .quote text .none
      else quotedFrom double rest (place.after c) .text (c :: text) .none

/-- Reads a quoted scalar from its opening quote on. -/
def scanQuoted (double : Bool) (c : Cursor) : Except Error Scanned :=
  let c := c.next
  quotedFrom double c.chars c.place .text [] .none

/-! ## Block scalars -/

/-- What becomes of the breaks at the end of a block scalar. -/
inductive Chomping where
  | strip
  | clip
  | keep
  deriving DecidableEq, Repr

def chomping? : Char → Option Chomping
  | '+' => some .keep
  | '-' => some .strip
  | _ => none

/-- The marks behind the indicator of a block scalar, in either order: chomping and indentation. -/
structure BlockHeader where
  chomping : Chomping
  indent? : Option Nat
  deriving DecidableEq, Repr

def indentDigit? (c : Char) : Option Nat :=
  if c.isDigit then some (c.toNat - '0'.toNat) else none

/-- Reads the marks and gives their number. -/
def blockMarks (chars : List Char) : BlockHeader × Nat :=
  match chars with
  | [] => (⟨.clip, none⟩, 0)
  | a :: r =>
    match chomping? a, indentDigit? a with
    | some ch, _ =>
      match r.head?.bind indentDigit? with
      | some d => (⟨ch, some d⟩, 2)
      | none => (⟨ch, none⟩, 1)
    | none, some d =>
      match r.head?.bind chomping? with
      | some ch => (⟨ch, some d⟩, 2)
      | none => (⟨.clip, some d⟩, 1)
    | none, none => (⟨.clip, none⟩, 0)

/-- Reads the marks, and blanks and a comment behind them, up to and over the end of the line. -/
def scanBlockHeader (c : Cursor) : Except Error (BlockHeader × Cursor) :=
  let (header, count) := blockMarks c.chars
  if header.indent? = some 0 then .error .badBlockHeader
  else
    let c := (c.forward count).skipWhile isBlank
    let c := if c.chars.head? = some '#' then c.skipWhile (fun x => !isBreak x) else c
    match c.chars with
    | [] => .ok (header, c)
    | x :: _ => if isBreak x then .ok (header, c.next) else .error .badBlockHeader

/-- Empty lines, and the indentation of the line after them. -/
structure BlockGap where
  /-- The breaks of the empty lines, latest first. -/
  breaks : List Char
  rest : Cursor
  /-- The greatest column that was reached. -/
  width : Nat

/-- Reads empty lines and indentation up to column `limit?`, or all indentation without it. -/
def blockGap (limit? : Option Nat) :
    (chars : List Char) → Place → (breaks : List Char) → (width : Nat) → Except Error BlockGap
  | [], place, breaks, width => .ok ⟨breaks, ⟨[], place⟩, max width place.column⟩
  | c :: rest, place, breaks, width =>
    let indenting := limit?.all (place.column < ·)
    if c == ' ' && indenting then blockGap limit? rest (place.after c) breaks width
    else if c == '\t' && indenting then .error .tabIndentation
    else if isBreak c then
      blockGap limit? rest (place.after c) (c :: breaks) (max width place.column)
    else .ok ⟨breaks, ⟨c :: rest, place⟩, max width place.column⟩

/-- What has been read of a block scalar; texts have their latest character first. -/
structure BlockState where
  text : List Char
  /-- The break that ended the last line. -/
  lineBreak : List Char
  /-- The breaks of the empty lines after it. -/
  empties : List Char
  /-- Whether the last line began with a blank. -/
  blankStart : Bool

/-- What stands between the lines read so far and the next one. -/
def BlockState.joint (s : BlockState) (folded nextBlankStart : Bool) : List Char :=
  if folded && s.lineBreak == ['\n'] && !s.blankStart && !nextBlankStart then
    if s.empties.isEmpty then [' '] else s.empties
  else s.empties ++ s.lineBreak

/-- Reads the lines of a block scalar that start in column `indent`. -/
def blockLines (folded : Bool) (indent : Nat) :
    (fuel : Nat) → Cursor → BlockState → Except Error (BlockState × Cursor)
  | 0, c, s => .ok (s, c)
  | fuel + 1, c, s =>
    match c.chars with
    | [] => .ok (s, c)
    | x :: _ =>
      if c.place.column ≠ indent then .ok (s, c)
      else
        let line := c.chars.takeWhile fun x => !isBreak x
        let c := c.forward line.length
        let text := line.reverse ++ (s.joint folded (isBlank x) ++ s.text)
        match c.chars with
        | [] => .ok (⟨text, [], [], isBlank x⟩, c)
        | b :: _ => do
          let c := c.next
          let gap ← blockGap (some indent) c.chars c.place [] 0
          blockLines folded indent fuel gap.rest ⟨text, [b], gap.breaks, isBlank x⟩

/-- Reads a block scalar from its indicator on. `least` is the least column of its lines. -/
def scanBlock (folded : Bool) (least : Nat) (c : Cursor) : Except Error Scanned := do
  let (header, c) ← scanBlockHeader c.next
  let limit? := header.indent?.map fun n => if least = 0 then n else least - 1 + n
  let gap ← blockGap limit? c.chars c.place [] 0
  let indent := limit?.getD (max gap.width (max least 1))
  let (s, rest) ← blockLines folded indent (gap.rest.chars.length + 1) gap.rest
    ⟨[], [], gap.breaks, false⟩
  let text := match header.chomping with
    | .strip => s.text
    | .clip => s.lineBreak ++ s.text
    | .keep => s.empties ++ s.lineBreak ++ s.text
  return ⟨text.reverse, rest, true⟩

end PulseHits.Yaml
