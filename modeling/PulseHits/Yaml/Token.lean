import PulseHits.Yaml.Scalar
import PulseHits.Yaml.Tag

/-!
# Tokens

A text is split into tokens. Indentation opens and closes block collections, and gives tokens of its
own. A key is recognised only at the colon behind it: until then it is remembered as possible, with
the number of tokens before it, and its marker is inserted there. A possible key lapses at the end
of its line or after 1024 bytes; where nothing but a key can stand, that is a fault.
-/

namespace PulseHits.Yaml

inductive Token where
  | version (major minor : Nat)
  /-- What a tag handle stands for. -/
  | tagHandle (handle : List Char) (stands : Tag)
  | documentStart
  | documentEnd
  | blockSequenceStart
  | blockMappingStart
  | blockEnd
  | flowSequenceStart
  | flowSequenceEnd
  | flowMappingStart
  | flowMappingEnd
  | blockEntry
  | flowEntry
  | key
  | value
  | alias (name : List Char)
  | anchor (name : List Char)
  | tag (handle : List Char) (suffix : Tag)
  | scalar (style : Style) (text : List Char)
  deriving DecidableEq, Repr

/-! ## The state of the scanner -/

/-- A token that may turn out to start a key. -/
structure PossibleKey where
  /-- The number of tokens before it. -/
  position : Nat
  place : Place
  /-- Nothing else can stand there. -/
  required : Bool
  deriving Repr

structure Scanner where
  cursor : Cursor
  /-- The tokens so far, latest first. -/
  tokens : List Token
  /-- The columns of the open block collections, innermost first. -/
  indents : List Nat
  /-- Whether a key could start here. -/
  keyAllowed : Bool
  /-- The possible key of each open flow collection, innermost first. -/
  flowKeys : List (Option PossibleKey)
  /-- The possible key outside all flow collections. -/
  blockKey : Option PossibleKey
  deriving Repr

namespace Scanner

def start (chars : List Char) : Scanner :=
  ⟨⟨chars, ⟨0, 0, 0⟩⟩, [], [], true, [], none⟩

def inFlow (s : Scanner) : Bool :=
  !s.flowKeys.isEmpty

/-- The least column of what belongs to the innermost block collection. -/
def least (s : Scanner) : Nat :=
  match s.indents with
  | [] => 0
  | i :: _ => i + 1

def push (s : Scanner) (t : Token) : Scanner :=
  { s with tokens := t :: s.tokens }

/-- Inserts a token behind the first `position` ones. -/
def insertAt (s : Scanner) (position : Nat) (t : Token) : Scanner :=
  { s with tokens := s.tokens.insertIdx (s.tokens.length - position) t }

/-! ### Possible keys -/

def currentKey (s : Scanner) : Option PossibleKey :=
  match s.flowKeys with
  | [] => s.blockKey
  | k :: _ => k

def setCurrentKey (s : Scanner) (k : Option PossibleKey) : Scanner :=
  match s.flowKeys with
  | [] => { s with blockKey := k }
  | _ :: rest => { s with flowKeys := k :: rest }

/-- Gives up the current possible key. -/
def dropKey (s : Scanner) : Except Error Scanner :=
  match s.currentKey with
  | some k => if k.required then .error .missingColon else .ok (s.setCurrentKey none)
  | none => .ok s

/-- Remembers that a key may start here, if one could. -/
def saveKey (s : Scanner) : Except Error Scanner := do
  if s.keyAllowed then
    let s ← s.dropKey
    let place := s.cursor.place
    let required := !s.inFlow && s.indents.head? == some place.column
    return s.setCurrentKey (some ⟨s.tokens.length, place, required⟩)
  else return s

/-- The greatest distance in bytes from the start of a key to the colon behind it. -/
def maxKeyLength : Nat := 1024

/-- A possible key lapses at the end of its line or when it is too long. -/
def lapse (here : Place) (k? : Option PossibleKey) : Except Error (Option PossibleKey) :=
  match k? with
  | none => .ok none
  | some k =>
    if k.place.line < here.line || k.place.offset + maxKeyLength < here.offset then
      if k.required then .error .missingColon else .ok none
    else .ok (some k)

def lapseKeys (s : Scanner) : Except Error Scanner := do
  let here := s.cursor.place
  let blockKey ← lapse here s.blockKey
  let flowKeys ← s.flowKeys.mapM (lapse here)
  return { s with blockKey, flowKeys }

/-! ### Indentation -/

/-- Opens a block collection in `column` unless one is open there, with its token behind the first
`position` ones. -/
def openBlock (s : Scanner) (column position : Nat) (t : Token) : Scanner :=
  if !s.inFlow && s.least ≤ column then
    { s with indents := column :: s.indents }.insertAt position t
  else s

/-- Closes the block collections that are indented further than `column?`, or all. -/
def closeBlocks (s : Scanner) (column? : Option Nat) : Scanner :=
  if s.inFlow then s
  else
    let inner := s.indents.takeWhile fun i => column?.all (· < i)
    { s with
      indents := s.indents.drop inner.length
      tokens := inner.map (fun _ => .blockEnd) ++ s.tokens }

/-! ### Gaps between tokens -/

/-- Moves over blanks, comments and line breaks. Tabs count as blanks except where indentation is
expected; behind a line break a key may start again. -/
def skipGapFrom (inFlow : Bool) :
    (chars : List Char) → Place → (keyAllowed comment : Bool) → Cursor × Bool
  | [], place, keyAllowed, _ => (⟨[], place⟩, keyAllowed)
  | c :: rest, place, keyAllowed, comment =>
    if isBreak c then
      skipGapFrom inFlow rest (place.after c) (keyAllowed || !inFlow) false
    else if comment then skipGapFrom inFlow rest (place.after c) keyAllowed true
    else if c == '#' then skipGapFrom inFlow rest (place.after c) keyAllowed true
    else if c == ' ' || (c == '\t' && (inFlow || !keyAllowed)) ||
        (c == byteOrderMark && place.column == 0) then
      skipGapFrom inFlow rest (place.after c) keyAllowed false
    else (⟨c :: rest, place⟩, keyAllowed)

def skipGap (s : Scanner) : Scanner :=
  let (cursor, keyAllowed) :=
    skipGapFrom s.inFlow s.cursor.chars s.cursor.place s.keyAllowed false
  { s with cursor, keyAllowed }

/-! ### Directives, anchors and tags -/

/-- Digits at the front, at most nine of them. -/
def scanNumber (c : Cursor) : Except Error (Nat × Cursor) :=
  let digits := c.chars.takeWhile Char.isDigit
  if digits.isEmpty || 9 < digits.length then .error .badDirective
  else .ok (digits.foldl (fun n d => 10 * n + (d.toNat - '0'.toNat)) 0, c.forward digits.length)

def scanDirective (c : Cursor) : Except Error (Token × Cursor) := do
  let c := c.next
  let name := c.chars.takeWhile isWord
  let c := c.forward name.length
  if name.isEmpty || !startsWithGap c.chars then throw .badDirective
  let c := c.skipWhile isBlank
  let (token, c) ←
    if name == "YAML".toList then do
      let (major, c) ← scanNumber c
      if c.chars.head? != some '.' then throw .badDirective
      let (minor, c) ← scanNumber c.next
      pure (Token.version major minor, c)
    else if name == "TAG".toList then do
      let (handle, c) := Tag.scanHandle c
      if !(handle == ['!'] || Tag.isNamedHandle handle) then throw .badDirective
      if !(c.chars.head?.any isBlank) then throw .badDirective
      let (stands, c) ← Tag.scanText true (c.skipWhile isBlank)
      if stands.isEmpty || !startsWithGap c.chars then throw .badDirective
      pure (Token.tagHandle handle (.ofWritten stands), c)
    else throw .badDirective
  let c := c.skipWhile isBlank
  let c := if c.chars.head? == some '#' then c.skipWhile (fun x => !isBreak x) else c
  match c.chars with
  | [] => return (token, c)
  | x :: _ => if isBreak x then return (token, c.next) else throw .badDirective

/-- The name behind the indicator of an anchor or alias. -/
def scanAnchorName (c : Cursor) : Except Error (List Char × Cursor) :=
  let c := c.next
  let name := c.chars.takeWhile isWord
  let c := c.forward name.length
  let ends := startsWithGap c.chars ||
    c.chars.head?.any fun x => ['?', ':', ',', ']', '}', '%', '@', '`'].contains x
  if name.isEmpty || !ends then .error .badName else .ok (name, c)

def scanTag (inFlow : Bool) (c : Cursor) : Except Error (Token × Cursor) := do
  let (token, c) ←
    match c.chars with
    | '!' :: '<' :: _ => do
      let (suffix, c) ← Tag.scanText true (c.forward 2)
      if suffix.isEmpty || c.chars.head? != some '>' then throw .badName
      pure (Token.tag [] (.ofWritten suffix), c.next)
    | _ => do
      let (handle, c) := Tag.scanHandle c
      let (suffix, c) ← Tag.scanText false c
      if Tag.isNamedHandle handle then
        if suffix.isEmpty then throw .badName
        pure (Token.tag handle (.ofWritten suffix), c)
      else
        let suffix := Tag.ofWritten (Tag.ofChars (handle.drop 1) ++ suffix)
        pure (if suffix.isEmpty then Token.tag [] (.ofChars ['!']) else Token.tag ['!'] suffix, c)
  if startsWithGap c.chars || (inFlow && c.chars.head? == some ',') then return (token, c)
  else throw .badName

/-! ### One token after the other -/

/-- Moves over `count` characters and adds a token. -/
def take (s : Scanner) (count : Nat) (t : Token) : Scanner :=
  { s with cursor := s.cursor.forward count, tokens := t :: s.tokens }

def setKeyAllowed (s : Scanner) (allowed : Bool) : Scanner :=
  { s with keyAllowed := allowed }

def openFlow (s : Scanner) (t : Token) : Except Error Scanner := do
  let s ← s.saveKey
  return ({ s with flowKeys := none :: s.flowKeys }.setKeyAllowed true).take 1 t

def closeFlow (s : Scanner) (t : Token) : Except Error Scanner := do
  let s ← s.dropKey
  return ({ s with flowKeys := s.flowKeys.drop 1 }.setKeyAllowed false).take 1 t

/-- The indicator of a sequence entry, or with `t = .key` of an explicit key. -/
def entry (s : Scanner) (opening t : Token) (allowedAfter : Bool) : Except Error Scanner := do
  if !s.inFlow && !s.keyAllowed then throw .misplacedEntry
  let s := s.openBlock s.cursor.place.column s.tokens.length opening
  let s ← s.dropKey
  return (s.setKeyAllowed allowedAfter).take 1 t

/-- The colon behind a key. A possible key is now known to be one. -/
def colon (s : Scanner) : Except Error Scanner :=
  match s.currentKey with
  | some k =>
    let s := s.insertAt k.position .key
    let s := s.openBlock k.place.column k.position .blockMappingStart
    .ok (((s.setCurrentKey none).setKeyAllowed false).take 1 .value)
  | none =>
    if !s.inFlow && !s.keyAllowed then .error .misplacedEntry
    else
      let s := s.openBlock s.cursor.place.column s.tokens.length .blockMappingStart
      .ok ((s.setKeyAllowed !s.inFlow).take 1 .value)

/-- Adds a scalar that has been read. -/
def addScalar (s : Scanner) (style : Style) (scanned : Scanned) : Scanner :=
  { s with
    cursor := scanned.rest
    tokens := .scalar style scanned.text :: s.tokens
    keyAllowed := scanned.afterBreak }

def quoted (s : Scanner) (double : Bool) : Except Error Scanner := do
  let s ← s.saveKey
  return s.addScalar (if double then .doubleQuoted else .singleQuoted)
    (← scanQuoted double s.cursor)

def block (s : Scanner) (folded : Bool) : Except Error Scanner := do
  let s ← s.dropKey
  return s.addScalar (if folded then .folded else .literal) (← scanBlock folded s.least s.cursor)

def plain (s : Scanner) : Except Error Scanner := do
  let s ← s.saveKey
  return s.addScalar .plain (← scanPlain s.inFlow s.least s.cursor)

/-- The beginning or end of a document, or a directive, closes everything. -/
def closeDocument (s : Scanner) : Except Error Scanner := do
  let s ← (s.closeBlocks none).dropKey
  return s.setKeyAllowed false

/-- Whether a plain scalar can start with `c` in front of `rest`. -/
def startsPlain (inFlow : Bool) (c : Char) (rest : List Char) : Bool :=
  !(isGap c || ['-', '?', ':', ',', '[', ']', '{', '}', '#', '&', '*', '!', '|', '>', '\x27', '"',
    '%', '@', '`'].contains c) ||
  (c == '-' && !(rest.head?.any isBlank)) ||
  (!inFlow && (c == '?' || c == ':') && !startsWithGap rest)

/-- Reads the token that starts with `c`. -/
def token (s : Scanner) (c : Char) (rest : List Char) : Except Error Scanner := do
  let place := s.cursor.place
  let gapAfter := startsWithGap rest
  if place.column == 0 && c == '%' then
    let s ← s.closeDocument
    let (t, cursor) ← scanDirective s.cursor
    return { s with cursor }.push t
  if place.column == 0 && startsWithMark '-' (c :: rest) then
    return (← s.closeDocument).take 3 .documentStart
  if place.column == 0 && startsWithMark '.' (c :: rest) then
    return (← s.closeDocument).take 3 .documentEnd
  match c with
  | '[' => s.openFlow .flowSequenceStart
  | '{' => s.openFlow .flowMappingStart
  | ']' => s.closeFlow .flowSequenceEnd
  | '}' => s.closeFlow .flowMappingEnd
  | ',' => return ((← s.dropKey).setKeyAllowed true).take 1 .flowEntry
  | '*' =>
    let s ← s.saveKey
    let (name, cursor) ← scanAnchorName s.cursor
    return ({ s with cursor }.setKeyAllowed false).push (.alias name)
  | '&' =>
    let s ← s.saveKey
    let (name, cursor) ← scanAnchorName s.cursor
    return ({ s with cursor }.setKeyAllowed false).push (.anchor name)
  | '!' =>
    let s ← s.saveKey
    let (t, cursor) ← scanTag s.inFlow s.cursor
    return ({ s with cursor }.setKeyAllowed false).push t
  | '\x27' => s.quoted false
  | '"' => s.quoted true
  | _ =>
    if c == '-' && gapAfter then s.entry .blockSequenceStart .blockEntry true
    else if c == '?' && (s.inFlow || gapAfter) then s.entry .blockMappingStart .key !s.inFlow
    else if c == ':' && (s.inFlow || gapAfter) then s.colon
    else if c == '|' && !s.inFlow then s.block false
    else if c == '>' && !s.inFlow then s.block true
    else if startsPlain s.inFlow c rest then s.plain
    else throw (.unexpectedCharacter place.line place.column)

/-- The end of the text closes everything. -/
def finish (s : Scanner) : Except Error (List Token) := do
  let s ← s.closeDocument
  return s.tokens.reverse

/-- Reads the remaining tokens; every token takes a character. -/
def run : (fuel : Nat) → Scanner → Except Error (List Token)
  | 0, s => s.finish
  | fuel + 1, s => do
    let s ← s.skipGap.lapseKeys
    match s.cursor.chars with
    | [] => s.finish
    | c :: rest =>
      let s ← (s.closeBlocks (some s.cursor.place.column)).token c rest
      run fuel s

end Scanner

/-- The tokens of a prepared text. -/
def Token.scan (chars : List Char) : Except Error (List Token) :=
  (Scanner.start chars).run (chars.length + 1)

end PulseHits.Yaml
