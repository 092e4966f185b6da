import PulseHits.Bytes
import PulseHits.Text.Hex
import PulseHits.Yaml.Chars
import PulseHits.Yaml.Error

/-!
# Tags

A tag is a string of bytes. It is written with plain characters, each of which is a byte, and with
`%` escapes of single bytes. Escaped bytes have to come in groups shaped like the UTF-8 encoding of
a character, but a group need not encode any. A tag ends in front of its first zero byte.
-/

namespace PulseHits.Yaml

abbrev Tag := Bytes

namespace Tag

/-- The tag that is written with plain characters alone. -/
def ofChars (chars : List Char) : Tag :=
  chars.map fun c => c.toNat.toUInt8

/-- What written bytes are as a tag. -/
def ofWritten (b : Bytes) : Tag :=
  b.takeWhile (· != 0)

theorem zero_notMem_ofWritten (b : Bytes) : 0 ∉ ofWritten b := by
  intro h
  have := List.all_takeWhile (p := (· != (0 : UInt8))) (l := b)
  simpa using List.all_eq_true.1 this 0 h

/-! ## Escapes -/

/-- The number of bytes in the group that a byte starts. -/
def groupSize? (first : UInt8) : Option Nat :=
  if first < 0x80 then some 1
  else if first < 0xc0 then none
  else if first < 0xe0 then some 2
  else if first < 0xf0 then some 3
  else if first < 0xf8 then some 4
  else none

/-- Whether a byte can stand in a group behind its first one. -/
def continuesGroup (b : UInt8) : Bool :=
  0x80 ≤ b && b < 0xc0

/-- Reads an escaped byte. -/
def scanByte (c : Cursor) : Except Error (UInt8 × Cursor) :=
  match c.chars with
  | '%' :: a :: b :: _ =>
    match Text.hexValue? a, Text.hexValue? b with
    | some x, some y => .ok ((16 * x + y).toUInt8, c.forward 3)
    | _, _ => .error .badName
  | _ => .error .badName

/-- Reads `count` escaped bytes that continue a group. -/
def scanContinuation : (count : Nat) → Cursor → Except Error (Bytes × Cursor)
  | 0, c => .ok ([], c)
  | n + 1, c => do
    let (b, c) ← scanByte c
    if !continuesGroup b then throw .badName
    let (rest, c) ← scanContinuation n c
    return (b :: rest, c)

/-- Reads a group of escaped bytes. -/
def scanGroup (c : Cursor) : Except Error (Bytes × Cursor) := do
  let (first, c) ← scanByte c
  match groupSize? first with
  | none => throw .badName
  | some size =>
    let (rest, c) ← scanContinuation (size - 1) c
    return (first :: rest, c)

/-! ## Texts and handles -/

/-- The characters that can be written plain, more of them inside angle brackets. -/
def isPlain (verbatim : Bool) (c : Char) : Bool :=
  isWord c || [';', '/', '?', ':', '@', '&', '=', '+', '$', '.', '!', '~', '*', '\x27', '(',
    ')'].contains c || (verbatim && (c == ',' || c == '[' || c == ']'))

/-- Reads the bytes written at the front, after those in `text`, latest byte first. -/
def scanTextFrom (verbatim : Bool) :
    (fuel : Nat) → Cursor → (text : Bytes) → Except Error (Bytes × Cursor)
  | 0, c, text => .ok (text.reverse, c)
  | fuel + 1, c, text =>
    match c.chars with
    | [] => .ok (text.reverse, c)
    | x :: _ =>
      if x == '%' then do
        let (group, c) ← scanGroup c
        scanTextFrom verbatim fuel c (group.reverse ++ text)
      else if isPlain verbatim x then
        scanTextFrom verbatim fuel c.next (x.toNat.toUInt8 :: text)
      else .ok (text.reverse, c)

def scanText (verbatim : Bool) (c : Cursor) : Except Error (Bytes × Cursor) :=
  scanTextFrom verbatim (c.chars.length + 1) c []

/-- A handle: `!`, word characters and perhaps a second `!`. -/
def scanHandle (c : Cursor) : List Char × Cursor :=
  match c.chars with
  | '!' :: rest =>
    let word := rest.takeWhile isWord
    let handle := '!' :: word
    if (rest.drop word.length).head? == some '!' then
      (handle ++ ['!'], c.forward (handle.length + 1))
    else (handle, c.forward handle.length)
  | _ => ([], c)

/-- Whether a handle has both its marks, so that a text follows it. -/
def isNamedHandle (handle : List Char) : Bool :=
  1 < handle.length && handle.getLast? == some '!'

end Tag

end PulseHits.Yaml
