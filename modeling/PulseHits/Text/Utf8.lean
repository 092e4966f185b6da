import PulseHits.Bytes

/-!
# UTF-8

Reading text from bytes, one character at a time. Bytes that encode no character are set off as the
longest runs that could still have become one, so that text can be read strictly or with each such
run replaced.
-/

namespace PulseHits.Text.Utf8

/-- How a character that starts with a given byte goes on: the number of bytes to follow, the range
of the first of them, and the bits of the code point in the first byte. -/
structure Lead where
  following : Nat
  low : UInt8
  high : UInt8
  bits : Nat

def lead? (b : UInt8) : Option Lead :=
  if b < 0x80 then some ⟨0, 0x80, 0xbf, b.toNat⟩
  else if 0xc2 ≤ b ∧ b ≤ 0xdf then some ⟨1, 0x80, 0xbf, b.toNat - 0xc0⟩
  else if b = 0xe0 then some ⟨2, 0xa0, 0xbf, 0⟩
  else if b = 0xed then some ⟨2, 0x80, 0x9f, 0xd⟩
  else if 0xe1 ≤ b ∧ b ≤ 0xef then some ⟨2, 0x80, 0xbf, b.toNat - 0xe0⟩
  else if b = 0xf0 then some ⟨3, 0x90, 0xbf, 0⟩
  else if 0xf1 ≤ b ∧ b ≤ 0xf3 then some ⟨3, 0x80, 0xbf, b.toNat - 0xf0⟩
  else if b = 0xf4 then some ⟨3, 0x80, 0x8f, 4⟩
  else none

/-- Reads the rest of a character. `none` stands for bytes that encode no character. -/
def continue? (following : Nat) (low high : UInt8) (bits : Nat) :
    (rest : Bytes) → Option Char × Bytes
  | rest =>
    match following, rest with
    | 0, rest => (some (Char.ofNat bits), rest)
    | n + 1, b :: rest =>
      if low ≤ b ∧ b ≤ high then
        continue? n 0x80 0xbf (64 * bits + (b.toNat - 0x80)) rest
      else (none, b :: rest)
    | _ + 1, [] => (none, [])

theorem length_continue?_le (following : Nat) (low high : UInt8) (bits : Nat) (rest : Bytes) :
    (continue? following low high bits rest).2.length ≤ rest.length := by
  induction following generalizing low high bits rest with
  | zero => cases rest <;> simp [continue?]
  | succ n ih =>
    cases rest with
    | nil => simp [continue?]
    | cons b rest =>
      simp only [continue?]
      split
      · exact Nat.le_succ_of_le (ih _ _ _ rest)
      · exact Nat.le_refl _

/-- The characters of a byte string; `none` for every run that encodes none. -/
def chars : Bytes → List (Option Char)
  | [] => []
  | b :: rest =>
    match lead? b with
    | none => none :: chars rest
    | some l =>
      have := length_continue?_le l.following l.low l.high l.bits rest
      let next := continue? l.following l.low l.high l.bits rest
      next.1 :: chars next.2
termination_by b => b.length
decreasing_by all_goals (simp only [List.length_cons]; omega)

/-- The text that a byte string encodes, if it encodes one. -/
def decode? (b : Bytes) : Option String :=
  ((chars b).mapM id).map String.ofList

/-- The text of a byte string, with the replacement character for each run that encodes none. -/
def decodeLossy (b : Bytes) : String :=
  String.ofList ((chars b).map (·.getD '\ufffd'))

def encode (s : String) : Bytes :=
  s.toUTF8.toList

end PulseHits.Text.Utf8
