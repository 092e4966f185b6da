import PulseHits.Proofs.Yaml.Names

/-!
# What a character starts

What a character starts depends on little: where it stands, whether a flow collection is open, and
what follows it (`startOf`). So the scanner takes a token in two parts, what it is and what it does
(`token_eq`), and what a token of its own text reads as is the same within a longer text
(`Word.read_within`).
-/

namespace PulseHits.Yaml

/-! ## What a character starts -/

/-- A token that is written with characters of its own. -/
inductive Word where
  | alias
  | anchor
  | tag
  | quoted (double : Bool)
  | plain
  | block (folded : Bool)
  deriving DecidableEq, Repr

/-- A token that has been read, with the text behind it and whether a key may start there. -/
structure Lexeme where
  token : Token
  rest : Cursor
  keyAllowed : Bool

def Scanned.lexeme (style : Style) (r : Scanned) : Lexeme :=
  ⟨.scalar style r.text, r.rest, r.afterBreak⟩

namespace Word

def isBlock : Word → Bool
  | .block _ => true
  | _ => false

/-- Reads a word; `least` is the least column of further lines. -/
def read (w : Word) (inFlow : Bool) (least : Nat) (c : Cursor) : Except Error Lexeme :=
  match w with
  | .alias => (Scanner.scanAnchorName c).map fun (name, rest) => ⟨.alias name, rest, false⟩
  | .anchor => (Scanner.scanAnchorName c).map fun (name, rest) => ⟨.anchor name, rest, false⟩
  | .tag => (Scanner.scanTag inFlow c).map fun (t, rest) => ⟨t, rest, false⟩
  | .quoted double =>
    (scanQuoted double c).map (·.lexeme (if double then .doubleQuoted else .singleQuoted))
  | .plain => (scanPlain inFlow least c).map (·.lexeme .plain)
  | .block folded => (scanBlock folded least c).map (·.lexeme (if folded then .folded else .literal))

end Word

/-- What can stand in front of the cursor. -/
inductive Start where
  | directive
  | documentMark (begins : Bool)
  | openFlow (mapping : Bool)
  | closeFlow (mapping : Bool)
  | comma
  | word (w : Word)
  /-- An entry of a sequence or an explicit key. -/
  | entry (mapping : Bool)
  | colon
  deriving DecidableEq, Repr

/-- What the indicators start that stand for themselves. -/
def indicator? : Char → Option Start
  | '[' => some (.openFlow false)
  | '{' => some (.openFlow true)
  | ']' => some (.closeFlow false)
  | '}' => some (.closeFlow true)
  | ',' => some .comma
  | '*' => some (.word .alias)
  | '&' => some (.word .anchor)
  | '!' => some (.word .tag)
  | '\x27' => some (.word (.quoted false))
  | '"' => some (.word (.quoted true))
  | _ => none

/-- What `c` in front of `rest` starts, in the given column. -/
def startOf (inFlow : Bool) (column : Nat) (c : Char) (rest : List Char) : Option Start :=
  let gapAfter := startsWithGap rest
  if column == 0 && c == '%' then some .directive
  else if column == 0 && startsWithMark '-' (c :: rest) then some (.documentMark true)
  else if column == 0 && startsWithMark '.' (c :: rest) then some (.documentMark false)
  else if (indicator? c).isSome then indicator? c
  else if c == '-' && gapAfter then some (.entry false)
  else if c == '?' && (inFlow || gapAfter) then some (.entry true)
  else if c == ':' && (inFlow || gapAfter) then some .colon
  else if c == '|' && !inFlow then some (.word (.block false))
  else if c == '>' && !inFlow then some (.word (.block true))
  else if Scanner.startsPlain inFlow c rest then some (.word .plain)
  else none

namespace Scanner

/-- Adds a token that has been read. -/
def add (s : Scanner) (l : Lexeme) : Scanner :=
  { s with cursor := l.rest, tokens := l.token :: s.tokens, keyAllowed := l.keyAllowed }

/-- Does what stands in front of the cursor. -/
def perform (s : Scanner) : Start → Except Error Scanner
  | .directive => do
    let s ← s.closeDocument
    let (t, cursor) ← scanDirective s.cursor
    return { s with cursor }.push t
  | .documentMark begins => do
    return (← s.closeDocument).take 3 (if begins then .documentStart else .documentEnd)
  | .openFlow mapping => s.openFlow (if mapping then .flowMappingStart else .flowSequenceStart)
  | .closeFlow mapping => s.closeFlow (if mapping then .flowMappingEnd else .flowSequenceEnd)
  | .comma => do return ((← s.dropKey).setKeyAllowed true).take 1 .flowEntry
  | .word w =>
    (if w.isBlock then s.dropKey else s.saveKey) >>= fun s =>
      (w.read s.inFlow s.least s.cursor).map s.add
  | .entry true => s.entry .blockMappingStart .key !s.inFlow
  | .entry false => s.entry .blockSequenceStart .blockEntry true
  | .colon => s.colon

/-- Two results of a step are the same if they are so wherever the first part succeeds. -/
theorem bind_congr {α β : Type} {a? : Except Error α} {f g : α → Except Error β}
    (h : ∀ a, f a = g a) : (a? >>= f) = (a? >>= g) := by
  rw [funext h]

theorem name_eq (s : Scanner) (f : List Char → Token) :
    (s.saveKey >>= fun s => scanAnchorName s.cursor >>= fun p =>
        .ok (({ s with cursor := p.2 }.setKeyAllowed false).push (f p.1))) =
      s.saveKey >>= fun s =>
        ((scanAnchorName s.cursor).map fun p => ⟨f p.1, p.2, false⟩).map s.add := by
  refine bind_congr fun s => ?_
  cases scanAnchorName s.cursor <;> rfl

theorem quoted_eq (s : Scanner) (double : Bool) :
    s.quoted double = s.perform (.word (.quoted double)) := by
  refine bind_congr fun s => ?_
  simp only [Word.read]
  cases scanQuoted double s.cursor <;> rfl

theorem block_eq (s : Scanner) (folded : Bool) :
    s.block folded = s.perform (.word (.block folded)) := by
  refine bind_congr fun s => ?_
  simp only [Word.read]
  cases scanBlock folded s.least s.cursor <;> rfl

theorem plain_eq (s : Scanner) : s.plain = s.perform (.word .plain) := by
  refine bind_congr fun s => ?_
  simp only [Word.read]
  cases scanPlain s.inFlow s.least s.cursor <;> rfl

theorem token_eq (s : Scanner) (c : Char) (rest : List Char) :
    s.token c rest =
      match startOf s.inFlow s.cursor.place.column c rest with
      | some k => s.perform k
      | none => .error (.unexpectedCharacter s.cursor.place.line s.cursor.place.column) := by
  unfold token startOf
  simp only
  split
  · rfl
  split
  · rfl
  split
  · rfl
  split
  · rfl
  · rfl
  · rfl
  · rfl
  · rfl
  · exact name_eq s .alias
  · exact name_eq s .anchor
  · refine bind_congr fun s => ?_
    simp only [Word.read]
    cases scanTag s.inFlow s.cursor <;> rfl
  · exact quoted_eq s false
  · exact quoted_eq s true
  · have hnone : indicator? c = none := by
      unfold indicator?
      split <;> first | rfl | contradiction
    rw [hnone]
    simp only [Option.isSome_none, Bool.false_eq_true, if_false]
    split
    · rfl
    split
    · rfl
    split
    · rfl
    split
    · exact block_eq s false
    split
    · exact block_eq s true
    split
    · exact plain_eq s
    · rfl

end Scanner

/-! ## Starts and words of whole lines -/

section lines
variable {x : Surroundings} {inFlow : Bool} {column : Nat} {c : Char} {rest : List Char}

theorem startOf_append (hc : isBreak c = false) (hlines : wholeLines (c :: rest) = true)
    (behind : List Char) :
    startOf inFlow column c (rest ++ behind) = startOf inFlow column c rest := by
  have hline := inLine_of_wholeLines hlines (List.cons_ne_nil c rest)
  have hne := ne_nil_of_inLine (inLine_tail hlines hc)
  have hplain : Scanner.startsPlain inFlow c (rest ++ behind) =
      Scanner.startsPlain inFlow c rest := by
    unfold Scanner.startsPlain
    rw [head?_append_of_ne_nil hne, startsWithGap_append hne]
  unfold startOf
  rw [← List.cons_append, startsWithMark_append rfl hline, startsWithMark_append rfl hline,
    startsWithGap_append hne, hplain]

/-- How a word is told from all else that a character may start. -/
inductive StartsWord (inFlow : Bool) (column : Nat) (c : Char) (rest : List Char) : Word → Prop where
  | indicator {w : Word} (indicator : indicator? c = some (.word w)) :
    StartsWord inFlow column c rest w
  | block {folded : Bool} (flow : inFlow = false) :
    StartsWord inFlow column c rest (.block folded)
  | plain (mark : (column == 0 && startsWithDocumentMark (c :: rest)) = false)
    (indicator : (indicator? c).isSome = false)
    (colon : (c == ':' && (inFlow || startsWithGap rest)) = false)
    (starts : Scanner.startsPlain inFlow c rest = true) : StartsWord inFlow column c rest .plain

theorem startsWord_of_startOf {w : Word} (h : startOf inFlow column c rest = some (.word w)) :
    StartsWord inFlow column c rest w := by
  unfold startOf at h
  simp only at h
  split at h
  · cases h
  split at h
  · cases h
  next hstart =>
  split at h
  · cases h
  next hend =>
  split at h
  · exact .indicator h
  next hindicator =>
  split at h
  · cases h
  split at h
  · cases h
  split at h
  · cases h
  next hcolon =>
  split at h
  · next hbar =>
    cases h
    exact .block (by simpa using (Bool.and_eq_true_iff.mp hbar).2)
  split at h
  · next hangle =>
    cases h
    exact .block (by simpa using (Bool.and_eq_true_iff.mp hangle).2)
  split at h
  · next hplain =>
    cases h
    refine .plain ?_ (by simpa using hindicator) (by simpa using hcolon) hplain
    rw [startsWithDocumentMark, Bool.and_or_distrib_left, Bool.or_eq_false_iff]
    exact ⟨by simpa using hstart, by simpa using hend⟩
  · cases h

theorem of_indicator? {w : Word} (h : indicator? c = some (.word w)) :
    w ≠ .plain ∧ w.isBlock = false := by
  unfold indicator? at h
  split at h <;> cases h <;> exact ⟨nofun, rfl⟩

theorem isBlock_of_startOf {w : Word} (h : startOf inFlow column c rest = some (.word w))
    (hflow : inFlow = true) : w.isBlock = false := by
  cases startsWord_of_startOf h with
  | indicator hindicator => exact (of_indicator? hindicator).2
  | block hblock =>
    rw [hflow] at hblock
    cases hblock
  | plain => rfl

theorem isFlowIndicator_of_indicator? (h : (indicator? c).isSome = false) :
    isFlowIndicator c = false := by
  simp only [isFlowIndicator, Bool.or_eq_false_iff, beq_eq_false_iff_ne]
  refine ⟨⟨⟨⟨?_, ?_⟩, ?_⟩, ?_⟩, ?_⟩ <;>
  · rintro rfl
    cases h

theorem isGap_of_startsPlain (h : Scanner.startsPlain inFlow c rest = true) : isGap c = false := by
  simp only [Scanner.startsPlain, Bool.or_eq_true, Bool.and_eq_true, beq_iff_eq] at h
  rcases h with (h | h) | h
  · simp only [Bool.not_eq_true', Bool.or_eq_false_iff] at h
    exact h.1
  · rw [h.1]
    rfl
  · rcases h.1.2 with rfl | rfl <;> rfl

theorem of_startOf_plain (h : startOf inFlow column c rest = some (.word .plain)) :
    isBlank c = false ∧ isBreak c = false ∧ ∀ indent (place : Place), place.column = column →
      plainEnds inFlow indent c rest place .none = false := by
  cases startsWord_of_startOf h with
  | indicator hindicator => exact absurd rfl (of_indicator? hindicator).1
  | plain hmark hindicator hcolon hplain =>
    have hgap := isGap_of_startsPlain hplain
    simp only [isGap, Bool.or_eq_false_iff] at hgap
    refine ⟨hgap.1, hgap.2, fun indent place hplace => ?_⟩
    have hflow := isFlowIndicator_of_indicator? hindicator
    have hkey : (c == ':' && startsWithGap rest) = false := by
      rw [Bool.and_or_distrib_left, Bool.or_eq_false_iff] at hcolon
      exact hcolon.2
    rw [← hplace] at hmark
    simp [plainEnds, hmark, hkey, hflow, Fold.hasBreak]

def Lexeme.within (x : Surroundings) (l : Lexeme) : Lexeme :=
  { l with rest := l.rest.within x }

theorem map_eq_ok {α β : Type} {a? : Except Error α} {f : α → β} {b : β} :
    a?.map f = .ok b ↔ ∃ a, a? = .ok a ∧ f a = b := by
  cases a? with
  | error e => simp [Except.map]
  | ok a => simp [Except.map]

/-- All words but plain and block scalars have an indicator that stands for itself. -/
theorem indicator?_of_startOf {w : Word} (h : startOf inFlow column c rest = some (.word w))
    (hplain : w ≠ .plain) (hblock : w.isBlock = false) : indicator? c = some (.word w) := by
  cases startsWord_of_startOf h with
  | indicator hindicator => exact hindicator
  | block => cases hblock
  | plain => exact absurd rfl hplain

theorem of_startOf_tag (h : startOf inFlow column c rest = some (.word .tag)) : c = '!' := by
  have hindicator := indicator?_of_startOf h nofun rfl
  unfold indicator? at hindicator
  split at hindicator <;> first | rfl | cases hindicator

theorem Word.token_ne_blockEnd {w : Word} {least : Nat} {d : Cursor} {l : Lexeme}
    (h : w.read inFlow least d = .ok l) : l.token ≠ .blockEnd := by
  cases w with
  | tag =>
    obtain ⟨⟨t, d'⟩, htag, rfl⟩ := map_eq_ok.mp h
    obtain ⟨handle, suffix, rfl⟩ := Scanner.exists_of_scanTag htag
    nofun
  | _ =>
    obtain ⟨r, -, rfl⟩ := map_eq_ok.mp h
    nofun

theorem Word.reaches {w : Word} {least : Nat} {d : Cursor} {l : Lexeme}
    (hlines : wholeLines d.chars = true) (hd : d.chars = c :: rest) (hc : isBreak c = false)
    (hstart : startOf inFlow d.place.column c rest = some (.word w))
    (h : w.read inFlow least d = .ok l) :
    d.Reaches l.rest ∧ l.rest.chars.length < d.chars.length := by
  obtain ⟨-, hnext, hline⟩ := Scanner.next_within (x := ⟨0, 0, [], []⟩) hd hc hlines
  have hline' := inLine_of_wholeLines hlines (hd ▸ List.cons_ne_nil c rest)
  have hlength : d.next.chars.length < d.chars.length := by
    simp [Cursor.next, hd]
  -- what a word ends with is behind its first character
  suffices hrest : w ≠ .tag → d.next.Reaches l.rest by
    by_cases hw : w = .tag
    · subst hw
      obtain ⟨⟨t, d'⟩, htag, rfl⟩ := map_eq_ok.mp h
      obtain rfl := of_startOf_tag hstart
      exact ⟨(Scanner.staysInLine_scanTag inFlow ⟨0, 0, [], []⟩ d t d' hline' htag).2.1,
        Scanner.length_of_scanTag hline' hd htag⟩
    · exact ⟨hnext.trans (hrest hw), Nat.lt_of_le_of_lt (hrest hw).length_le hlength⟩
  intro hw
  cases w with
  | tag => exact absurd rfl hw
  | «alias» =>
    obtain ⟨⟨name, d'⟩, hname, rfl⟩ := map_eq_ok.mp h
    exact (Scanner.scanAnchorName_within (x := ⟨0, 0, [], []⟩) hlines hd hc hname).2.1
  | anchor =>
    obtain ⟨⟨name, d'⟩, hname, rfl⟩ := map_eq_ok.mp h
    exact (Scanner.scanAnchorName_within (x := ⟨0, 0, [], []⟩) hlines hd hc hname).2.1
  | quoted double =>
    obtain ⟨r, hr, rfl⟩ := map_eq_ok.mp h
    have hr : quotedFrom double d.next.chars d.next.place .text [] .none = .ok r := hr
    have hmode : QuotedMode.text = .quote → d.next.chars ≠ [] := fun h => by cases h
    exact (quotedFrom_within (x := ⟨0, 0, [], []⟩) (wholeLines_of_inLine hline) hmode hr).2.1
  | plain =>
    obtain ⟨r, hr, rfl⟩ := map_eq_ok.mp h
    obtain ⟨hblank, hbreak, hends⟩ := of_startOf_plain hstart
    obtain ⟨chars, place⟩ := d
    simp only at hd
    subst hd
    rw [scanPlain, plainFrom, hblank, hbreak, hends least place rfl] at hr
    simp only [Bool.false_eq_true, if_false] at hr
    split at hr
    · cases hr
    · exact plainFrom_reaches hr
  | block folded =>
    obtain ⟨r, hr, rfl⟩ := map_eq_ok.mp h
    exact (scanBlock_within (x := ⟨0, 0, [], []⟩) rfl hlines hd hc hr).2.1

theorem Word.read_within {w : Word} {least : Nat} {d : Cursor} {l : Lexeme}
    (hbehind : startsLine x.behind = true) (hleast : 0 < least)
    (hlines : wholeLines d.chars = true) (hd : d.chars = c :: rest) (hc : isBreak c = false)
    (h : w.read inFlow least d = .ok l) (hflow : l.rest.chars = [] → inFlow = false) :
    w.read inFlow least (d.within x) = .ok (l.within x) ∧
      (l.rest.chars = [] → l.keyAllowed = true) := by
  have hline := inLine_of_wholeLines hlines (hd ▸ List.cons_ne_nil c rest)
  cases w with
  | «alias» =>
    obtain ⟨⟨name, d'⟩, hname, rfl⟩ := map_eq_ok.mp h
    obtain ⟨hwithin, -, hline'⟩ := Scanner.scanAnchorName_within (x := x) hlines hd hc hname
    refine ⟨map_eq_ok.mpr ⟨_, hwithin, rfl⟩, fun hnil => absurd hnil (ne_nil_of_inLine hline')⟩
  | anchor =>
    obtain ⟨⟨name, d'⟩, hname, rfl⟩ := map_eq_ok.mp h
    obtain ⟨hwithin, -, hline'⟩ := Scanner.scanAnchorName_within (x := x) hlines hd hc hname
    refine ⟨map_eq_ok.mpr ⟨_, hwithin, rfl⟩, fun hnil => absurd hnil (ne_nil_of_inLine hline')⟩
  | tag =>
    obtain ⟨⟨t, d'⟩, htag, rfl⟩ := map_eq_ok.mp h
    obtain ⟨hwithin, -, hline'⟩ := Scanner.staysInLine_scanTag inFlow x d t d' hline htag
    refine ⟨map_eq_ok.mpr ⟨_, hwithin, rfl⟩, fun hnil => absurd hnil (ne_nil_of_inLine hline')⟩
  | quoted double =>
    obtain ⟨r, hr, rfl⟩ := map_eq_ok.mp h
    have hr : quotedFrom double d.next.chars d.next.place .text [] .none = .ok r := hr
    obtain ⟨hnext, -, hnextLine⟩ := Scanner.next_within (x := x) hd hc hlines
    obtain ⟨hwithin, -, hne, -⟩ :=
      quotedFrom_within (x := x) (wholeLines_of_inLine hnextLine) (by nofun) hr
    refine ⟨map_eq_ok.mpr ⟨r.within x, ?_, rfl⟩, fun hnil => absurd hnil hne⟩
    rw [scanQuoted, hnext]
    exact hwithin
  | plain =>
    obtain ⟨r, hr, rfl⟩ := map_eq_ok.mp h
    obtain ⟨hwithin, hallowed⟩ := plainFrom_within hbehind hleast hlines
      (fun hnil => absurd (hd.symm.trans hnil) (List.cons_ne_nil c rest)) hr hflow
    exact ⟨map_eq_ok.mpr ⟨_, hwithin, rfl⟩, hallowed⟩
  | block folded =>
    obtain ⟨r, hr, rfl⟩ := map_eq_ok.mp h
    obtain ⟨hwithin, -, hallowed⟩ := scanBlock_within hbehind hlines hd hc hr
    exact ⟨map_eq_ok.mpr ⟨_, hwithin, rfl⟩, fun _ => hallowed⟩

end lines

end PulseHits.Yaml
