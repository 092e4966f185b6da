import Mathlib.Algebra.Ring.Nat
import PulseHits.Proofs.Yaml.Plain

/-!
# Quoted scalars that are written

Any text at all can be written between double quotes (`scanQuoted_doubleQuoted`). Between single
quotes a text keeps its breaks, each with an indentation behind it that is not read
(`scanQuoted_singleQuoted`).
-/

namespace PulseHits.Yaml

/-! ## Characters of quoted scalars -/

section characters
variable {double : Bool} {c : Char} {rest acc : List Char} {place : Place} {fold : Fold}

theorem quotedFrom_blank (hc : isBlank c = true) :
    quotedFrom double (c :: rest) place .text acc fold =
      quotedFrom double rest (place.after c) .text acc (fold.addBlank c) := by
  rw [quotedFrom_text, if_pos hc]

theorem quotedFrom_break (hc : isBreak c = true) :
    quotedFrom double (c :: rest) place .text acc fold =
      quotedFrom double rest (place.after c) .text acc (fold.addBreak c) := by
  rw [quotedFrom_text, if_neg (by simp [isBlank_of_isBreak hc]), if_pos hc]

theorem quotedFrom_visible (hblank : isBlank c = false) (hbreak : isBreak c = false)
    (hcolumn : place.column ≠ 0) :
    quotedFrom double (c :: rest) place .text acc fold =
      if double && c == '"' then
        .ok ⟨(fold.chars ++ acc).reverse, ⟨rest, place.after c⟩, false⟩
      else if double && c == '\\' then
        quotedFrom double rest (place.after c) .escape (fold.chars ++ acc) .none
      else if !double && c == '\x27' then
        quotedFrom double rest (place.after c) .quote (fold.chars ++ acc) .none
      else quotedFrom double rest (place.after c) .text (c :: (fold.chars ++ acc)) .none := by
  rw [quotedFrom_text]
  simp [hblank, hbreak, hcolumn]

end characters

/-! ## Double quotes -/

section doubleQuoted
variable {c : Char} {place : Place} {fold : Fold}

theorem of_escapeLetter? {e : Char} (h : escapeLetter? c = some e) :
    escapeOf? e = some c ∧ isBreak e = false := by
  unfold escapeLetter? at h
  split at h <;> cases h <;> exact ⟨rfl, rfl⟩

theorem hexValue?_hexDigitUpper {n : Nat} (h : n < 16) :
    Text.hexValue? (Text.hexDigitUpper n) = some n := by
  have hall : ∀ n < 16, Text.hexValue? (Text.hexDigitUpper n) = some n := by decide
  exact hall n h

theorem isBreak_hexDigitUpper {n : Nat} (h : n < 16) : isBreak (Text.hexDigitUpper n) = false := by
  have hall : ∀ n < 16, isBreak (Text.hexDigitUpper n) = false := by decide
  exact hall n h

theorem quotedFrom_digits (width n left : Nat) {value : Nat} (rest acc : List Char) (fold : Fold)
    (hn : n < 16 ^ width) (hleft : 0 < left) (hcolumn : place.column ≠ 0) :
    ∃ place' : Place, place'.column ≠ 0 ∧
      quotedFrom true (Text.hexFixed Text.hexDigitUpper width n ++ rest) place
          (.code (width + left) value) acc fold =
        quotedFrom true rest place' (.code left (16 ^ width * value + n)) acc fold := by
  induction width generalizing n left rest with
  | zero =>
    obtain rfl : n = 0 := by simpa using hn
    exact ⟨place, hcolumn, by simp [Text.hexFixed]⟩
  | succ width ih =>
    have hdigit : n % 16 < 16 := Nat.mod_lt n (by decide)
    obtain ⟨place', hcolumn', heq⟩ := ih (n / 16) (left + 1) (Text.hexDigitUpper (n % 16) :: rest)
      (by rw [Nat.pow_succ] at hn; omega) (Nat.succ_pos _)
    refine ⟨place'.after (Text.hexDigitUpper (n % 16)),
      place'.column_after_ne_zero (isBreak_hexDigitUpper hdigit), ?_⟩
    rw [Text.hexFixed, List.append_assoc, List.singleton_append,
      show width + 1 + left = width + (left + 1) by omega, heq, quotedFrom_code,
      hexValue?_hexDigitUpper hdigit]
    dsimp only
    rw [if_neg (by omega)]
    have hvalue : 16 * (16 ^ width * value + n / 16) + n % 16 = 16 ^ (width + 1) * value + n := by
      have hpow : 16 ^ width * 16 * value = 16 * (16 ^ width * value) := by
        rw [Nat.mul_right_comm, Nat.mul_comm]
      rw [Nat.pow_succ, hpow]
      omega
    rw [hvalue]
    rfl

theorem quotedFrom_hexFixed {width : Nat} (rest acc : List Char) (hwidth : 0 < width)
    (hc : c.toNat < 16 ^ width)
    (hcolumn : place.column ≠ 0) :
    ∃ place' : Place, place'.column ≠ 0 ∧
      quotedFrom true (Text.hexFixed Text.hexDigitUpper width c.toNat ++ rest) place
          (.code width 0) acc fold =
        quotedFrom true rest place' .text (c :: acc) fold := by
  obtain ⟨width, rfl⟩ := Nat.exists_eq_succ_of_ne_zero (Nat.ne_of_gt hwidth)
  have hdigit : c.toNat % 16 < 16 := Nat.mod_lt _ (by decide)
  obtain ⟨place', -, heq⟩ := quotedFrom_digits width (c.toNat / 16) 1
    (Text.hexDigitUpper (c.toNat % 16) :: rest) acc fold (by rw [Nat.pow_succ] at hc; omega)
    Nat.one_pos hcolumn
  refine ⟨place'.after (Text.hexDigitUpper (c.toNat % 16)),
    place'.column_after_ne_zero (isBreak_hexDigitUpper hdigit), ?_⟩
  rw [Text.hexFixed, List.append_assoc, List.singleton_append, heq, quotedFrom_code,
    hexValue?_hexDigitUpper hdigit]
  have hvalid : c.toNat.isValidChar := c.valid
  dsimp only
  generalize hvalue : 16 * (16 ^ width * 0 + c.toNat / 16) + c.toNat % 16 = value
  obtain rfl : value = c.toNat := by omega
  rw [if_pos (Nat.le_refl 1), dif_pos hvalid]
  rfl

/-- Characters that read as one character, whatever stands behind them. -/
def GivesChar (chars rest acc : List Char) (place : Place) (fold : Fold) (c : Char) : Prop :=
  ∃ (place' : Place) (acc' : List Char) (fold' : Fold), place'.column ≠ 0 ∧
    fold'.hasBreak = false ∧ fold'.chars ++ acc' = c :: (fold.chars ++ acc) ∧
    quotedFrom true (chars ++ rest) place .text acc fold =
      quotedFrom true rest place' .text acc' fold'

section escaped
variable {rest acc : List Char}

theorem quotedFrom_backslash (hcolumn : place.column ≠ 0) :
    quotedFrom true ('\\' :: rest) place .text acc fold =
      quotedFrom true rest (place.after '\\') .escape (fold.chars ++ acc) .none :=
  quotedFrom_visible rfl rfl hcolumn

theorem givesChar_letter {e : Char} (hletter : escapeLetter? c = some e)
    (hcolumn : place.column ≠ 0) : GivesChar ['\\', e] rest acc place fold c := by
  obtain ⟨hescape, hbreak⟩ := of_escapeLetter? hletter
  refine ⟨(place.after '\\').after e, c :: (fold.chars ++ acc), .none,
    Place.column_after_ne_zero hbreak _, rfl, rfl, ?_⟩
  show quotedFrom true ('\\' :: e :: rest) _ _ _ _ = _
  rw [quotedFrom_backslash hcolumn, quotedFrom_escape, if_neg (by simp [hbreak]), hescape]

theorem givesChar_self (hletter : escapeLetter? c = none) (hbreak : isBreak c = false)
    (hcolumn : place.column ≠ 0) (hfold : fold.hasBreak = false) :
    GivesChar [c] rest acc place fold c := by
  have hafter := place.column_after_ne_zero hbreak
  by_cases hblank : isBlank c = true
  · obtain ⟨hchars, hnobreak⟩ := Fold.chars_addBlank hfold c
    exact ⟨place.after c, acc, fold.addBlank c, hafter, hnobreak, by rw [hchars]; rfl,
      quotedFrom_blank hblank⟩
  · have hquote : (c == '"') = false := by
      rw [beq_eq_false_iff_ne]
      rintro rfl
      cases hletter
    have hbackslash : (c == '\\') = false := by
      rw [beq_eq_false_iff_ne]
      rintro rfl
      cases hletter
    refine ⟨place.after c, c :: (fold.chars ++ acc), .none, hafter, rfl, rfl, ?_⟩
    show quotedFrom true (c :: rest) _ _ _ _ = _
    rw [quotedFrom_visible (by simpa using hblank) hbreak hcolumn, hquote, hbackslash]
    simp

theorem givesChar_code {letter : Char} {width : Nat} (hescape : escapeOf? letter = none)
    (hdigits : escapeDigits? letter = some width) (hbreak : isBreak letter = false)
    (hwidth : 0 < width) (hc : c.toNat < 16 ^ width) (hcolumn : place.column ≠ 0) :
    GivesChar ('\\' :: letter :: Text.hexFixed Text.hexDigitUpper width c.toNat) rest acc place
      fold c := by
  obtain ⟨place', hplace', heq⟩ := quotedFrom_hexFixed rest (fold.chars ++ acc) hwidth hc
    (Place.column_after_ne_zero hbreak (place.after '\\'))
  refine ⟨place', c :: (fold.chars ++ acc), .none, hplace', rfl, rfl, ?_⟩
  show quotedFrom true ('\\' :: letter :: (Text.hexFixed _ width c.toNat ++ rest)) _ _ _ _ = _
  rw [quotedFrom_backslash hcolumn, quotedFrom_escape, if_neg (by simp [hbreak]), hescape, hdigits]
  exact heq

theorem givesChar_escaped (hcolumn : place.column ≠ 0) (hfold : fold.hasBreak = false) :
    GivesChar (escaped c) rest acc place fold c := by
  unfold escaped
  cases hletter : escapeLetter? c with
  | some e => exact givesChar_letter hletter hcolumn
  | none =>
    simp only
    split
    · have hbreak : isBreak c = false :=
        isBreak_eq_false (fun c => (escapeLetter? c).isNone) rfl (by rw [hletter]; rfl)
      exact givesChar_self hletter hbreak hcolumn hfold
    -- the shortest of the three codes that has room for the character
    split
    · exact givesChar_code rfl rfl rfl (by decide) (by omega) hcolumn
    split
    · exact givesChar_code rfl rfl rfl (by decide) (by omega) hcolumn
    · exact givesChar_code rfl rfl rfl (by decide) c.val.toNat_lt hcolumn

end escaped

theorem quotedFrom_flatMap_escaped (text rest acc : List Char) (hcolumn : place.column ≠ 0)
    (hfold : fold.hasBreak = false) :
    ∃ place' : Place,
      quotedFrom true (text.flatMap escaped ++ '"' :: rest) place .text acc fold =
        .ok ⟨(fold.chars ++ acc).reverse ++ text, ⟨rest, place'⟩, false⟩ := by
  induction text generalizing place acc fold with
  | nil =>
    refine ⟨place.after '"', ?_⟩
    rw [List.flatMap_nil, List.nil_append, quotedFrom_visible rfl rfl hcolumn]
    simp
  | cons c text ih =>
    obtain ⟨place₁, acc₁, fold₁, hcolumn₁, hfold₁, hchars, hread⟩ : GivesChar (escaped c)
        (text.flatMap escaped ++ '"' :: rest) acc place fold c := givesChar_escaped hcolumn hfold
    obtain ⟨place', heq⟩ := ih acc₁ hcolumn₁ hfold₁
    refine ⟨place', ?_⟩
    rw [List.flatMap_cons, List.append_assoc, hread, heq, hchars]
    simp

theorem scanQuoted_doubleQuoted (text rest : List Char) (place : Place) :
    ∃ place' : Place, scanQuoted true ⟨doubleQuoted text ++ rest, place⟩ =
      .ok ⟨text, ⟨rest, place'⟩, false⟩ := by
  obtain ⟨place', heq⟩ := quotedFrom_flatMap_escaped text rest []
    (place.column_after_ne_zero (show isBreak '"' = false from rfl))
    (show Fold.none.hasBreak = false from rfl)
  refine ⟨place', ?_⟩
  rw [doubleQuoted, List.append_assoc, List.append_assoc]
  exact heq

end doubleQuoted

/-! ## Single quotes -/

section singleQuoted

/-- A quote is doubled between quotes. -/
def doubleQuote (c : Char) : List Char :=
  if c == '\x27' then [c, c] else [c]

theorem singleQuoted_eq (text : List Char) :
    singleQuoted text = '\x27' :: (indentLines false (text.flatMap doubleQuote) ++
      (if text.getLast?.any isBreak then valueIndent else []) ++ ['\x27']) := rfl

theorem indentLines_doubleQuote_break {c : Char} (hc : isBreak c = true) (lineStart : Bool)
    (text : List Char) :
    indentLines lineStart (doubleQuote c ++ text) = c :: indentLines true text := by
  have hquote : (c == '\x27') = false := by
    rw [beq_eq_false_iff_ne]
    rintro rfl
    cases hc
  simp [doubleQuote, hquote, indentLines, hc]

theorem indentLines_doubleQuote_visible {c : Char} (hc : isBreak c = false) (lineStart : Bool)
    (text : List Char) :
    indentLines lineStart (doubleQuote c ++ text) =
      (if lineStart then valueIndent else []) ++ (doubleQuote c ++ indentLines false text) := by
  unfold doubleQuote
  split <;> simp [indentLines, hc]

theorem Fold.chars_breaks {first : List Char} (h : first ≠ ['\n']) (more : List Char) :
    (Fold.breaks first more).chars = more ++ first := by
  unfold Fold.chars
  split
  · next heq => cases heq
  · next heq => cases heq
  · next heq =>
    cases heq
    exact absurd rfl h
  · next heq =>
    cases heq
    exact absurd rfl h
  · next heq =>
    cases heq
    rfl

theorem Fold.chars_addBreak {fold : Fold} {c : Char} (hc : c ≠ '\n')
    (hblanks : ∀ cs, fold ≠ .blanks cs) (hfirst : ∀ more, fold ≠ .breaks ['\n'] more) :
    (fold.addBreak c).chars = c :: fold.chars ∧ ∀ more, fold.addBreak c ≠ .breaks ['\n'] more := by
  cases fold with
  | none =>
    refine ⟨chars_breaks (by simpa using hc) [], ?_⟩
    rintro more ⟨⟩
    exact hc rfl
  | blanks cs => exact absurd rfl (hblanks cs)
  | breaks first more =>
    have hne : first ≠ ['\n'] := by
      rintro rfl
      exact hfirst more rfl
    refine ⟨?_, ?_⟩
    · rw [chars_breaks hne more]
      exact chars_breaks hne (c :: more)
    · rintro more' ⟨⟩
      exact hne rfl

theorem quotedFrom_doubleQuote {c : Char} {place : Place} (fold : Fold) (rest acc : List Char)
    (hblank : isBlank c = false) (hbreak : isBreak c = false) (hcolumn : place.column ≠ 0) :
    ∃ place' : Place, place'.column ≠ 0 ∧
      quotedFrom false (doubleQuote c ++ rest) place .text acc fold =
        quotedFrom false rest place' .text (c :: (fold.chars ++ acc)) .none := by
  have hafter := place.column_after_ne_zero hbreak
  unfold doubleQuote
  split
  · next hquote =>
    refine ⟨(place.after c).after c, Place.column_after_ne_zero hbreak _, ?_⟩
    show quotedFrom false (c :: c :: rest) _ _ _ _ = _
    rw [quotedFrom_visible hblank hbreak hcolumn]
    simp only [Bool.false_and, Bool.false_eq_true, if_false, Bool.not_false, Bool.true_and]
    rw [if_pos hquote, quotedFrom_quote, if_pos hquote]
  · next hquote =>
    refine ⟨place.after c, hafter, ?_⟩
    show quotedFrom false (c :: rest) _ _ _ _ = _
    rw [quotedFrom_visible hblank hbreak hcolumn]
    simp only [Bool.false_and, Bool.false_eq_true, if_false, Bool.not_false, Bool.true_and]
    rw [if_neg hquote]

theorem quotedFrom_valueIndent {place : Place} {fold : Fold} {rest acc : List Char}
    (hfold : fold.hasBreak = true) :
    ∃ place' : Place, place'.column ≠ 0 ∧
      quotedFrom false (valueIndent ++ rest) place .text acc fold =
        quotedFrom false rest place' .text acc fold := by
  have hsame : fold.addBlank ' ' = fold := by
    cases fold with
    | breaks first more => rfl
    | _ => cases hfold
  refine ⟨(place.after ' ').after ' ', Place.column_after_ne_zero rfl _, ?_⟩
  show quotedFrom false (' ' :: ' ' :: rest) _ _ _ _ = _
  rw [quotedFrom_blank rfl, hsame, quotedFrom_blank rfl, hsame]

/-- Where a quoted text stands between two characters. -/
structure Between (fold : Fold) (place : Place) (text : List Char) : Prop where
  column : fold.hasBreak = false → place.column ≠ 0
  feed : ∀ more, fold ≠ .breaks ['\n'] more
  /-- Blanks stand in front of no break. -/
  blanks : ∀ cs, fold = .blanks cs → text.head?.any isBreak = false
  /-- Behind a break there is no blank. -/
  breaks : fold.hasBreak = true → text.head?.any isSpace = false

theorem Between.ne_blanks {fold : Fold} {c : Char} {text : List Char} {place : Place}
    (h : Between fold place (c :: text)) (hbreak : isBreak c = true) : ∀ cs, fold ≠ .blanks cs := by
  intro cs hcs
  have hhead : isBreak c = false := h.blanks cs hcs
  rw [hbreak] at hhead
  cases hhead

theorem Between.hasBreak_eq_false {fold : Fold} {c : Char} {text : List Char} {place : Place}
    (h : Between fold place (c :: text)) (hspace : isSpace c = true) : fold.hasBreak = false := by
  cases hfold : fold.hasBreak with
  | false => rfl
  | true =>
    have hhead : isSpace c = false := h.breaks hfold
    rw [hspace] at hhead
    cases hhead

theorem Between.addBreak {fold : Fold} {c : Char} {text : List Char} {place' : Place}
    (hfeed : ∀ more, fold.addBreak c ≠ .breaks ['\n'] more)
    (hspace : text.head?.any isSpace = false) : Between (fold.addBreak c) place' text where
  column h := absurd h (by simp [Fold.hasBreak_addBreak])
  feed := hfeed
  blanks cs h := by
    have hbreak := fold.hasBreak_addBreak c
    rw [h] at hbreak
    cases hbreak
  breaks _ := hspace

theorem Between.addBlank {fold : Fold} {c : Char} {text : List Char} {place' : Place}
    (hfold : fold.hasBreak = false) (hcolumn : place'.column ≠ 0)
    (hbreak : text.head?.any isBreak = false) : Between (fold.addBlank c) place' text := by
  have hnobreak := (Fold.chars_addBlank hfold c).2
  refine ⟨fun _ => hcolumn, ?_, fun _ _ => hbreak, ?_⟩
  · intro more h
    rw [h] at hnobreak
    cases hnobreak
  · intro h
    rw [hnobreak] at h
    cases h

theorem Between.none {text : List Char} {place' : Place} (hcolumn : place'.column ≠ 0) :
    Between .none place' text :=
  ⟨fun _ => hcolumn, nofun, nofun, nofun⟩

/-- A text whose lines are indented between single quotes, read in front of the rest. -/
def ReadsIndented (text rest acc : List Char) (place : Place) (fold : Fold) : Prop :=
  ∃ (place' : Place) (acc' : List Char) (fold' : Fold),
    fold'.chars ++ acc' = text.reverse ++ (fold.chars ++ acc) ∧
    fold'.hasBreak = (text.getLast?.map isBreak).getD fold.hasBreak ∧
    (fold'.hasBreak = false → place'.column ≠ 0) ∧
    quotedFrom false (indentLines fold.hasBreak (text.flatMap doubleQuote) ++ rest) place .text
        acc fold =
      quotedFrom false rest place' .text acc' fold'

section indented
variable {c : Char} {text rest acc : List Char} {place : Place} {fold : Fold}

theorem ReadsIndented.nil (hcolumn : fold.hasBreak = false → place.column ≠ 0) :
    ReadsIndented [] rest acc place fold :=
  ⟨place, acc, fold, rfl, rfl, hcolumn, rfl⟩

/-- One character more in front, which leaves the text behind it in the state that is read on from. -/
theorem ReadsIndented.cons {acc₁ : List Char} {place₁ : Place} {fold₁ : Fold}
    (h : ReadsIndented text rest acc₁ place₁ fold₁)
    (hchars : fold₁.chars ++ acc₁ = c :: (fold.chars ++ acc)) (hbreak : fold₁.hasBreak = isBreak c)
    (hread : quotedFrom false (indentLines fold.hasBreak ((c :: text).flatMap doubleQuote) ++ rest)
        place .text acc fold =
      quotedFrom false (indentLines (isBreak c) (text.flatMap doubleQuote) ++ rest) place₁ .text
        acc₁ fold₁) : ReadsIndented (c :: text) rest acc place fold := by
  obtain ⟨place', acc', fold', heq, hlast, hcolumn, hrest⟩ := h
  rw [hbreak] at hlast hrest
  refine ⟨place', acc', fold', ?_, hlast.trans ?_, hcolumn, hread.trans hrest⟩
  · rw [heq, hchars]
    simp
  · cases text with
    | nil => rfl
    | cons d text => rw [List.getLast?_cons_cons, List.getLast?_cons]; rfl

theorem ReadsIndented.cons_break (hbreak : isBreak c = true) (hfeed : c ≠ '\n')
    (hbetween : Between fold place (c :: text))
    (h : ReadsIndented text rest acc (place.after c) (fold.addBreak c)) :
    ReadsIndented (c :: text) rest acc place fold := by
  refine h.cons ?_ ((fold.hasBreak_addBreak c).trans hbreak.symm) ?_
  · rw [(Fold.chars_addBreak hfeed (hbetween.ne_blanks hbreak) hbetween.feed).1]
    rfl
  · rw [List.flatMap_cons, indentLines_doubleQuote_break hbreak, List.cons_append,
      quotedFrom_break hbreak, hbreak]

theorem ReadsIndented.cons_space (hfold : fold.hasBreak = false)
    (h : ReadsIndented text rest acc (place.after ' ') (fold.addBlank ' ')) :
    ReadsIndented (' ' :: text) rest acc place fold := by
  obtain ⟨hchars, hnobreak⟩ := Fold.chars_addBlank hfold ' '
  refine h.cons (by rw [hchars]; rfl) hnobreak ?_
  rw [List.flatMap_cons, indentLines_doubleQuote_visible rfl, hfold, if_neg (by simp)]
  show quotedFrom false (' ' :: _) _ _ _ _ = _
  rw [quotedFrom_blank rfl]
  rfl

theorem ReadsIndented.cons_visible (hbreak : isBreak c = false) (hblank : isBlank c = false)
    (hcolumn : fold.hasBreak = false → place.column ≠ 0)
    (h : ∀ place₁ : Place, place₁.column ≠ 0 →
      ReadsIndented text rest (c :: (fold.chars ++ acc)) place₁ .none) :
    ReadsIndented (c :: text) rest acc place fold := by
  have hindent : ∀ chars, ∃ place₁ : Place, place₁.column ≠ 0 ∧
      quotedFrom false ((if fold.hasBreak then valueIndent else []) ++ chars) place .text acc fold =
        quotedFrom false chars place₁ .text acc fold := by
    intro chars
    cases hfold : fold.hasBreak with
    | false => exact ⟨place, hcolumn hfold, rfl⟩
    | true => exact quotedFrom_valueIndent hfold
  obtain ⟨place₁, hcolumn₁, hread₁⟩ := hindent (doubleQuote c ++
    indentLines false (text.flatMap doubleQuote) ++ rest)
  obtain ⟨place₂, hcolumn₂, hread₂⟩ := quotedFrom_doubleQuote fold
    (indentLines false (text.flatMap doubleQuote) ++ rest) acc hblank hbreak hcolumn₁
  refine (h place₂ hcolumn₂).cons rfl hbreak.symm ?_
  rw [List.flatMap_cons, indentLines_doubleQuote_visible hbreak, List.append_assoc, hread₁,
    List.append_assoc, hread₂, hbreak]

end indented

theorem readsIndented (text rest acc : List Char) {place : Place} {fold : Fold}
    (hprintable : ∀ c ∈ text, isPrintable c = true) (hfeed : '\n' ∉ text)
    (hblanks : hasPair isSpace isBreak text = false) (hbreaks : hasPair isBreak isSpace text = false)
    (hbetween : Between fold place text) : ReadsIndented text rest acc place fold := by
  induction text generalizing place acc fold with
  | nil => exact .nil hbetween.column
  | cons c text ih =>
    have htail := fun d hd => hprintable d (List.mem_cons_of_mem c hd)
    have hfeedTail : '\n' ∉ text := fun h => hfeed (List.mem_cons_of_mem c h)
    have ih : ∀ acc place fold, Between fold place text → ReadsIndented text rest acc place fold :=
      fun acc _ _ => ih acc htail hfeedTail (hasPair_tail hblanks) (hasPair_tail hbreaks)
    by_cases hbreak : isBreak c = true
    · have hc : c ≠ '\n' := fun h => hfeed (h ▸ List.mem_cons_self)
      have hfeed' := (Fold.chars_addBreak hc (hbetween.ne_blanks hbreak) hbetween.feed).2
      exact .cons_break hbreak hc hbetween
        (ih acc _ _ (.addBreak hfeed' (hasPair_head hbreaks hbreak)))
    have hbreak : isBreak c = false := by simpa using hbreak
    by_cases hblank : isBlank c = true
    · rw [isBlank_of_isPrintable (hprintable c List.mem_cons_self)] at hblank
      have hfold := hbetween.hasBreak_eq_false hblank
      obtain rfl : c = ' ' := by simpa [isSpace] using hblank
      exact .cons_space hfold (ih acc _ _
        (.addBlank hfold (place.column_after_ne_zero rfl) (hasPair_head hblanks rfl)))
    · exact .cons_visible hbreak (by simpa using hblank) hbetween.column
        fun place₁ hcolumn₁ => ih _ place₁ _ (Between.none hcolumn₁)

theorem scanQuoted_singleQuoted {text : List Char} (h : canBeSingleQuoted text = true)
    (hfeed : '\n' ∉ text) {c : Char} (hc : (c == '\x27') = false) (rest : List Char)
    (place : Place) :
    ∃ place' : Place, scanQuoted false ⟨singleQuoted text ++ c :: rest, place⟩ =
      .ok ⟨text, ⟨c :: rest, place'⟩, false⟩ := by
  simp only [canBeSingleQuoted, Bool.and_eq_true, Bool.not_eq_true', List.all_eq_true] at h
  obtain ⟨⟨hprintable, hblanks⟩, hbreaks⟩ := h
  obtain ⟨place₁, acc, fold, heq, hlast, hcolumn, hread⟩ := readsIndented text
    ((if text.getLast?.any isBreak then valueIndent else []) ++ '\x27' :: c :: rest) [] hprintable
    hfeed hblanks hbreaks
    (Between.none (place.column_after_ne_zero (show isBreak '\x27' = false from rfl)))
  have hlast : fold.hasBreak = text.getLast?.any isBreak := by
    rw [hlast]
    cases text.getLast? <;> rfl
  obtain ⟨place₂, hcolumn₂, hread₂⟩ : ∃ place₂ : Place, place₂.column ≠ 0 ∧
      quotedFrom false ((if text.getLast?.any isBreak then valueIndent else []) ++
          '\x27' :: c :: rest) place₁ .text acc fold =
        quotedFrom false ('\x27' :: c :: rest) place₂ .text acc fold := by
    rw [← hlast]
    cases hfold : fold.hasBreak with
    | false => exact ⟨place₁, hcolumn hfold, rfl⟩
    | true => exact quotedFrom_valueIndent hfold
  refine ⟨place₂.after '\x27', ?_⟩
  rw [singleQuoted_eq]
  have hassoc : indentLines false (text.flatMap doubleQuote) ++
      (if text.getLast?.any isBreak then valueIndent else []) ++ ['\x27'] ++ c :: rest =
        indentLines false (text.flatMap doubleQuote) ++
          ((if text.getLast?.any isBreak then valueIndent else []) ++ '\x27' :: c :: rest) := by
    simp
  show quotedFrom false (indentLines false (text.flatMap doubleQuote) ++
    (if text.getLast?.any isBreak then valueIndent else []) ++ ['\x27'] ++ c :: rest) _ .text []
      .none = _
  rw [hassoc]
  refine hread.trans (hread₂.trans ?_)
  rw [quotedFrom_visible rfl rfl hcolumn₂]
  simp only [Bool.false_and, Bool.false_eq_true, if_false, Bool.not_false, Bool.true_and]
  rw [if_pos (beq_self_eq_true _), quotedFrom_quote, if_neg (by simp [hc]), heq]
  simp [Fold.chars]

end singleQuoted

end PulseHits.Yaml
