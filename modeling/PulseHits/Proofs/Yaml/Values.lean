import PulseHits.Proofs.Yaml.Literal
import PulseHits.Proofs.Yaml.Quoted
import PulseHits.Proofs.Text.Numeral
import PulseHits.Proofs.Yaml.Texts

/-!
# Values that are written

A value is written in one of four styles, and wherever a value can stand it reads back as a scalar
of that style with its text (`Value.readsAs`). Nothing but printable characters is written.
-/

namespace PulseHits.Yaml

/-! ## Values -/

/-- `body` reads as a scalar to its end wherever a value can stand. -/
structure ReadsAs (style : Style) (text body : List Char) : Prop where
  starts : startsLine body = true
  read : ∀ place : Place, place.column ≠ 0 → ∃ w c rest behind place' keyAllowed,
    body = c :: rest ∧ startOf false place.column c rest = some (.word w) ∧
      w.read false 1 ⟨body, place⟩ = .ok ⟨.scalar style text, ⟨behind, place'⟩, keyAllowed⟩ ∧
        (behind = [] ∨ behind = ['\n'])

theorem IsPlain.startsLine {c : Char} {text : List Char} (h : IsPlain (c :: text))
    (rest : List Char) : startsLine (c :: rest) = true := by
  obtain ⟨hprintable, hbreak⟩ := h.all c List.mem_cons_self
  have hblank : isBlank c = false := by
    rw [isBlank_of_isPrintable hprintable]
    exact h.first
  have hhash : c ≠ '#' := by
    rintro rfl
    have := h.indicator
    simp [startsLikeIndicator] at this
  have hmark := isPrintable_eq_false byteOrderMark rfl hprintable
  simp [Yaml.startsLine, isGap, hblank, hbreak, hhash, hmark]

theorem readsAs_plain {text : List Char} (h : canBePlain text = true) (hne : text ≠ []) :
    ReadsAs .plain text (text ++ ['\n']) := by
  have hplain := isPlain_of_canBePlain h
  obtain ⟨c, rest, rfl⟩ := List.exists_cons_of_ne_nil hne
  refine ⟨hplain.startsLine _, fun place hcolumn => ?_⟩
  have hstart : startOf false place.column c (rest ++ ['\n']) = some (.word .plain) :=
    hplain.startOf fun hzero => absurd hzero hcolumn
  have hread := @IsPlain.scanPlain (c :: rest) ['\n'] hplain place 1
    fun hzero => absurd hzero hcolumn
  refine ⟨.plain, c, rest ++ ['\n'], [], ((c :: rest).foldl Place.after place).after '\n', true,
    rfl, hstart, ?_, .inl rfl⟩
  rw [Word.read, hread]
  have hend := List.reverse_reverse (c :: rest)
  show Except.ok (Lexeme.mk (.scalar .plain (c :: rest).reverse.reverse) _ _) = _
  rw [hend]
  rfl

theorem readsAs_doubleQuoted (text : List Char) :
    ReadsAs .doubleQuoted text (doubleQuoted text ++ ['\n']) := by
  refine ⟨rfl, fun place hcolumn => ?_⟩
  obtain ⟨place', hread⟩ := scanQuoted_doubleQuoted text ['\n'] place
  refine ⟨.quoted true, '"', text.flatMap escaped ++ ['"'] ++ ['\n'], ['\n'], place', false, rfl,
    ?_, ?_, .inr rfl⟩
  · simp [startOf, hcolumn, indicator?]
  · rw [Word.read, hread]
    rfl

theorem readsAs_singleQuoted {text : List Char} (h : canBeSingleQuoted text = true)
    (hfeed : '\n' ∉ text) : ReadsAs .singleQuoted text (singleQuoted text ++ ['\n']) := by
  refine ⟨rfl, fun place hcolumn => ?_⟩
  obtain ⟨place', hread⟩ := scanQuoted_singleQuoted h hfeed (show ('\n' == '\x27') = false from rfl)
    [] place
  refine ⟨.quoted false, '\x27', (singleQuoted text ++ ['\n']).tail, ['\n'], place', false, rfl,
    ?_, ?_, .inr rfl⟩
  · simp [startOf, hcolumn, indicator?]
  · rw [Word.read, hread]
    rfl

theorem readsAs_literal {text : List Char} (h : canBeLiteral text = true) (hne : text ≠ []) :
    ReadsAs .literal text (literal text ++ lineEnd text) := by
  simp only [canBeLiteral, Bool.and_eq_true, List.all_eq_true] at h
  refine ⟨rfl, fun place hcolumn => ?_⟩
  obtain ⟨place', hread⟩ := scanBlock_literal hne h.1.1 place
  refine ⟨.block false, '|', (literal text ++ lineEnd text).tail, [], place', true, rfl, ?_, ?_,
    .inl rfl⟩
  · simp [startOf, hcolumn, indicator?]
  · rw [Word.read, hread]
    rfl

/-! ## Numbers -/

theorem hasKeyColon_eq_false {text : List Char} (h : ':' ∉ text) : hasKeyColon text = false := by
  induction text with
  | nil => rfl
  | cons c text ih =>
    rw [List.mem_cons, not_or] at h
    have hc : (c == ':') = false := by simpa using Ne.symm h.1
    rw [hasKeyColon, hc, ih h.2]
    rfl

theorem hasPair_eq_false {p q : Char → Bool} {text : List Char} (h : ∀ c ∈ text, p c = false) :
    hasPair p q text = false := by
  induction text with
  | nil => rfl
  | cons c text ih =>
    cases text with
    | nil => rfl
    | cons d text =>
      rw [hasPair, h c List.mem_cons_self, ih fun e he => h e (List.mem_cons_of_mem c he)]
      rfl

theorem ne_of_isDigit {c : Char} (h : c.isDigit = true) (d : Char) (hd : d.isDigit = false) :
    d ≠ c := by
  rintro rfl
  rw [h] at hd
  cases hd

theorem isPrintable_of_isDigit {c : Char} (h : c.isDigit = true) : isPrintable c = true := by
  rw [Char.isDigit_iff_toNat] at h
  have h : 48 ≤ c.toNat ∧ c.toNat ≤ 57 := h
  simp only [isPrintable, Bool.or_eq_true, Bool.and_eq_true, decide_eq_true_eq]
  omega

theorem isGap_of_isDigit {c : Char} (h : c.isDigit = true) : isGap c = false := by
  have hne : ∀ d : Char, d.isDigit = false → (c == d) = false := fun d hd =>
    beq_false_of_ne (ne_of_isDigit h d hd).symm
  rw [isGap, isBlank, isBreak, hne ' ' rfl, hne '\t' rfl, hne '\n' rfl, hne lineSeparator rfl,
    hne paragraphSeparator rfl]
  rfl

theorem startsLikeIndicator_of_isDigit {c : Char} (h : c.isDigit = true) (rest : List Char) :
    startsLikeIndicator (c :: rest) = false := by
  have hcontains : ∀ l : List Char, l.all (!·.isDigit) = true → l.contains c = false := by
    intro l hl
    rw [List.contains_eq_mem, decide_eq_false_iff_not]
    intro hc
    have := List.all_eq_true.mp hl c hc
    simp [h] at this
  have hne : ∀ d : Char, d.isDigit = false → (d == c) = false := fun d hd =>
    beq_false_of_ne (ne_of_isDigit h d hd)
  rw [startsLikeIndicator, hcontains _ rfl, hcontains _ rfl, List.isPrefixOf_cons_cons,
    hne '-' rfl, List.isPrefixOf_cons_cons, hne '.' rfl]
  rfl

theorem canBePlain_of_isDigit {text : List Char} (h : ∀ c ∈ text, c.isDigit = true ∨ c = '-')
    (hindicator : startsLikeIndicator text = false) : canBePlain text = true := by
  have hchar : ∀ c : Char, c.isDigit = true ∨ c = '-' →
      isPrintable c = true ∧ isGap c = false ∧ c ≠ ':' := by
    rintro c (hc | rfl)
    · exact ⟨isPrintable_of_isDigit hc, isGap_of_isDigit hc,
        (ne_of_isDigit hc ':' rfl).symm⟩
    · decide
  have hgap : ∀ c ∈ text, isGap c = false := fun c hc => (hchar c (h c hc)).2.1
  have hspace : ∀ c ∈ text, isSpace c = false := fun c hc => by
    have := hgap c hc
    rw [isGap, isBlank, Bool.or_eq_false_iff, Bool.or_eq_false_iff] at this
    exact this.1.1
  have hcolon := hasKeyColon_eq_false fun hmem => (hchar ':' (h _ hmem)).2.2 rfl
  have hhash : hasPair isGap (· == '#') text = false := hasPair_eq_false hgap
  have hfirst : text.head?.any isSpace = false := by
    cases hhead : text.head? with
    | none => rfl
    | some c => exact hspace c (List.mem_of_head? hhead)
  have hlast : text.getLast?.any isSpace = false := by
    cases hlast : text.getLast? with
    | none => rfl
    | some c => exact hspace c (List.mem_of_getLast? hlast)
  have hall : text.all (fun c => isPrintable c && !isBreak c) = true := by
    rw [List.all_eq_true]
    intro c hc
    have hbreak := hgap c hc
    rw [isGap, Bool.or_eq_false_iff] at hbreak
    rw [(hchar c (h c hc)).1, hbreak.2]
    rfl
  rw [canBePlain, hall, hindicator, hcolon, hhash, hfirst, hlast]
  rfl

theorem canBePlain_toString (n : Int) :
    canBePlain (toString n).toList = true ∧ (toString n).toList ≠ [] := by
  rw [Config.toList_toString]
  have hall : ∀ c ∈ Nat.toDigits 10 n.natAbs, c.isDigit = true := fun c =>
    Config.isDigit_of_mem_toDigits
  obtain ⟨c, rest, hdigits, hdigit, -⟩ := Text.exists_toDigits n.natAbs
  rw [hdigits] at hall ⊢
  refine ⟨canBePlain_of_isDigit (fun d hd => ?_) ?_, by simp⟩
  · rcases List.mem_append.mp hd with hd | hd
    · split at hd
      · exact .inr (List.mem_singleton.mp hd)
      · cases hd
    · exact .inl (hall d hd)
  · split
    · have hdash : ('-' == c) = false := beq_false_of_ne (ne_of_isDigit hdigit '-' rfl)
      show startsLikeIndicator ('-' :: c :: rest) = false
      rw [startsLikeIndicator, startsWithGap, isGap_of_isDigit hdigit, List.isPrefixOf_cons_cons,
        List.isPrefixOf_cons_cons, hdash]
      rfl
    · exact startsLikeIndicator_of_isDigit hdigit rest

/-! ## Styles -/

/-- The style in which a text is written. -/
def textStyle (text : List Char) : Style :=
  if text.contains '\n' then if canBeLiteral text then .literal else .doubleQuoted
  else if canBePlain text && !isAmbiguous text then .plain
  else if canBeSingleQuoted text then .singleQuoted
  else .doubleQuoted

namespace Value

def style : Value → Style
  | .text chars => textStyle chars
  | _ => .plain

/-- What a value is as a text. -/
def chars : Value → List Char
  | .text chars => chars
  | .integer n => (toString n).toList
  | .boolean b => (toString b).toList

/-- The scalar that a value is written as. -/
def node (v : Value) : Node :=
  .scalar none v.style v.chars

end Value

theorem lineEnd_concat (text : List Char) {c : Char} (hc : isBreak c = false) :
    lineEnd (text ++ [c]) = ['\n'] := by
  rw [lineEnd, wholeLines, List.getLast?_concat, Option.all_some, hc]
  rfl

theorem getLast?_indentLines (lineStart : Bool) (text : List Char) :
    (indentLines lineStart text).getLast? = text.getLast? := by
  induction text generalizing lineStart with
  | nil => rfl
  | cons c text ih =>
    rw [indentLines, List.getLast?_cons]
    split
    · rw [List.getLast?_cons, ih]
    · rw [List.getLast?_append, List.getLast?_cons, ih]
      rfl

theorem lineEnd_literal (text : List Char) : lineEnd (literal text) = lineEnd text := by
  have hmarks : wholeLines (['|'] ++ literalMarks text ++ ['\n']) = true := by
    rw [wholeLines, List.getLast?_concat]
    rfl
  rw [literal, lineEnd_append hmarks, lineEnd, wholeLines, getLast?_indentLines]
  rfl

theorem lineEnd_plain {text : List Char} (h : canBePlain text = true) (hne : text ≠ []) :
    lineEnd text = ['\n'] := by
  rw [lineEnd, wholeLines, List.getLast?_eq_some_getLast hne, Option.all_some,
    ((isPlain_of_canBePlain h).all _ (List.getLast_mem hne)).2]
  rfl

/-- Every value reads back as what it was written for. -/
theorem Value.readsAs (v : Value) :
    v.write ≠ [] ∧ ReadsAs v.style v.chars (v.write ++ lineEnd v.write) := by
  have hplain : ∀ {text : List Char}, canBePlain text = true → text ≠ [] →
      text ≠ [] ∧ ReadsAs .plain text (text ++ lineEnd text) := fun h hne => by
    rw [lineEnd_plain h hne]
    exact ⟨hne, readsAs_plain h hne⟩
  have hdouble (text : List Char) : doubleQuoted text ≠ [] ∧
      ReadsAs .doubleQuoted text (doubleQuoted text ++ lineEnd (doubleQuoted text)) := by
    rw [show lineEnd (doubleQuoted text) = ['\n'] from lineEnd_concat _ rfl]
    exact ⟨by simp [doubleQuoted], readsAs_doubleQuoted text⟩
  cases v with
  | integer n => exact hplain (canBePlain_toString n).1 (canBePlain_toString n).2
  | boolean b => cases b <;> exact hplain rfl (by decide)
  | text text =>
    show writeText text ≠ [] ∧
      ReadsAs (textStyle text) text (writeText text ++ lineEnd (writeText text))
    unfold writeText textStyle
    split
    · next hfeed =>
      split
      · next hliteral =>
        have hne : text ≠ [] := by
          rintro rfl
          cases hfeed
        rw [lineEnd_literal]
        exact ⟨by simp [literal], readsAs_literal hliteral hne⟩
      · exact hdouble text
    · next hfeed =>
      split
      · next h =>
        rw [Bool.and_eq_true] at h
        refine hplain h.1 ?_
        rintro rfl
        cases h.2
      · split
        · next hsingle =>
          rw [show lineEnd (singleQuoted text) = ['\n'] from lineEnd_concat _ rfl]
          exact ⟨by simp [singleQuoted], readsAs_singleQuoted hsingle (by simpa using hfeed)⟩
        · exact hdouble text

/-! ## Printable characters -/

theorem isPrintable_of_escapeLetter? {c e : Char} (h : escapeLetter? c = some e) :
    isPrintable e = true := by
  unfold escapeLetter? at h
  split at h <;> cases h <;> rfl

theorem isPrintable_hexDigitUpper {n : Nat} (hn : n < 16) :
    isPrintable (Text.hexDigitUpper n) = true := by
  revert hn
  decide +revert

theorem all_isPrintable_hexFixed (width n : Nat) :
    (Text.hexFixed Text.hexDigitUpper width n).all isPrintable = true := by
  induction width generalizing n with
  | zero => rfl
  | succ width ih =>
    rw [Text.hexFixed, List.all_append, ih, Bool.true_and, List.all_cons,
      isPrintable_hexDigitUpper (Nat.mod_lt n (by decide))]
    rfl

theorem all_isPrintable_escaped (c : Char) : (escaped c).all isPrintable = true := by
  have hcode (letter : Char) (width : Nat) (hletter : isPrintable letter = true) :
      (['\\', letter] ++ Text.hexFixed Text.hexDigitUpper width c.toNat).all isPrintable = true := by
    rw [List.all_append, all_isPrintable_hexFixed, List.all_cons, List.all_cons, hletter]
    rfl
  unfold escaped
  split
  · next e h =>
    rw [List.all_cons, List.all_cons, isPrintable_of_escapeLetter? h]
    rfl
  · split
    · next h =>
      rw [List.all_cons, h]
      rfl
    · split
      · exact hcode 'x' 2 rfl
      · split
        · exact hcode 'u' 4 rfl
        · exact hcode 'U' 8 rfl

theorem all_isPrintable_indentLines (lineStart : Bool) (text : List Char) :
    (indentLines lineStart text).all isPrintable = text.all isPrintable := by
  induction text generalizing lineStart with
  | nil => rfl
  | cons c text ih =>
    rw [indentLines]
    split
    · rw [List.all_cons, List.all_cons, ih]
    · rw [List.all_append, List.all_cons, List.all_cons, ih]
      cases lineStart <;> rfl

theorem all_isPrintable_doubleQuoted (text : List Char) :
    (doubleQuoted text).all isPrintable = true := by
  have hbody : (text.flatMap escaped).all isPrintable = true := by
    rw [List.all_flatMap, List.all_eq_true]
    exact fun c _ => all_isPrintable_escaped c
  rw [doubleQuoted, List.all_append, List.all_append, hbody]
  rfl

theorem all_isPrintable_singleQuoted {text : List Char} (h : text.all isPrintable = true) :
    (singleQuoted text).all isPrintable = true := by
  have hbody : (text.flatMap doubleQuote).all isPrintable = true := by
    rw [List.all_flatMap, List.all_eq_true]
    intro c hc
    have := List.all_eq_true.mp h c hc
    unfold doubleQuote
    split <;> simp [this]
  rw [singleQuoted_eq, List.all_cons, List.all_append, List.all_append,
    all_isPrintable_indentLines, hbody]
  cases text.getLast?.any isBreak <;> rfl

theorem all_isPrintable_literal {text : List Char} (h : text.all isPrintable = true) :
    (literal text).all isPrintable = true := by
  have hmarks : (literalMarks text).all isPrintable = true := by
    rw [literalMarks_eq]
    cases startsBlank text <;> cases chompingOf text <;> rfl
  rw [literal, List.all_append, List.all_append, List.all_append, hmarks,
    all_isPrintable_indentLines, h]
  rfl

theorem Value.all_isPrintable_write (v : Value) : v.write.all isPrintable = true := by
  have hplain : ∀ {text : List Char}, canBePlain text = true → text.all isPrintable = true :=
    fun h => List.all_eq_true.mpr fun c hc => ((isPlain_of_canBePlain h).all c hc).1
  cases v with
  | integer n => exact hplain (canBePlain_toString n).1
  | boolean b => cases b <;> rfl
  | text text =>
    show (writeText text).all isPrintable = true
    unfold writeText
    split
    · split
      · next h =>
        simp only [canBeLiteral, Bool.and_eq_true] at h
        exact all_isPrintable_literal h.1.1
      · exact all_isPrintable_doubleQuoted text
    · split
      · next h => exact hplain (Bool.and_eq_true_iff.mp h).1
      · split
        · next h =>
          simp only [canBeSingleQuoted, Bool.and_eq_true] at h
          exact all_isPrintable_singleQuoted h.1.1
        · exact all_isPrintable_doubleQuoted text

theorem isAllowed_of_isPrintable {c : Char} (h : isPrintable c = true) : isAllowed c = true := by
  have hvalid := c.valid
  have hvalid : c.toNat < 0xd800 ∨ 0xdfff < c.toNat ∧ c.toNat < 0x110000 := hvalid
  simp only [isPrintable, Bool.or_eq_true, Bool.and_eq_true, beq_iff_eq, decide_eq_true_eq] at h
  simp only [isAllowed, Bool.or_eq_true, Bool.and_eq_true, beq_iff_eq, decide_eq_true_eq]
  omega

theorem normalizeBreaks_of_isPrintable {chars : List Char} (h : chars.all isPrintable = true) :
    normalizeBreaks chars = chars := by
  fun_induction normalizeBreaks chars with
  | case1 => rfl
  | case2 r ih => cases h
  | case3 r hr ih => cases h
  | case4 r ih => cases h
  | case5 c r h₁ h₂ h₃ ih =>
    rw [List.all_cons, Bool.and_eq_true] at h
    rw [ih h.2]

theorem prepare?_of_isPrintable {chars : List Char} (h : chars.all isPrintable = true) :
    prepare? (String.ofList chars) = some chars := by
  rw [prepare?_eq_some, String.toList_ofList]
  refine ⟨List.all_eq_true.mpr fun c hc => ?_, (normalizeBreaks_of_isPrintable h).symm⟩
  exact isAllowed_of_isPrintable (List.all_eq_true.mp h c hc)

end PulseHits.Yaml
