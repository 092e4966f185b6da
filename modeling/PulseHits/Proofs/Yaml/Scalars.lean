import PulseHits.Proofs.Yaml.Cursor

/-!
# Scalars of whole lines

A scalar that is read from whole lines ends within them, and what stands behind them makes no
difference to it, if the text there starts a line of its own: a plain scalar and a block scalar are
indented, and a quoted scalar ends with its quote.
-/

namespace PulseHits.Yaml

/-- Whether a text starts with a token in its first column, if it has any. -/
def startsLine : List Char → Bool
  | [] => true
  | c :: _ => !(isGap c || c == '#' || c == byteOrderMark)

theorem of_startsLine {c : Char} {rest : List Char} (h : startsLine (c :: rest) = true) :
    isBlank c = false ∧ isBreak c = false ∧ c ≠ '#' ∧ c ≠ byteOrderMark := by
  simpa [startsLine, isGap, and_assoc] using h

theorem isBreak_of_isBlank {c : Char} (h : isBlank c = true) : isBreak c = false := by
  simp only [isBlank, Bool.or_eq_true, beq_iff_eq] at h
  rcases h with rfl | rfl <;> rfl

theorem bind_eq_ok {α β : Type} {a? : Except Error α} {f : α → Except Error β} {b : β} :
    (a? >>= f) = .ok b ↔ ∃ a, a? = .ok a ∧ f a = .ok b := by
  cases a? with
  | error e => simp [bind, Except.bind]
  | ok a => simp [bind, Except.bind]

def Scanned.within (x : Surroundings) (r : Scanned) : Scanned :=
  { r with rest := r.rest.within x }

variable {x : Surroundings} {c : Cursor} {chars : List Char} {place : Place} {r : Scanned}

/-! ## Plain scalars -/

section plain
variable {inFlow : Bool} {indent : Nat} {text : List Char} {fold : Fold}

theorem plainFrom_reaches (h : plainFrom inFlow indent chars place text fold = .ok r) :
    Cursor.Reaches ⟨chars, place⟩ r.rest := by
  induction chars generalizing place text fold with
  | nil =>
    cases h
    exact .refl _
  | cons c rest ih =>
    rw [plainFrom] at h
    split at h
    · split at h
      · cases h
      · exact .cons (ih h)
    · split at h
      · exact .cons (ih h)
      · split at h
        · cases h
        · split at h
          · cases h
            exact .refl _
          · exact .cons (ih h)

theorem Fold.hasBreak_addBreak (fold : Fold) (c : Char) : (fold.addBreak c).hasBreak = true := by
  cases fold <;> rfl

theorem plainEnds_within {c : Char} {rest : List Char} (hc : isBreak c = false)
    (hlines : wholeLines (c :: rest) = true) :
    plainEnds inFlow indent c (rest ++ x.behind) (place.within x) fold =
      plainEnds inFlow indent c rest place fold := by
  have hrest := ne_nil_of_inLine (inLine_tail hlines hc)
  have hline := inLine_of_wholeLines hlines (List.cons_ne_nil c rest)
  rw [plainEnds, ← List.cons_append, startsWithDocumentMark_append hline,
    startsWithGap_append hrest]
  rfl

theorem colonMisplaced_append {rest : List Char} (h : rest ≠ []) (behind : List Char) :
    colonMisplaced (rest ++ behind) = colonMisplaced rest := by
  cases rest with
  | nil => exact absurd rfl h
  | cons c rest => rfl

theorem plainFrom_within (hbehind : startsLine x.behind = true) (hindent : 0 < indent)
    (hlines : wholeLines chars = true)
    (hend : chars = [] → place.column = 0 ∧ fold.hasBreak = true)
    (h : plainFrom inFlow indent chars place text fold = .ok r)
    (hflow : r.rest.chars = [] → inFlow = false) :
    plainFrom inFlow indent (chars ++ x.behind) (place.within x) text fold = .ok (r.within x) ∧
      (r.rest.chars = [] → r.afterBreak = true) := by
  induction chars generalizing place text fold with
  | nil =>
    cases h
    obtain ⟨hcolumn, hbreak⟩ := hend rfl
    have hblock : inFlow = false := hflow rfl
    refine ⟨?_, fun _ => hbreak⟩
    cases hx : x.behind with
    | nil => simp [plainFrom, Scanned.within, Cursor.within, hx]
    | cons c behind =>
      rw [hx] at hbehind
      obtain ⟨hblank, hnobreak, -, -⟩ := of_startsLine hbehind
      have hends : plainEnds inFlow indent c behind (place.within x) fold = true := by
        simp [plainEnds, hbreak, hblock, hcolumn, hindent]
      rw [List.nil_append, plainFrom, hends]
      simp [hblank, hnobreak, hblock, Scanned.within, Cursor.within, hx]
  | cons c rest ih =>
    have hrest := wholeLines_tail hlines
    have hbreak : isBreak c = false → rest ≠ [] := fun hc => ne_nil_of_inLine (inLine_tail hlines hc)
    rw [plainFrom] at h
    rw [List.cons_append, plainFrom, Place.after_within, Place.column_within]
    split at h
    · next hblank =>
      rw [if_pos hblank]
      have hne := hbreak (isBreak_of_isBlank hblank)
      split at h
      · cases h
      · next htab =>
        rw [if_neg htab]
        exact ih hrest (fun hnil => absurd hnil hne) h
    · next hblank =>
      rw [if_neg hblank]
      split at h
      · next hc =>
        rw [if_pos hc]
        exact ih hrest (fun _ => ⟨by simp [Place.after, hc], fold.hasBreak_addBreak c⟩) h
      · next hc =>
        have hc' : isBreak c = false := by simpa using hc
        have hne := hbreak hc'
        rw [if_neg hc, colonMisplaced_append hne, plainEnds_within hc' hlines]
        split at h
        · cases h
        · next hcolon =>
          rw [if_neg hcolon]
          split at h
          · next hends =>
            cases h
            rw [if_pos hends]
            exact ⟨rfl, fun hnil => absurd hnil (List.cons_ne_nil c rest)⟩
          · next hends =>
            rw [if_neg hends]
            exact ih hrest (fun hnil => absurd hnil hne) h

end plain

/-! ## Quoted scalars -/

section quoted
variable {double : Bool} {mode : QuotedMode} {text : List Char} {fold : Fold}

section modes
variable (c : Char) (rest : List Char)

theorem quotedFrom_quote :
    quotedFrom double (c :: rest) place .quote text fold =
      if c == '\x27' then quotedFrom double rest (place.after c) .text (c :: text) fold
      else .ok ⟨text.reverse, ⟨c :: rest, place⟩, false⟩ := rfl

theorem quotedFrom_escape :
    quotedFrom double (c :: rest) place .escape text fold =
      if isBreak c then quotedFrom double rest (place.after c) .text text (.breaks [] [])
      else
        match escapeOf? c, escapeDigits? c with
        | some e, _ => quotedFrom double rest (place.after c) .text (e :: text) fold
        | none, some digits => quotedFrom double rest (place.after c) (.code digits 0) text fold
        | none, none => .error .badEscape := rfl

theorem quotedFrom_code (left value : Nat) :
    quotedFrom double (c :: rest) place (.code left value) text fold =
      match Text.hexValue? c with
      | none => .error .badEscape
      | some digit =>
        if left ≤ 1 then
          if h : (16 * value + digit).isValidChar then
            quotedFrom double rest (place.after c) .text (Char.ofNatAux (16 * value + digit) h :: text)
              fold
          else .error .badEscape
        else
          quotedFrom double rest (place.after c) (.code (left - 1) (16 * value + digit)) text
            fold := rfl

theorem quotedFrom_text :
    quotedFrom double (c :: rest) place .text text fold =
      if isBlank c then quotedFrom double rest (place.after c) .text text (fold.addBlank c)
      else if isBreak c then quotedFrom double rest (place.after c) .text text (fold.addBreak c)
      else if place.column == 0 && startsWithDocumentMark (c :: rest) then
        .error .unterminatedScalar
      else if double && c == '"' then
        .ok ⟨(fold.chars ++ text).reverse, ⟨rest, place.after c⟩, false⟩
      else if double && c == '\\' then
        quotedFrom double rest (place.after c) .escape (fold.chars ++ text) .none
      else if !double && c == '\x27' then
        quotedFrom double rest (place.after c) .quote (fold.chars ++ text) .none
      else quotedFrom double rest (place.after c) .text (c :: (fold.chars ++ text)) .none := rfl

end modes

/-- Read on within a longer text, a quoted scalar comes to `r`, which is behind `start` and in front
of the end of its line. -/
def QuotedWithin (x : Surroundings) (double : Bool) (start : Cursor) (chars : List Char)
    (place : Place) (mode : QuotedMode) (text : List Char) (fold : Fold) (r : Scanned) : Prop :=
  quotedFrom double (chars ++ x.behind) (place.within x) mode text fold = .ok (r.within x) ∧
    start.Reaches r.rest ∧ r.rest.chars ≠ [] ∧ r.afterBreak = false

section step
variable {c : Char} {rest : List Char}
  (hstep : ∀ mode text fold, (mode = .quote → isBreak c = false) →
    quotedFrom double rest (place.after c) mode text fold = .ok r →
    QuotedWithin x double ⟨c :: rest, place⟩ rest (place.after c) mode text fold r)
include hstep

theorem quotedWithin_quote (h : quotedFrom double (c :: rest) place .quote text fold = .ok r) :
    QuotedWithin x double ⟨c :: rest, place⟩ (c :: rest) place .quote text fold r := by
  rw [quotedFrom_quote] at h
  rw [QuotedWithin, List.cons_append, quotedFrom_quote, Place.after_within]
  split at h
  · next hc =>
    rw [if_pos hc]
    exact hstep _ _ _ nofun h
  · next hc =>
    cases h
    rw [if_neg hc]
    exact ⟨rfl, .refl _, List.cons_ne_nil c rest, rfl⟩

theorem quotedWithin_escape (h : quotedFrom double (c :: rest) place .escape text fold = .ok r) :
    QuotedWithin x double ⟨c :: rest, place⟩ (c :: rest) place .escape text fold r := by
  rw [quotedFrom_escape] at h
  rw [QuotedWithin, List.cons_append, quotedFrom_escape, Place.after_within]
  split at h
  · next hc =>
    rw [if_pos hc]
    exact hstep _ _ _ nofun h
  · next hc =>
    rw [if_neg hc]
    split at h
    · exact hstep _ _ _ nofun h
    · exact hstep _ _ _ nofun h
    · cases h

theorem quotedWithin_code {left value : Nat}
    (h : quotedFrom double (c :: rest) place (.code left value) text fold = .ok r) :
    QuotedWithin x double ⟨c :: rest, place⟩ (c :: rest) place (.code left value) text fold r := by
  rw [quotedFrom_code] at h
  rw [QuotedWithin, List.cons_append, quotedFrom_code, Place.after_within]
  cases hdigit : Text.hexValue? c with
  | none =>
    rw [hdigit] at h
    cases h
  | some digit =>
    rw [hdigit] at h
    dsimp only at h ⊢
    by_cases hleft : left ≤ 1
    · rw [if_pos hleft] at h ⊢
      by_cases hvalid : (16 * value + digit).isValidChar
      · rw [dif_pos hvalid] at h ⊢
        exact hstep _ _ _ nofun h
      · rw [dif_neg hvalid] at h
        cases h
    · rw [if_neg hleft] at h ⊢
      exact hstep _ _ _ nofun h

theorem quotedWithin_text (hlines : wholeLines (c :: rest) = true)
    (h : quotedFrom double (c :: rest) place .text text fold = .ok r) :
    QuotedWithin x double ⟨c :: rest, place⟩ (c :: rest) place .text text fold r := by
  rw [quotedFrom_text] at h
  rw [QuotedWithin, List.cons_append, quotedFrom_text, Place.column_within, Place.after_within]
  by_cases hblank : isBlank c = true
  · rw [if_pos hblank] at h ⊢
    exact hstep _ _ _ nofun h
  rw [if_neg hblank] at h ⊢
  by_cases hbreak : isBreak c = true
  · rw [if_pos hbreak] at h ⊢
    exact hstep _ _ _ nofun h
  have hnoBreak : isBreak c = false := by simpa using hbreak
  have hline := inLine_of_wholeLines hlines (List.cons_ne_nil c rest)
  rw [if_neg hbreak] at h
  rw [if_neg hbreak, ← List.cons_append, startsWithDocumentMark_append hline]
  split at h
  · cases h
  next hmark =>
  rw [if_neg hmark]
  split at h
  · next hquote =>
    cases h
    rw [if_pos hquote]
    exact ⟨rfl, .cons (.refl _), ne_nil_of_inLine (inLine_tail hlines hnoBreak), rfl⟩
  next hquote =>
  rw [if_neg hquote]
  split at h
  · next hescape =>
    rw [if_pos hescape]
    exact hstep _ _ _ nofun h
  next hescape =>
  rw [if_neg hescape]
  split at h
  · next hsingle =>
    rw [if_pos hsingle]
    exact hstep _ _ _ (fun _ => hnoBreak) h
  · next hsingle =>
    rw [if_neg hsingle]
    exact hstep _ _ _ nofun h

end step

theorem quotedFrom_within (hlines : wholeLines chars = true) (hend : mode = .quote → chars ≠ [])
    (h : quotedFrom double chars place mode text fold = .ok r) :
    quotedFrom double (chars ++ x.behind) (place.within x) mode text fold = .ok (r.within x) ∧
      Cursor.Reaches ⟨chars, place⟩ r.rest ∧ r.rest.chars ≠ [] ∧ r.afterBreak = false := by
  induction chars generalizing place mode text fold with
  | nil =>
    cases mode with
    | quote => exact absurd rfl (hend rfl)
    | _ => cases h
  | cons c rest ih =>
    have hstep : ∀ mode text fold, (mode = .quote → isBreak c = false) →
        quotedFrom double rest (place.after c) mode text fold = .ok r →
        QuotedWithin x double ⟨c :: rest, place⟩ rest (place.after c) mode text fold r := by
      intro mode text fold hquote h
      obtain ⟨hwithin, hreaches, hends⟩ := ih (wholeLines_tail hlines)
        (fun hmode => ne_nil_of_inLine (inLine_tail hlines (hquote hmode))) h
      exact ⟨hwithin, hreaches.cons, hends⟩
    cases mode with
    | quote => exact quotedWithin_quote hstep h
    | escape => exact quotedWithin_escape hstep h
    | code left value => exact quotedWithin_code hstep h
    | text => exact quotedWithin_text hstep hlines h

end quoted

/-! ## Block scalars -/

section block
variable {folded : Bool} {indent least : Nat} {c' : Cursor}

theorem isBreak_of_chomping? {c : Char} {ch : Chomping} (h : chomping? c = some ch) :
    isBreak c = false :=
  isBreak_eq_false (fun c => (chomping? c).isSome) rfl (Option.isSome_of_eq_some h)

theorem isBreak_of_indentDigit? {c : Char} {d : Nat} (h : indentDigit? c = some d) :
    isBreak c = false :=
  isBreak_eq_false (fun c => (indentDigit? c).isSome) rfl (Option.isSome_of_eq_some h)

theorem inLine_drop_one {α : Type} {mark? : Char → Option α}
    (hmark : ∀ {c a}, mark? c = some a → isBreak c = false) (h : inLine chars = true) {a : α}
    (ha : chars.head?.bind mark? = some a) : inLine (chars.drop 1) = true := by
  cases chars with
  | nil => cases h
  | cons c rest => exact inLine_tail (wholeLines_of_inLine h) (hmark ha)

theorem blockMarks_append (h : inLine chars = true) (behind : List Char) :
    blockMarks (chars ++ behind) = blockMarks chars ∧
      inLine (chars.drop (blockMarks chars).2) = true := by
  cases chars with
  | nil => cases h
  | cons a rest =>
    have hlines := wholeLines_of_inLine h
    rw [List.cons_append, blockMarks, blockMarks]
    cases hch : chomping? a with
    | some ch =>
      have hrest := inLine_tail hlines (isBreak_of_chomping? hch)
      simp only [head?_append_of_ne_nil (ne_nil_of_inLine hrest) behind]
      cases hd : rest.head?.bind indentDigit? with
      | some d => exact ⟨trivial, inLine_drop_one isBreak_of_indentDigit? hrest hd⟩
      | none => exact ⟨trivial, hrest⟩
    | none =>
      cases hd : indentDigit? a with
      | some d =>
        have hrest := inLine_tail hlines (isBreak_of_indentDigit? hd)
        simp only [head?_append_of_ne_nil (ne_nil_of_inLine hrest) behind]
        cases hch' : rest.head?.bind chomping? with
        | some ch => exact ⟨trivial, inLine_drop_one isBreak_of_chomping? hrest hch'⟩
        | none => exact ⟨trivial, hrest⟩
      | none => exact ⟨rfl, h⟩

theorem length_blockMarks_lt (h : inLine chars = true) :
    (blockMarks chars).2 < chars.length := by
  have hdrop := ne_nil_of_inLine (blockMarks_append h []).2
  rw [Ne, List.drop_eq_nil_iff] at hdrop
  omega

theorem isBlank_of_isBreak {c : Char} (h : isBreak c = true) : isBlank c = false :=
  eq_false_of_isBreak isBlank rfl h

theorem not_isBreak {c : Char} (h : isBreak c = true) : (!isBreak c) = false := by
  rw [h]
  rfl

/-- Behind the marks of a block scalar and what may follow them in their line. -/
def headerEnd (c : Cursor) : Cursor :=
  let c := (c.forward (blockMarks c.chars).2).skipWhile isBlank
  if c.chars.head? = some '#' then c.skipWhile (fun a => !isBreak a) else c

theorem scanBlockHeader_eq (c : Cursor) :
    scanBlockHeader c =
      if (blockMarks c.chars).1.indent? = some 0 then .error .badBlockHeader
      else
        match (headerEnd c).chars with
        | [] => .ok ((blockMarks c.chars).1, headerEnd c)
        | a :: _ =>
          if isBreak a then .ok ((blockMarks c.chars).1, (headerEnd c).next)
          else .error .badBlockHeader := rfl

theorem headerEnd_within (hline : inLine c.chars = true) :
    headerEnd (c.within x) = (headerEnd c).within x ∧ c.Reaches (headerEnd c) ∧
      inLine (headerEnd c).chars = true := by
  obtain ⟨hmarks, hdrop⟩ := blockMarks_append hline x.behind
  have hcount := Nat.le_of_lt (length_blockMarks_lt hline)
  obtain ⟨hblanks, hline'⟩ := (c.forward (blockMarks c.chars).2).skipWhile_within (x := x)
    (fun _ => isBlank_of_isBreak) hdrop
  have hreaches := (Cursor.Reaches.forward hcount).trans (Cursor.skipWhile_reaches _ isBlank)
  obtain ⟨hskip, hline''⟩ := Cursor.skipWhile_within (x := x) (fun _ => not_isBreak) hline'
  rw [headerEnd, Cursor.chars_within, hmarks, c.forward_within x hcount]
  simp only [hblanks, Cursor.chars_within, head?_append_of_ne_nil (ne_nil_of_inLine hline')]
  rw [headerEnd]
  split
  · exact ⟨hskip, hreaches.trans (Cursor.skipWhile_reaches _ _), hline''⟩
  · exact ⟨rfl, hreaches, hline'⟩

theorem scanBlockHeader_within {header : BlockHeader} (hline : inLine c.chars = true)
    (h : scanBlockHeader c = .ok (header, c')) :
    scanBlockHeader (c.within x) = .ok (header, c'.within x) ∧ c.Reaches c' ∧
      header.indent? ≠ some 0 := by
  obtain ⟨hwithin, hreaches, hline'⟩ := headerEnd_within (x := x) hline
  rw [scanBlockHeader_eq] at h ⊢
  rw [Cursor.chars_within, (blockMarks_append hline x.behind).1, hwithin, Cursor.chars_within]
  split at h
  · cases h
  · next hindent =>
    rw [if_neg hindent]
    cases hchars : (headerEnd c).chars with
    | nil => simp [hchars, inLine] at hline'
    | cons a rest =>
      simp only [hchars, List.cons_append] at h ⊢
      split at h
      · next ha =>
        cases h
        have hone : 1 ≤ (headerEnd c).chars.length := by simp [hchars]
        rw [if_pos ha]
        refine ⟨?_, hreaches.trans (.forward hone), hindent⟩
        rw [Cursor.next, Cursor.forward_within x _ hone]
        rfl
      · cases h

theorem blockGap_within {limit? : Option Nat} {breaks : List Char} {width : Nat} {g : BlockGap}
    (hbehind : startsLine x.behind = true)
    (h : blockGap limit? chars place breaks width = .ok g) :
    blockGap limit? (chars ++ x.behind) (place.within x) breaks width =
        .ok ⟨g.breaks, g.rest.within x, g.width⟩ ∧ Cursor.Reaches ⟨chars, place⟩ g.rest := by
  induction chars generalizing place breaks width with
  | nil =>
    cases h
    refine ⟨?_, .refl _⟩
    cases hx : x.behind with
    | nil => simp [blockGap, Cursor.within, hx]
    | cons c behind =>
      rw [hx] at hbehind
      obtain ⟨hblank, hbreak, -, -⟩ := of_startsLine hbehind
      obtain ⟨hspace, htab⟩ : c ≠ ' ' ∧ c ≠ '\t' := by simpa [isBlank] using hblank
      simp [blockGap, hspace, htab, hbreak, Cursor.within, hx]
  | cons c rest ih =>
    rw [blockGap] at h
    rw [List.cons_append, blockGap, Place.column_within, Place.after_within]
    split at h
    · next hspace =>
      rw [if_pos hspace]
      obtain ⟨hwithin, hreaches⟩ := ih h
      exact ⟨hwithin, hreaches.cons⟩
    · next hspace =>
      rw [if_neg hspace]
      split at h
      · cases h
      · next htab =>
        rw [if_neg htab]
        split at h
        · next hbreak =>
          rw [if_pos hbreak]
          obtain ⟨hwithin, hreaches⟩ := ih h
          exact ⟨hwithin, hreaches.cons⟩
        · next hbreak =>
          rw [if_neg hbreak]
          cases h
          exact ⟨rfl, .refl _⟩

/-- A line of a block scalar, with the break behind it and the gap in front of the next one. -/
theorem blockLines_of_line {fuel : Nat} {s : BlockState} {a b : Char}
    (hcolumn : c.place.column = indent) (ha : c.chars.head? = some a)
    (hb : (c.skipWhile fun a => !isBreak a).chars.head? = some b) :
    blockLines folded indent (fuel + 1) c s =
      let next := (c.skipWhile fun a => !isBreak a).next
      blockGap (some indent) next.chars next.place [] 0 >>= fun gap =>
        blockLines folded indent fuel gap.rest
          ⟨(c.chars.takeWhile fun a => !isBreak a).reverse ++
            (s.joint folded (isBlank a) ++ s.text), [b], gap.breaks, isBlank a⟩ := by
  obtain ⟨chars, place⟩ := c
  cases chars with
  | nil => cases ha
  | cons a' rest =>
    cases ha
    rw [blockLines]
    simp only at hcolumn ⊢
    rw [if_neg (not_not_intro hcolumn)]
    cases hd : (Cursor.skipWhile ⟨a :: rest, place⟩ fun a => !isBreak a).chars with
    | nil => simp [hd] at hb
    | cons b' more =>
      rw [hd] at hb
      cases hb
      unfold Cursor.skipWhile at hd ⊢
      simp only [hd]

theorem blockLines_of_column_ne {fuel : Nat} {s : BlockState} (h : c.place.column ≠ indent) :
    blockLines folded indent (fuel + 1) c s = .ok (s, c) := by
  rw [blockLines]
  split
  · rfl
  · rw [if_pos h]

theorem blockLines_within {fuel fuel' : Nat} {s s' : BlockState}
    (hbehind : startsLine x.behind = true) (hindent : 0 < indent)
    (hlines : wholeLines c.chars = true) (hend : c.chars = [] → c.place.column = 0)
    (hfuel : c.chars.length < fuel) (hfuel' : c.chars.length < fuel')
    (h : blockLines folded indent fuel c s = .ok (s', c')) :
    blockLines folded indent fuel' (c.within x) s = .ok (s', c'.within x) ∧ c.Reaches c' := by
  induction fuel generalizing fuel' c s with
  | zero => omega
  | succ fuel ih =>
    obtain ⟨fuel', rfl⟩ : ∃ n, fuel' = n + 1 := ⟨fuel' - 1, by omega⟩
    by_cases hcolumn : c.place.column = indent
    · have hne : c.chars ≠ [] := by
        intro hnil
        rw [hend hnil] at hcolumn
        omega
      have hline := inLine_of_wholeLines hlines hne
      have htake := (takeWhile_append_of_inLine (fun _ => not_isBreak) hline x.behind).1
      obtain ⟨hskip, hdline⟩ := c.skipWhile_within (x := x) (fun _ => not_isBreak) hline
      have hreaches := c.skipWhile_reaches fun a => !isBreak a
      have hdne := ne_nil_of_inLine hdline
      obtain ⟨a, ha⟩ : ∃ a, c.chars.head? = some a :=
        Option.isSome_iff_exists.mp (by simpa using hne)
      obtain ⟨b, hb⟩ : ∃ b, (c.skipWhile fun a => !isBreak a).chars.head? = some b :=
        Option.isSome_iff_exists.mp (by simpa using hdne)
      have ha' : (c.within x).chars.head? = some a := (head?_append_of_ne_nil hne _).trans ha
      have hb' : ((c.within x).skipWhile fun a => !isBreak a).chars.head? = some b := by
        rw [hskip]
        exact (head?_append_of_ne_nil hdne _).trans hb
      rw [blockLines_of_line hcolumn ha hb] at h
      rw [blockLines_of_line (c := c.within x) hcolumn ha' hb', hskip, Cursor.chars_within, htake]
      generalize c.skipWhile (fun a => !isBreak a) = d at h hdline hreaches hdne
      have hone : 1 ≤ d.chars.length := Nat.pos_of_ne_zero (by simpa using hdne)
      have hnext : (d.within x).next = d.next.within x := d.forward_within x hone
      have hnextReaches : c.Reaches d.next := hreaches.trans (.forward hone)
      obtain ⟨gap, hgap, h⟩ := bind_eq_ok.mp h
      obtain ⟨hgapWithin, hgapReaches⟩ := blockGap_within hbehind hgap
      have hlength : gap.rest.chars.length < c.chars.length := by
        have hle := hreaches.length_le
        have hle' := hgapReaches.length_le
        simp only [Cursor.next, Cursor.chars_forward, List.length_drop] at hle'
        omega
      have hgapReaches : c.Reaches gap.rest := hnextReaches.trans hgapReaches
      have hmore : gap.rest.chars.length < fuel' := by omega
      obtain ⟨hwithin, hlast⟩ := ih (hgapReaches.wholeLines hlines)
        (fun hnil => hgapReaches.column_eq_zero hline hnil) (by omega) hmore h
      refine ⟨?_, hgapReaches.trans hlast⟩
      simp only [hnext]
      exact bind_eq_ok.mpr ⟨_, hgapWithin, hwithin⟩
    · rw [blockLines_of_column_ne hcolumn] at h
      cases h
      exact ⟨blockLines_of_column_ne hcolumn, .refl _⟩

theorem scanBlock_within (hbehind : startsLine x.behind = true) (hlines : wholeLines c.chars = true)
    {a : Char} {rest : List Char} (hc : c.chars = a :: rest) (ha : isBreak a = false)
    (h : scanBlock folded least c = .ok r) :
    scanBlock folded least (c.within x) = .ok (r.within x) ∧ c.next.Reaches r.rest ∧
      r.afterBreak = true := by
  have hone : 1 ≤ c.chars.length := by simp [hc]
  have hnext : (c.within x).next = c.next.within x := c.forward_within x hone
  have hline : inLine c.next.chars = true := by
    rw [Cursor.next, Cursor.chars_forward, hc]
    exact inLine_tail (hc ▸ hlines) ha
  unfold scanBlock at h ⊢
  obtain ⟨⟨header, d⟩, hheader, h⟩ := bind_eq_ok.mp h
  obtain ⟨hheaderWithin, hheaderReaches, hzero⟩ := scanBlockHeader_within (x := x) hline hheader
  simp only at h
  obtain ⟨gap, hgap, h⟩ := bind_eq_ok.mp h
  obtain ⟨hgapWithin, hgapReaches⟩ := blockGap_within hbehind hgap
  obtain ⟨⟨s, rest'⟩, hblock, h⟩ := bind_eq_ok.mp h
  have hgapReaches : c.next.Reaches gap.rest := hheaderReaches.trans hgapReaches
  -- no line starts in the first column, whether the indentation is given or found
  have hindent : ∀ limit? : Option Nat,
      limit? = header.indent?.map (fun n => if least = 0 then n else least - 1 + n) →
        0 < limit?.getD (max gap.width (max least 1)) := by
    rintro _ rfl
    cases hd : header.indent? with
    | none =>
      show 0 < max gap.width (max least 1)
      omega
    | some n =>
      have hn : n ≠ 0 := by
        rintro rfl
        exact hzero hd
      simp only [Option.map_some, Option.getD_some]
      split <;> omega
  have hfuel : gap.rest.chars.length < (gap.rest.within x).chars.length + 1 := by
    rw [Cursor.chars_within, List.length_append]
    omega
  have hwithin := blockLines_within hbehind (hindent _ rfl)
    (hgapReaches.wholeLines (wholeLines_of_inLine hline))
    (fun hnil => hgapReaches.column_eq_zero hline hnil) (Nat.lt_succ_self _) hfuel hblock
  cases h
  refine ⟨?_, hgapReaches.trans hwithin.2, rfl⟩
  rw [hnext, hheaderWithin]
  refine bind_eq_ok.mpr ⟨_, rfl, ?_⟩
  simp only
  refine bind_eq_ok.mpr ⟨_, hgapWithin, ?_⟩
  exact bind_eq_ok.mpr ⟨_, hwithin.1, rfl⟩

end block

end PulseHits.Yaml
