import PulseHits.Proofs.Yaml.Starts
import PulseHits.Yaml.Writer

/-!
# Plain scalars that are written

A text that can stand plain is read as it was written, up to the colon or the break behind it
(`scanPlain_text`).
-/

namespace PulseHits.Yaml

/-! ## Printable characters -/

section printable
variable {c : Char}

theorem isPrintable_eq_false (test : Char) (h : isPrintable test = false)
    (hc : isPrintable c = true) :
    c ≠ test := by
  rintro rfl
  rw [h] at hc
  cases hc

theorem isBlank_of_isPrintable (hc : isPrintable c = true) : isBlank c = isSpace c := by
  have htab : (c == '\t') = false := by
    simpa using isPrintable_eq_false '\t' rfl hc
  rw [isBlank, htab, Bool.or_false]
  rfl

end printable

theorem Place.column_after_ne_zero {c : Char} (hc : isBreak c = false) (p : Place) :
    (p.after c).column ≠ 0 := by
  simp [after, hc]

theorem Fold.chars_addBlank {fold : Fold} (h : fold.hasBreak = false) (c : Char) :
    (fold.addBlank c).chars = c :: fold.chars ∧ (fold.addBlank c).hasBreak = false := by
  cases fold with
  | none => exact ⟨rfl, rfl⟩
  | blanks cs => exact ⟨rfl, rfl⟩
  | breaks first more => cases h

theorem hasPair_tail {p q : Char → Bool} {c : Char} {text : List Char}
    (h : hasPair p q (c :: text) = false) : hasPair p q text = false := by
  cases text with
  | nil => rfl
  | cons d text =>
    rw [hasPair, Bool.or_eq_false_iff] at h
    exact h.2

theorem hasPair_head {p q : Char → Bool} {c : Char} {text : List Char}
    (h : hasPair p q (c :: text) = false) (hc : p c = true) : text.head?.any q = false := by
  cases text with
  | nil => rfl
  | cons d text =>
    rw [hasPair, Bool.or_eq_false_iff, hc] at h
    exact h.1

theorem getLast?_any_tail {p : Char → Bool} {c : Char} {text : List Char}
    (h : (c :: text).getLast?.any p = false) : text.getLast?.any p = false := by
  cases text with
  | nil => rfl
  | cons d text => rwa [List.getLast?_cons_cons] at h

/-! ## Plain texts -/

/-- Only a gap and a mark of a comment, or a colon and a gap, would end the scalar early. -/
theorem plainEnds_eq_false {c : Char} {text rest : List Char} {place : Place} {fold : Fold}
    {indent : Nat} (hfold : fold.hasBreak = false)
    (hcolon : (c == ':' && startsWithGap text) = false)
    (hfirst : fold ≠ .none → (c == '#') = false)
    (hmark : place.column = 0 → startsWithDocumentMark (c :: (text ++ rest)) = false) :
    plainEnds false indent c (text ++ rest) place fold = false := by
  have hdocument : (place.column == 0 && startsWithDocumentMark (c :: (text ++ rest))) = false := by
    by_cases hzero : place.column = 0
    · rw [hmark hzero, Bool.and_false]
    · simp [hzero]
  have hcomment : (c == '#' && fold != .none) = false := by
    by_cases hnone : fold = .none
    · simp [hnone]
    · rw [hfirst hnone, Bool.false_and]
  have hkey : (c == ':' && startsWithGap (text ++ rest)) = false := by
    cases text with
    | nil =>
      have hne : (c == ':') = false := by simpa [startsWithGap] using hcolon
      rw [hne, Bool.false_and]
    | cons d text => exact hcolon
  simp [plainEnds, hfold, hdocument, hcomment, hkey]

theorem plainFrom_text {text rest acc : List Char} {place : Place} {fold : Fold} {indent : Nat}
    (hall : ∀ c ∈ text, isPrintable c = true ∧ isBreak c = false)
    (hcolon : hasKeyColon text = false)
    (hhash : hasPair isGap (· == '#') text = false) (hlast : text.getLast?.any isSpace = false)
    (hfold : fold.hasBreak = false) (hfirst : fold ≠ .none → text.head?.any (· == '#') = false)
    (hmark : place.column = 0 → startsWithDocumentMark (text ++ rest) = false)
    (hend : text = [] → fold = .none) :
    plainFrom false indent (text ++ rest) place acc fold =
      plainFrom false indent rest (text.foldl Place.after place)
        (text.reverse ++ (fold.chars ++ acc)) .none := by
  induction text generalizing place acc fold with
  | nil =>
    rw [hend rfl]
    rfl
  | cons c text ih =>
    obtain ⟨hprintable, hbreak⟩ := hall c List.mem_cons_self
    have htail := fun d hd => hall d (List.mem_cons_of_mem c hd)
    have hcolumn := place.column_after_ne_zero hbreak
    rw [hasKeyColon, Bool.or_eq_false_iff] at hcolon
    rw [List.cons_append, plainFrom]
    by_cases hblank : isBlank c = true
    · rw [if_pos hblank, hfold]
      simp only [Bool.false_and, Bool.false_eq_true, if_false]
      obtain ⟨hchars, hnobreak⟩ := Fold.chars_addBlank hfold c
      have hgap : isGap c = true := by
        rw [isGap, hblank]
        rfl
      have hspace : isSpace c = true := by
        rwa [← isBlank_of_isPrintable hprintable]
      rw [ih htail hcolon.2 (hasPair_tail hhash) (getLast?_any_tail hlast) hnobreak
        (fun _ => hasPair_head hhash hgap) (fun h => absurd h hcolumn) ?_, hchars]
      · simp
      · rintro rfl
        rw [List.getLast?_singleton, Option.any_some, hspace] at hlast
        cases hlast
    · have hends : plainEnds false indent c (text ++ rest) place fold = false :=
        plainEnds_eq_false hfold hcolon.1 hfirst hmark
      rw [if_neg hblank, if_neg (by simp [hbreak]), if_neg (by simp), if_neg (by simp [hends])]
      rw [ih htail hcolon.2 (hasPair_tail hhash) (getLast?_any_tail hlast) rfl
        (fun h => absurd rfl h) (fun h => absurd h hcolumn) (fun _ => rfl)]
      simp [Fold.chars]

/-- What `canBePlain` promises. -/
structure IsPlain (text : List Char) : Prop where
  all : ∀ c ∈ text, isPrintable c = true ∧ isBreak c = false
  indicator : startsLikeIndicator text = false
  colon : hasKeyColon text = false
  hash : hasPair isGap (· == '#') text = false
  first : text.head?.any isSpace = false
  last : text.getLast?.any isSpace = false

theorem isPlain_of_canBePlain {text : List Char} (h : canBePlain text = true) : IsPlain text := by
  simp only [canBePlain, Bool.and_eq_true, Bool.not_eq_true', List.all_eq_true] at h
  obtain ⟨⟨⟨⟨⟨hall, hindicator⟩, hcolon⟩, hhash⟩, hfirst⟩, hlast⟩ := h
  exact ⟨hall, hindicator, hcolon, hhash, hfirst, hlast⟩

theorem startsWithMark_eq_false {mark c : Char} {text rest : List Char}
    (hthree : [mark, mark, mark].isPrefixOf text = false) (hc : (c == mark) = false) :
    startsWithMark mark (text ++ c :: rest) = false := by
  rcases text with _ | ⟨a₁, _ | ⟨a₂, _ | ⟨a₃, text⟩⟩⟩
  · rcases rest with _ | ⟨b₁, _ | ⟨b₂, rest⟩⟩ <;> simp [startsWithMark, hc]
  · rcases rest with _ | ⟨b₁, rest⟩ <;> simp [startsWithMark, hc]
  · simp [startsWithMark, hc]
  · have hmarks : ¬ (a₁ = mark ∧ a₂ = mark ∧ a₃ = mark) := by
      rintro ⟨rfl, rfl, rfl⟩
      simp at hthree
    simp only [List.cons_append, startsWithMark]
    cases hall : a₁ == mark && a₂ == mark && a₃ == mark with
    | false => rfl
    | true => exact absurd (by simpa [and_assoc] using hall) hmarks

namespace IsPlain
variable {text rest : List Char} {c : Char}

theorem not_documentMark (h : IsPlain text) (hdash : (c == '-') = false)
    (hdot : (c == '.') = false) : startsWithDocumentMark (text ++ c :: rest) = false := by
  have hindicator := h.indicator
  cases text with
  | nil =>
    rw [startsWithDocumentMark, startsWithMark_eq_false rfl hdash, startsWithMark_eq_false rfl hdot]
    rfl
  | cons a text =>
    simp only [startsLikeIndicator, Bool.or_eq_false_iff] at hindicator
    rw [startsWithDocumentMark, startsWithMark_eq_false hindicator.1.2 hdash,
      startsWithMark_eq_false hindicator.2 hdot]
    rfl

theorem indicator?_eq_none (h : IsPlain (c :: text)) : indicator? c = none := by
  have hindicator := h.indicator
  simp only [startsLikeIndicator, Bool.or_eq_false_iff, List.contains_eq_mem,
    decide_eq_false_iff_not, List.mem_cons, List.not_mem_nil, not_or] at hindicator
  unfold indicator?
  split <;> simp_all

theorem not_gap (h : IsPlain (c :: text)) (rest : List Char) :
    (['?', ':', '-'].contains c && startsWithGap (text ++ rest)) = false := by
  have hindicator := h.indicator
  simp only [startsLikeIndicator, Bool.or_eq_false_iff] at hindicator
  have hgap := hindicator.1.1.2
  cases text with
  | nil =>
    rw [show startsWithGap [] = true from rfl, Bool.and_true] at hgap
    rw [hgap, Bool.false_and]
  | cons d text => exact hgap

theorem not_gap_of_mem (h : IsPlain (c :: text)) {a : Char} (ha : a ∈ ['?', ':', '-']) :
    (c == a && startsWithGap (text ++ rest)) = false := by
  have hgap := h.not_gap rest
  cases hca : c == a with
  | false => rfl
  | true =>
    obtain rfl := beq_iff_eq.mp hca
    rwa [List.contains_iff_mem.mpr ha] at hgap

theorem startsPlain (h : IsPlain (c :: text)) :
    Scanner.startsPlain false c (text ++ rest) = true := by
  have hgap := h.not_gap rest
  cases hmem : ['?', ':', '-'].contains c with
  | false =>
    obtain ⟨hprintable, hbreak⟩ := h.all c List.mem_cons_self
    have hblank : isBlank c = false := (isBlank_of_isPrintable hprintable).trans h.first
    have hindicator := h.indicator
    simp_all [startsLikeIndicator, Scanner.startsPlain, isGap]
  | true =>
    rw [hmem, Bool.true_and] at hgap
    have hhead : (text ++ rest).head?.any isBlank = false := by
      cases happend : text ++ rest with
      | nil => rfl
      | cons d more =>
        rw [happend] at hgap
        exact (Bool.or_eq_false_iff.mp hgap).1
    rcases List.mem_cons.mp (List.contains_iff_mem.mp hmem) with rfl | hmem
    · simp [Scanner.startsPlain, hgap]
    rcases List.mem_cons.mp hmem with rfl | hmem
    · simp [Scanner.startsPlain, hgap]
    · obtain rfl := List.mem_singleton.mp hmem
      rw [Scanner.startsPlain, hhead]
      simp

theorem startOf (h : IsPlain (c :: text)) {column : Nat}
    (hmark : column = 0 → startsWithDocumentMark (c :: (text ++ rest)) = false) :
    Yaml.startOf false column c (text ++ rest) = some (.word .plain) := by
  have hindicator := h.indicator
  simp only [startsLikeIndicator, Bool.or_eq_false_iff, List.contains_eq_mem,
    decide_eq_false_iff_not, List.mem_cons, List.not_mem_nil, not_or] at hindicator
  have hpercent : (c == '%') = false := by simp [hindicator]
  have hbar : (c == '|') = false := by simp [hindicator]
  have hangle : (c == '>') = false := by simp [hindicator]
  have hmarks : (column == 0 && startsWithMark '-' (c :: (text ++ rest))) = false ∧
      (column == 0 && startsWithMark '.' (c :: (text ++ rest))) = false := by
    by_cases hzero : column = 0
    · have hmark := hmark hzero
      rw [startsWithDocumentMark, Bool.or_eq_false_iff] at hmark
      simp [hmark]
    · simp [hzero]
  simp only [Yaml.startOf, hpercent, Bool.and_false, hmarks, h.indicator?_eq_none,
    Option.isSome_none, h.not_gap_of_mem (a := '-') (by simp), Bool.false_or,
    h.not_gap_of_mem (a := '?') (by simp), h.not_gap_of_mem (a := ':') (by simp), hbar,
    Bool.false_and, hangle, h.startsPlain, Bool.false_eq_true, if_false, if_true]

theorem scanPlain (h : IsPlain text) {place : Place} {indent : Nat}
    (hmark : place.column = 0 → startsWithDocumentMark (text ++ rest) = false) :
    scanPlain false indent ⟨text ++ rest, place⟩ =
      plainFrom false indent rest (text.foldl Place.after place) text.reverse .none := by
  rw [Yaml.scanPlain, plainFrom_text h.all h.colon h.hash h.last rfl (fun h => absurd rfl h) hmark
    fun _ => rfl, Fold.chars, List.append_nil, List.append_nil]

end IsPlain

end PulseHits.Yaml
