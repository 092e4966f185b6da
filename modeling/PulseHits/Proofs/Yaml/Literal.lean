import PulseHits.Proofs.Yaml.Plain

/-!
# Block scalars that are written

A text with line feeds is written as a literal block, whose marks tell what the lines alone do not:
where the indentation ends if the text starts with a blank or a break, and how many breaks there are
at the end (`scanBlock_literal`).
-/

namespace PulseHits.Yaml

/-! ## The marks -/

/-- What a literal block says about the breaks at its end. -/
def chompingOf (text : List Char) : Chomping :=
  match text.reverse with
  | [] => .strip
  | last :: before =>
    if !isBreak last then .strip else if before.head?.all isBreak then .keep else .clip

/-- Whether the indentation cannot be told from the first line. -/
def startsBlank (text : List Char) : Bool :=
  text.head?.any fun c => isSpace c || isBreak c

def chompingMark : Chomping → List Char
  | .strip => ['-']
  | .clip => []
  | .keep => ['+']

theorem literalMarks_eq (text : List Char) :
    literalMarks text =
      (if startsBlank text then ['2'] else []) ++ chompingMark (chompingOf text) := by
  unfold literalMarks startsBlank chompingOf
  simp only
  congr 1
  cases text.reverse with
  | nil => rfl
  | cons last before =>
    simp only
    split
    · rfl
    · split <;> rfl

theorem scanBlockHeader_marks (digit : Bool) (chomping : Chomping) (rest : List Char)
    (place : Place) :
    ∃ place' : Place, place'.column = 0 ∧
      scanBlockHeader
          ⟨(if digit then ['2'] else []) ++ chompingMark chomping ++ '\n' :: rest, place⟩ =
        .ok (⟨chomping, if digit then some 2 else none⟩, ⟨rest, place'⟩) := by
  cases digit <;> cases chomping <;> exact ⟨_, rfl, rfl⟩

/-! ## Gaps between lines -/

/-- The break behind a text that does not end with one. -/
def lineEnd (text : List Char) : List Char :=
  if wholeLines text then [] else ['\n']

theorem lineEnd_append {lines : List Char} (h : wholeLines lines = true) (text : List Char) :
    lineEnd (lines ++ text) = lineEnd text := by
  cases text with
  | nil => rw [List.append_nil, lineEnd, if_pos h, lineEnd, if_pos wholeLines_nil]
  | cons c text =>
    have hlast : (lines ++ c :: text).getLast? = (c :: text).getLast? := by
      rw [List.getLast?_append, List.getLast?_eq_some_getLast (List.cons_ne_nil c text)]
      rfl
    rw [lineEnd, wholeLines, hlast]
    rfl

theorem wholeLines_takeWhile_isBreak (text : List Char) :
    wholeLines (text.takeWhile isBreak) = true := by
  rw [wholeLines, Option.all_eq_true]
  intro c hc
  exact List.all_eq_true.mp List.all_takeWhile c (List.mem_of_getLast? hc)

theorem Place.column_after {c : Char} (hc : isBreak c = false) (p : Place) :
    (p.after c).column = p.column + 1 := by
  simp [after, hc]

theorem blockGap_valueIndent {limit? : Option Nat} {c : Char} {place : Place}
    (hc : isBreak c = false) (hcolumn : place.column = 0)
    (hlimit : limit? = some 2 ∨ limit? = none ∧ isBlank c = false)
    (rest breaks : List Char) (width : Nat) :
    ∃ place' : Place, place'.column = 2 ∧
      blockGap limit? (valueIndent ++ c :: rest) place breaks width =
        .ok ⟨breaks, ⟨c :: rest, place'⟩, max width 2⟩ := by
  have hone : (place.after ' ').column = 1 := by rw [Place.column_after rfl, hcolumn]
  have htwo : ((place.after ' ').after ' ').column = 2 := by rw [Place.column_after rfl, hone]
  refine ⟨(place.after ' ').after ' ', htwo, ?_⟩
  rcases hlimit with rfl | ⟨rfl, hblank⟩
  · simp [valueIndent, blockGap, hcolumn, hone, htwo, hc]
  · rw [isBlank, Bool.or_eq_false_iff] at hblank
    simp [valueIndent, blockGap, htwo, hc, hblank.1, hblank.2]

/-- What is left of a written text behind the indentation of its first line. -/
def written (text : List Char) : List Char :=
  indentLines false text ++ lineEnd text

theorem indentLines_visible {c : Char} (hc : isBreak c = false) (lineStart : Bool)
    (text : List Char) :
    indentLines lineStart (c :: text) =
      (if lineStart then valueIndent else []) ++ indentLines false (c :: text) := by
  simp [indentLines, hc]

theorem length_le_indentLines (lineStart : Bool) (text : List Char) :
    text.length ≤ (indentLines lineStart text).length := by
  induction text generalizing lineStart with
  | nil => exact Nat.le_refl _
  | cons c text ih =>
    have htrue := ih true
    have hfalse := ih false
    rw [indentLines]
    split
    · rw [List.length_cons, List.length_cons]
      omega
    · rw [List.length_append, List.length_cons, List.length_cons]
      omega

theorem blockGap_indentLines (text breaks : List Char) {place : Place} (hcolumn : place.column = 0)
    (width : Nat) :
    ∃ (place' : Place) (width' : Nat), (text.dropWhile isBreak ≠ [] → place'.column = 2) ∧
      blockGap (some 2) (indentLines true text ++ lineEnd text) place breaks width =
        .ok ⟨(text.takeWhile isBreak).reverse ++ breaks,
          ⟨written (text.dropWhile isBreak), place'⟩, width'⟩ := by
  induction text generalizing place breaks width with
  | nil => exact ⟨place, _, fun h => absurd rfl h, rfl⟩
  | cons c text ih =>
    by_cases hc : isBreak c = true
    · have hcolumn' : (place.after c).column = 0 := by simp [Place.after, hc]
      have hblank := isBlank_of_isBreak hc
      rw [isBlank, Bool.or_eq_false_iff] at hblank
      obtain ⟨place', width', hplace', heq⟩ := ih (c :: breaks) hcolumn' (max width place.column)
      have hend : lineEnd (c :: text) = lineEnd text := @lineEnd_append [c] hc text
      rw [List.takeWhile_cons_of_pos hc, List.dropWhile_cons_of_pos hc, hend, indentLines,
        if_pos hc, List.cons_append, blockGap]
      simp only [hblank.1, hblank.2, Bool.false_and, Bool.false_eq_true, if_false, hc, if_true]
      refine ⟨place', width', hplace', ?_⟩
      rw [heq]
      simp
    · have hvisible := Bool.eq_false_iff.mpr hc
      obtain ⟨place', hplace', heq⟩ := blockGap_valueIndent hvisible hcolumn (.inl rfl)
        (indentLines false text ++ lineEnd (c :: text)) breaks width
      rw [List.takeWhile_cons_of_neg hc, List.dropWhile_cons_of_neg hc]
      refine ⟨place', max width 2, fun _ => hplace', ?_⟩
      rw [indentLines_visible hvisible, if_pos rfl, List.append_assoc]
      have hhead : indentLines false (c :: text) = c :: indentLines false text := by
        simp [indentLines, hvisible]
      rw [written, hhead]
      exact heq

/-! ## Lines -/

theorem indentLines_line {line : List Char} (h : ∀ c ∈ line, isBreak c = false)
    (rest : List Char) : indentLines false (line ++ rest) = line ++ indentLines false rest := by
  induction line with
  | nil => rfl
  | cons c line ih =>
    rw [List.cons_append, indentLines, if_neg (by simp [h c List.mem_cons_self]),
      ih fun d hd => h d (List.mem_cons_of_mem c hd)]
    rfl

theorem written_line {text : List Char} (hne : text ≠ []) :
    ∃ (line : List Char) (b : Char) (more : List Char), (∀ c ∈ line, isBreak c = false) ∧
      isBreak b = true ∧ more.length < text.length ∧
      written text = line ++ b :: (indentLines true more ++ lineEnd more) ∧
      text ++ lineEnd text = line ++ b :: (more ++ lineEnd more) := by
  have hsplit := List.takeWhile_append_dropWhile (p := fun c => !isBreak c) (l := text)
  have hline : ∀ c ∈ text.takeWhile (fun c => !isBreak c), isBreak c = false := fun c hc => by
    simpa using List.all_eq_true.mp List.all_takeWhile c hc
  generalize text.takeWhile (fun c => !isBreak c) = line at hsplit hline
  cases hrest : text.dropWhile (fun c => !isBreak c) with
  | nil =>
    rw [hrest, List.append_nil] at hsplit
    subst hsplit
    have hend : lineEnd line = ['\n'] := by
      rw [lineEnd, wholeLines, List.getLast?_eq_some_getLast hne, Option.all_some,
        hline _ (List.getLast_mem hne)]
      rfl
    refine ⟨line, '\n', [], hline, rfl, List.length_pos_iff.mpr hne, ?_, ?_⟩
    · rw [written, hend]
      have := indentLines_line hline []
      rw [List.append_nil] at this
      rw [this]
      simp [indentLines, lineEnd, wholeLines_nil]
    · rw [hend]
      simp [lineEnd, wholeLines_nil]
  | cons b more =>
    have hb : isBreak b = true := by
      have := List.head?_dropWhile_not (fun c => !isBreak c) text
      rw [hrest] at this
      simpa using this
    rw [hrest] at hsplit
    subst hsplit
    have hwhole : wholeLines (line ++ [b]) = true := by
      rw [wholeLines, List.getLast?_concat]
      exact hb
    have hend : lineEnd (line ++ b :: more) = lineEnd more := by
      rw [← lineEnd_append hwhole more, List.append_assoc, List.singleton_append]
    refine ⟨line, b, more, hline, hb, ?_, ?_, ?_⟩
    · rw [List.length_append, List.length_cons]
      omega
    · rw [written, hend, indentLines_line hline, indentLines, if_pos hb]
      simp
    · rw [hend]
      simp

/-- All that has been read of a block scalar, latest character first. -/
def BlockState.all (s : BlockState) : List Char :=
  s.empties ++ s.lineBreak ++ s.text

/-- A line has been read to its end. -/
structure BlockState.Ended (s : BlockState) : Prop where
  lineBreak : ∃ b, isBreak b = true ∧ s.lineBreak = [b]
  empties : ∀ b ∈ s.empties, isBreak b = true

/-- The lines of a written text are read to its end, and nothing of it is lost. -/
theorem blockLines_written (text : List Char) {fuel : Nat} {place : Place} {s : BlockState}
    (hfuel : text.length < fuel) (hcolumn : text ≠ [] → place.column = 2) :
    ∃ (s' : BlockState) (place' : Place),
      blockLines false 2 fuel ⟨written text, place⟩ s = .ok (s', ⟨[], place'⟩) ∧
        s'.all = (text ++ lineEnd text).reverse ++ s.all ∧ (text = [] ∧ s' = s ∨ s'.Ended) := by
  induction fuel generalizing text place s with
  | zero => omega
  | succ fuel ih =>
    by_cases hne : text = []
    · subst hne
      exact ⟨s, place, rfl, rfl, .inl ⟨rfl, rfl⟩⟩
    · obtain ⟨line, b, more, hline, hb, hmore, hchars, hall⟩ := written_line hne
      have htake : (line ++ b :: (indentLines true more ++ lineEnd more)).takeWhile
          (fun c => !isBreak c) = line := by
        rw [List.takeWhile_append_of_pos fun c hc => by simp [hline c hc],
          List.takeWhile_cons_of_neg (by simp [hb]), List.append_nil]
      have hskip : (⟨line ++ b :: (indentLines true more ++ lineEnd more), place⟩ :
          Cursor).skipWhile (fun c => !isBreak c) =
            ⟨b :: (indentLines true more ++ lineEnd more), line.foldl Place.after place⟩ := by
        rw [Cursor.skipWhile, htake]
        simp [Cursor.forward]
      obtain ⟨a, ha⟩ : ∃ a, (line ++ b :: (indentLines true more ++ lineEnd more)).head? = some a :=
        ⟨_, List.head?_eq_some_head (by simp)⟩
      have hbreak : ((line.foldl Place.after place).after b).column = 0 := by
        simp [Place.after, hb]
      obtain ⟨place₁, width₁, hplace₁, hgap⟩ := blockGap_indentLines more [] hbreak 0
      obtain ⟨s', place', hread, hs', hended⟩ := ih (more.dropWhile isBreak)
        (s := ⟨line.reverse ++ (s.joint false (isBlank a) ++ s.text), [b],
          (more.takeWhile isBreak).reverse, isBlank a⟩)
        (by have := (List.dropWhile_suffix isBreak (l := more)).length_le; omega) hplace₁
      refine ⟨s', place', ?_, ?_, ?_⟩
      · rw [hchars, blockLines_of_line (hcolumn hne) ha (by rw [hskip]; rfl), hskip, htake]
        simp only [Cursor.next_cons, hgap]
        rw [List.append_nil]
        exact hread
      · have hend : more ++ lineEnd more = more.takeWhile isBreak ++
            (more.dropWhile isBreak ++ lineEnd (more.dropWhile isBreak)) := by
          rw [← lineEnd_append (wholeLines_takeWhile_isBreak more) (more.dropWhile isBreak),
            ← List.append_assoc, List.takeWhile_append_dropWhile]
        rw [hs', hall, hend]
        simp [BlockState.all, BlockState.joint]
      · refine .inr (hended.elim ?_ id)
        rintro ⟨-, rfl⟩
        exact ⟨⟨b, hb, rfl⟩, fun e he =>
          List.all_eq_true.mp List.all_takeWhile e (List.mem_reverse.mp he)⟩

/-! ## Whole blocks -/

theorem BlockState.Ended.empties_eq_nil {s : BlockState} {b : Char} {before : List Char}
    (h : s.Ended) (hall : s.all = b :: before) (hbefore : before.head?.any isBreak = false) :
    s.lineBreak ++ s.text = b :: before ∧ s.text = before := by
  obtain ⟨e, he, hbreak⟩ := h.lineBreak
  rw [all, hbreak] at hall
  cases hempties : s.empties with
  | nil =>
    rw [hempties] at hall
    rw [hbreak]
    refine ⟨hall, ?_⟩
    simpa using (List.cons.inj hall).2
  | cons e' empties =>
    rw [hempties] at hall
    -- the second character from the end would be a break
    have hsecond : before = empties ++ [e] ++ s.text := (List.cons.inj hall).2.symm
    have hhead : ∃ a, isBreak a = true ∧ before.head? = some a := by
      cases empties with
      | nil => exact ⟨e, he, by rw [hsecond]; rfl⟩
      | cons a empties =>
        exact ⟨a, h.empties a (by simp [hempties]), by rw [hsecond]; rfl⟩
    obtain ⟨a, ha, hhead⟩ := hhead
    rw [hhead, Option.any_some, ha] at hbefore
    cases hbefore

/-- What is left of a block scalar by what its header says about the breaks at its end. -/
def BlockState.chomped (s : BlockState) : Chomping → List Char
  | .strip => s.text
  | .clip => s.lineBreak ++ s.text
  | .keep => s.empties ++ s.lineBreak ++ s.text

/-- The marks of a text keep just its own breaks at its end. -/
theorem chomp_written {text : List Char} {s : BlockState} (hne : text ≠ [])
    (hall : s.all = (text ++ lineEnd text).reverse)
    (hended : (∀ c ∈ text, isBreak c = true) ∨ s.Ended) :
    s.chomped (chompingOf text) = text.reverse := by
  have hended : ∀ c ∈ text.reverse, isBreak c = false → s.Ended := fun c hc hvisible => by
    refine hended.resolve_left fun hbreaks => ?_
    rw [hbreaks c (List.mem_reverse.mp hc)] at hvisible
    cases hvisible
  rw [List.reverse_append, lineEnd] at hall
  cases hreverse : text.reverse with
  | nil => exact absurd (List.reverse_eq_nil_iff.mp hreverse) hne
  | cons last before =>
    have hwhole : wholeLines text = isBreak last := by
      rw [wholeLines, List.getLast?_eq_head?_reverse, hreverse]
      rfl
    rw [hreverse] at hall hended
    cases hbreak : isBreak last with
    | false =>
      have hchomping : chompingOf text = .strip := by simp [chompingOf, hreverse, hbreak]
      rw [if_neg (by simp [hwhole, hbreak])] at hall
      rw [hchomping]
      exact ((hended last List.mem_cons_self hbreak).empties_eq_nil hall hbreak).2
    | true =>
      rw [if_pos (hwhole.trans hbreak)] at hall
      cases before with
      | nil =>
        have hchomping : chompingOf text = .keep := by simp [chompingOf, hreverse, hbreak]
        rw [hchomping]
        exact hall
      | cons d before =>
        cases hvisible : isBreak d with
        | true =>
          have hchomping : chompingOf text = .keep := by
            simp [chompingOf, hreverse, hbreak, hvisible]
          rw [hchomping]
          exact hall
        | false =>
          have hchomping : chompingOf text = .clip := by
            simp [chompingOf, hreverse, hbreak, hvisible]
          have hended := hended d (List.mem_cons_of_mem last List.mem_cons_self) hvisible
          rw [hchomping]
          exact (hended.empties_eq_nil hall hvisible).1

theorem blockGap_literal {text : List Char} (hne : text ≠ [])
    (hprintable : ∀ c ∈ text, isPrintable c = true) {place : Place} (hcolumn : place.column = 0) :
    ∃ (place' : Place) (width : Nat), (text.dropWhile isBreak ≠ [] → place'.column = 2) ∧
      (if startsBlank text then some 2 else none).getD (max width (max 1 1)) = 2 ∧
      blockGap (if startsBlank text then some 2 else none) (indentLines true text ++ lineEnd text)
        place [] 0 = .ok ⟨(text.takeWhile isBreak).reverse,
          ⟨written (text.dropWhile isBreak), place'⟩, width⟩ := by
  cases hblank : startsBlank text with
  | true =>
    obtain ⟨place', width, hcolumn', hgap⟩ := blockGap_indentLines text [] hcolumn 0
    rw [List.append_nil] at hgap
    exact ⟨place', width, hcolumn', rfl, hgap⟩
  | false =>
    obtain ⟨c, text, rfl⟩ := List.exists_cons_of_ne_nil hne
    have hvisible : isSpace c = false ∧ isBreak c = false := by simpa [startsBlank] using hblank
    have hnoBlank : isBlank c = false := by
      rw [isBlank_of_isPrintable (hprintable c List.mem_cons_self)]
      exact hvisible.1
    obtain ⟨place', hcolumn', hgap⟩ := blockGap_valueIndent hvisible.2 hcolumn
      (.inr ⟨rfl, hnoBlank⟩) (indentLines false text ++ lineEnd (c :: text)) [] 0
    have hneg : ¬isBreak c = true := Bool.eq_false_iff.mp hvisible.2
    refine ⟨place', 2, fun _ => hcolumn', rfl, ?_⟩
    rw [List.takeWhile_cons_of_neg hneg, List.dropWhile_cons_of_neg hneg, written,
      indentLines_visible hvisible.2, if_pos rfl, indentLines, if_neg hneg]
    simpa using hgap

/-- A text with line feeds is read back from its literal block. -/
theorem scanBlock_literal {text : List Char} (hne : text ≠ [])
    (hprintable : ∀ c ∈ text, isPrintable c = true) (place : Place) :
    ∃ place' : Place, scanBlock false 1 ⟨literal text ++ lineEnd text, place⟩ =
      .ok ⟨text, ⟨[], place'⟩, true⟩ := by
  obtain ⟨place₁, hcolumn, hheader⟩ := scanBlockHeader_marks (startsBlank text) (chompingOf text)
    (indentLines true text ++ lineEnd text) (place.after '|')
  obtain ⟨place₂, width, hcolumn₂, hindent, hgap⟩ := blockGap_literal hne hprintable hcolumn
  have hfuel : (text.dropWhile isBreak).length < (written (text.dropWhile isBreak)).length + 1 := by
    have := length_le_indentLines false (text.dropWhile isBreak)
    rw [written, List.length_append]
    omega
  obtain ⟨s, place₃, hlines, hall, hended⟩ := blockLines_written (text.dropWhile isBreak)
    (s := ⟨[], [], (text.takeWhile isBreak).reverse, false⟩) hfuel hcolumn₂
  have hall : s.all = (text ++ lineEnd text).reverse := by
    have hend := lineEnd_append (wholeLines_takeWhile_isBreak text) (text.dropWhile isBreak)
    rw [List.takeWhile_append_dropWhile] at hend
    rw [hall, ← hend, BlockState.all]
    simp only [List.append_nil]
    rw [← List.reverse_append, ← List.append_assoc, List.takeWhile_append_dropWhile]
  have hended : (∀ c ∈ text, isBreak c = true) ∨ s.Ended := by
    refine hended.imp_left fun h c hc => ?_
    have hbreaks := List.takeWhile_append_dropWhile (p := isBreak) (l := text)
    rw [h.1, List.append_nil] at hbreaks
    rw [← hbreaks] at hc
    exact List.all_eq_true.mp List.all_takeWhile c hc
  refine ⟨place₃, ?_⟩
  have hchars : literal text ++ lineEnd text =
      '|' :: ((if startsBlank text then ['2'] else []) ++ chompingMark (chompingOf text) ++
        '\n' :: (indentLines true text ++ lineEnd text)) := by
    simp [literal, literalMarks_eq]
  have hlimit : ((if startsBlank text then some 2 else none : Option Nat).map
      fun n => if 1 = 0 then n else 1 - 1 + n) = if startsBlank text then some 2 else none := by
    cases startsBlank text <;> rfl
  rw [hchars, scanBlock, Cursor.next_cons, hheader]
  show (blockGap (Option.map _ _) _ _ _ _ >>= _) = _
  rw [hlimit, hgap]
  show (blockLines false (Option.getD _ _) _ _ _ >>= _) = _
  rw [hindent, hlines]
  show Except.ok (⟨(s.chomped (chompingOf text)).reverse, _, _⟩ : Scanned) = _
  rw [chomp_written hne hall hended, List.reverse_reverse]

end PulseHits.Yaml
