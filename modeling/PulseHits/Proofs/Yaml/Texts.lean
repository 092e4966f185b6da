import PulseHits.Proofs.Yaml.Entries

/-!
# Texts of entries

The entries that a text of whole lines stands for can be told from the text alone
(`blockEntries?`), and a document of such texts has the entries of all of them in their order
(`parse_join`).
-/

namespace PulseHits.Yaml

/-! ## Prepared texts -/

theorem normalizeBreaks_append (a : List Char) {b : List Char} (hb : b.head? ≠ some '\n') :
    normalizeBreaks (a ++ b) = normalizeBreaks a ++ normalizeBreaks b := by
  fun_induction normalizeBreaks a with
  | case1 => rfl
  | case2 r ih => simp [normalizeBreaks, ih]
  | case3 r hr ih =>
    have hne : ∀ r', r ++ b = '\n' :: r' → False := by
      intro r' heq
      cases r with
      | nil => exact hb (by rw [List.nil_append] at heq; rw [heq]; rfl)
      | cons c r =>
        obtain ⟨rfl, -⟩ := List.cons.inj heq
        exact hr r rfl
    rw [List.cons_append, normalizeBreaks.eq_3 _ hne, ih]
    rfl
  | case4 r ih => simp [normalizeBreaks, ih]
  | case5 c r h₁ h₂ h₃ ih =>
    rw [List.cons_append, normalizeBreaks.eq_5 _ _ (fun _ hc _ => h₂ hc) h₂ h₃, ih]
    rfl

theorem prepare?_eq_some {text : String} {chars : List Char} :
    prepare? text = some chars ↔
      text.toList.all isAllowed = true ∧ chars = normalizeBreaks text.toList := by
  unfold prepare?
  simp only
  split
  · next h => simp [h, eq_comm]
  · next h => simp [h]

theorem head?_ne_of_startsLine {chars : List Char} (h : startsLine (normalizeBreaks chars) = true) :
    chars.head? ≠ some '\n' := by
  intro hhead
  obtain ⟨rest, rfl⟩ := List.head?_eq_some_iff.mp hhead
  cases h

/-! ## The scanner at several texts -/

/-- Whole lines that start with a key and give `ts` inside of a mapping. -/
structure IsLines (chars : List Char) (ts : List Token) : Prop where
  starts : startsKey chars = true
  lines : wholeLines chars = true
  document : ∀ a ∈ ts, a.isOfDocument = false
  run : (Scanner.inside chars).run (chars.length + 1) = .ok (ts ++ [.blockEnd])

theorem startsLine_of_startsKey {chars : List Char} (h : startsKey chars = true) :
    startsLine chars = true := by
  cases chars with
  | nil => rfl
  | cons c rest =>
    simp only [startsKey, Bool.and_eq_true] at h
    exact h.1

theorem startsLine_append {chars : List Char} (h : startsKey chars = true) (behind : List Char) :
    startsLine (chars ++ behind) = true := by
  cases chars with
  | nil => cases h
  | cons c rest =>
    have hline := startsLine_of_startsKey h
    exact hline

theorem startsKey_append {chars : List Char} (h : startsKey chars = true)
    (hlines : wholeLines chars = true) (behind : List Char) :
    startsKey (chars ++ behind) = true := by
  cases chars with
  | nil => cases h
  | cons c rest =>
    have hbreak := (of_startsLine (startsLine_of_startsKey h)).2.1
    rw [List.cons_append, startsKey, startOf_append hbreak hlines behind]
    exact h

/-- The characters of several texts and the tokens that they give. -/
abbrev Lines := List Char × List Token

theorem startsLine_flatMap {lines : List Lines} (h : ∀ l ∈ lines, IsLines l.1 l.2) :
    startsLine (lines.flatMap Prod.fst) = true := by
  cases lines with
  | nil => rfl
  | cons l lines => exact startsLine_append (h l List.mem_cons_self).starts _

theorem run_flatMap {lines : List Lines} (h : ∀ l ∈ lines, IsLines l.1 l.2) (place : Place)
    (hcolumn : place.column = 0) (tokens : List Token) {fuel : Nat}
    (hfuel : (lines.flatMap Prod.fst).length < fuel) :
    Scanner.run fuel ⟨⟨lines.flatMap Prod.fst, place⟩, tokens, [0], true, [], none⟩ =
      .ok (tokens.reverse ++ lines.flatMap Prod.snd ++ [.blockEnd]) := by
  induction lines generalizing place tokens fuel with
  | nil =>
    have hrun : (Scanner.behind ⟨0, 0, tokens, []⟩ place []).run fuel = _ :=
      Scanner.run_behind rfl fuel
    exact hrun
  | cons l lines ih =>
    obtain ⟨chars, ts⟩ := l
    obtain ⟨offset, line, column⟩ := place
    simp only at hcolumn
    subst hcolumn
    have hl := h _ List.mem_cons_self
    have hrest : ∀ l ∈ lines, IsLines l.1 l.2 := fun l hl => h l (List.mem_cons_of_mem _ hl)
    let x : Surroundings := ⟨offset, line, tokens, lines.flatMap Prod.fst⟩
    have hwithin : (Scanner.inside chars).within x =
        ⟨⟨chars ++ lines.flatMap Prod.fst, ⟨offset, line, 0⟩⟩, tokens, [0], true, [], none⟩ := by
      simp [Scanner.within, Scanner.inside, Scanner.start, Cursor.within, Place.within, x]
    obtain ⟨place', hcolumn', n, hn, hrun⟩ := Scanner.run_within (x := x)
      (startsLine_flatMap hrest) (Scanner.inMapping_inside hl.lines) (Nat.lt_succ_self _)
      hl.document hl.run
    have hn : n ≤ chars.length := hn
    rw [List.flatMap_cons, List.length_append] at hfuel
    simp only at hfuel
    obtain ⟨fuel', rfl⟩ : ∃ m, fuel = n + m + 1 := ⟨fuel - n - 1, by omega⟩
    rw [List.flatMap_cons, ← hwithin, hrun fuel']
    have hbehind := ih hrest place' hcolumn' (ts.reverse ++ tokens) (show _ < fuel' + 1 by omega)
    rw [List.flatMap_cons]
    simpa [Scanner.behind, x] using hbehind

theorem isLines_flatMap {lines : List Lines} (hne : lines ≠ []) (h : ∀ l ∈ lines, IsLines l.1 l.2) :
    IsLines (lines.flatMap Prod.fst) (lines.flatMap Prod.snd) := by
  refine ⟨?_, ?_, ?_, run_flatMap h ⟨0, 0, 0⟩ rfl [] (Nat.lt_succ_self _)⟩
  · cases lines with
    | nil => exact absurd rfl hne
    | cons l lines =>
      have hl := h l List.mem_cons_self
      exact startsKey_append hl.starts hl.lines _
  · clear hne
    induction lines with
    | nil => rfl
    | cons l lines ih =>
      exact wholeLines_append (h l List.mem_cons_self).lines
        (ih fun l hl => h l (List.mem_cons_of_mem _ hl))
  · intro a ha
    obtain ⟨l, hl, ha⟩ := List.mem_flatMap.mp ha
    exact (h l hl).document a ha

theorem scan_of_isLines {chars : List Char} {ts : List Token} (h : IsLines chars ts) :
    Token.scan chars = .ok (.blockMappingStart :: ts ++ [.blockEnd]) :=
  Scanner.run_start h.starts h.lines (Nat.lt_succ_self _) h.document h.run

/-! ## Texts -/

/-- The entries that a text of whole lines stands for at the left margin of a block mapping. -/
def blockEntries? (text : String) : Option (List (Node × Node)) :=
  match prepare? text with
  | none => none
  | some chars =>
    match (Scanner.inside chars).run (chars.length + 1) with
    | .error _ => none
    | .ok tokens =>
      if startsKey chars && wholeLines chars && tokens.all (!·.isOfDocument) &&
          tokens.getLast? == some .blockEnd then
        mappingDocument? tokens
      else none

/-- The lines of a text, with the tokens in front of the end of the mapping. -/
def linesOf (text : String) : Lines :=
  let chars := (prepare? text).getD []
  match (Scanner.inside chars).run (chars.length + 1) with
  | .error _ => (chars, [])
  | .ok tokens => (chars, tokens.dropLast)

theorem of_blockEntries? {text : String} {entries : List (Node × Node)}
    (h : blockEntries? text = some entries) :
    prepare? text = some (linesOf text).1 ∧ IsLines (linesOf text).1 (linesOf text).2 ∧
      mappingDocument? ((linesOf text).2 ++ [.blockEnd]) = some entries := by
  unfold blockEntries? at h
  split at h
  · cases h
  next chars hchars =>
  split at h
  · cases h
  next tokens hrun =>
  split at h
  · next hlines =>
    simp only [Bool.and_eq_true, beq_iff_eq, List.all_eq_true] at hlines
    obtain ⟨⟨⟨hstarts, hlines⟩, hdocument⟩, hlast⟩ := hlines
    obtain ⟨ts, rfl⟩ := List.getLast?_eq_some_iff.mp hlast
    have hof : linesOf text = (chars, ts) := by
      simp [linesOf, hchars, hrun]
    rw [hof]
    refine ⟨hchars, ⟨hstarts, hlines, fun a ha => ?_, hrun⟩, h⟩
    simpa using hdocument a (List.mem_append_left _ ha)
  · cases h

theorem prepare?_join {texts : List String}
    (h : ∀ t ∈ texts, ∃ entries, blockEntries? t = some entries) :
    prepare? (String.join texts) = some ((texts.map linesOf).flatMap Prod.fst) := by
  rw [prepare?_eq_some, String.toList_join]
  induction texts with
  | nil => exact ⟨rfl, rfl⟩
  | cons t texts ih =>
    have hrest := fun u hu => h u (List.mem_cons_of_mem t hu)
    obtain ⟨hall, hchars⟩ := ih hrest
    obtain ⟨entries, ht⟩ := h t List.mem_cons_self
    obtain ⟨hall', hchars'⟩ := prepare?_eq_some.mp (of_blockEntries? ht).1
    have hline : startsLine ((texts.map linesOf).flatMap Prod.fst) = true := by
      refine startsLine_flatMap fun l hl => ?_
      obtain ⟨u, hu, rfl⟩ := List.mem_map.mp hl
      obtain ⟨entries, hentries⟩ := hrest u hu
      exact (of_blockEntries? hentries).2.1
    rw [List.map_cons, List.flatMap_cons, List.flatMap_cons, List.all_append, hall, hall',
      normalizeBreaks_append _ (head?_ne_of_startsLine (hchars ▸ hline)), ← hchars, ← hchars']
    exact ⟨rfl, rfl⟩

/-- A document of several texts has the entries that each of them stands for. -/
theorem parse_join {texts : List (String × List (Node × Node))} (hne : texts ≠ [])
    (h : ∀ t ∈ texts, blockEntries? t.1 = some t.2) :
    ∃ d entries, Document.parse (String.join (texts.map Prod.fst)) = .ok d ∧
      d.root = .mapping entries ∧ List.Forall₂ KeepsEntry (texts.flatMap Prod.snd) entries := by
  have hprepare : prepare? (String.join (texts.map Prod.fst)) =
      some (((texts.map Prod.fst).map linesOf).flatMap Prod.fst) := by
    refine prepare?_join fun t ht => ?_
    obtain ⟨u, hu, rfl⟩ := List.mem_map.mp ht
    exact ⟨u.2, h u hu⟩
  have hlines : IsLines (((texts.map Prod.fst).map linesOf).flatMap Prod.fst)
      (((texts.map Prod.fst).map linesOf).flatMap Prod.snd) := by
    refine isLines_flatMap (by simpa using hne) fun l hl => ?_
    obtain ⟨t, ht, rfl⟩ := List.mem_map.mp hl
    obtain ⟨u, hu, rfl⟩ := List.mem_map.mp ht
    exact (of_blockEntries? (h u hu)).2.1
  have hparts : ∀ p ∈ texts.map fun t => ((linesOf t.1).2, t.2),
      mappingDocument? (p.1 ++ [.blockEnd]) = some p.2 := by
    intro p hp
    obtain ⟨t, ht, rfl⟩ := List.mem_map.mp hp
    exact (of_blockEntries? (h t ht)).2.2
  obtain ⟨d, entries, hd, hroot, hentries⟩ := ofTokens_parts hparts
  have htokens : (texts.map fun t => ((linesOf t.1).2, t.2)).flatMap Prod.fst =
      ((texts.map Prod.fst).map linesOf).flatMap Prod.snd := by
    simp [List.flatMap_map]
  have hsnd : (texts.map fun t => ((linesOf t.1).2, t.2)).flatMap Prod.snd =
      texts.flatMap Prod.snd := by
    simp [List.flatMap_map]
  rw [htokens] at hd
  rw [hsnd] at hentries
  refine ⟨d, entries, ?_, hroot, hentries⟩
  unfold Document.parse
  rw [hprepare]
  exact bind_eq_ok.mpr ⟨_, scan_of_isLines hlines, hd⟩

end PulseHits.Yaml
