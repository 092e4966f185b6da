import PulseHits.Proofs.Yaml.Starts

/-!
# Steps within a longer text

What the scanner does with a token is the same within a longer text: places and the positions of
tokens are counted from there, and the text goes on behind (`perform_within`).
-/

namespace PulseHits.Yaml

/-! ## The scanner within a longer text -/

variable (x : Surroundings)

def PossibleKey.within (k : PossibleKey) : PossibleKey :=
  ⟨x.tokens.length + k.position, k.place.within x, k.required⟩

namespace Scanner

/-- A scanner of some lines as one of the text around them. -/
def within (s : Scanner) : Scanner where
  cursor := s.cursor.within x
  tokens := s.tokens ++ x.tokens
  indents := s.indents
  keyAllowed := s.keyAllowed
  flowKeys := s.flowKeys.map (·.map (·.within x))
  blockKey := s.blockKey.map (·.within x)

variable (s : Scanner)

@[simp] theorem inFlow_within : (s.within x).inFlow = s.inFlow := by
  simp [inFlow, within]

@[simp] theorem least_within : (s.within x).least = s.least := rfl

@[simp] theorem cursor_within : (s.within x).cursor = s.cursor.within x := rfl

@[simp] theorem tokens_within : (s.within x).tokens = s.tokens ++ x.tokens := rfl

theorem currentKey_within : (s.within x).currentKey = s.currentKey.map (·.within x) := by
  unfold currentKey within
  cases s.flowKeys <;> rfl

theorem setCurrentKey_within (k? : Option PossibleKey) :
    (s.within x).setCurrentKey (k?.map (·.within x)) = (s.setCurrentKey k?).within x := by
  unfold setCurrentKey within
  cases s.flowKeys <;> rfl

theorem dropKey_within : (s.within x).dropKey = s.dropKey.map (·.within x) := by
  unfold dropKey
  rw [currentKey_within]
  cases s.currentKey with
  | none => rfl
  | some k =>
    simp only [Option.map_some, PossibleKey.within]
    split
    · rfl
    · exact congrArg Except.ok (setCurrentKey_within x s none)

theorem saveKey_within : (s.within x).saveKey = s.saveKey.map (·.within x) := by
  unfold saveKey
  simp only [show (s.within x).keyAllowed = s.keyAllowed from rfl]
  split
  · rw [dropKey_within]
    cases s.dropKey with
    | error e => rfl
    | ok s' =>
      simp only [bind, Except.bind, Except.map, inFlow_within, pure, Except.pure]
      rw [← setCurrentKey_within]
      simp [within, PossibleKey.within, Nat.add_comm]
  · rfl

theorem insertIdx_append {α : Type} {l : List α} {i : Nat} (h : i ≤ l.length) (a : α)
    (later : List α) : (l ++ later).insertIdx i a = l.insertIdx i a ++ later := by
  induction i generalizing l with
  | zero => rfl
  | succ i ih =>
    cases l with
    | nil => cases h
    | cons b l =>
      rw [List.cons_append, List.insertIdx_succ_cons, List.insertIdx_succ_cons,
        ih (Nat.le_of_succ_le_succ h), List.cons_append]

theorem insertAt_within (position : Nat) (t : Token) :
    (s.within x).insertAt (x.tokens.length + position) t = (s.insertAt position t).within x := by
  have hindex : s.tokens.length + x.tokens.length - (x.tokens.length + position) =
      s.tokens.length - position := by
    omega
  unfold insertAt within
  simp only [List.length_append, hindex, insertIdx_append (Nat.sub_le _ _)]

theorem openBlock_within (column position : Nat) (t : Token) :
    (s.within x).openBlock column (x.tokens.length + position) t =
      (s.openBlock column position t).within x := by
  unfold openBlock
  rw [inFlow_within, least_within]
  split
  · exact insertAt_within x { s with indents := column :: s.indents } position t
  · rfl

theorem closeBlocks_within (column? : Option Nat) :
    (s.within x).closeBlocks column? = (s.closeBlocks column?).within x := by
  unfold closeBlocks
  rw [inFlow_within]
  split
  · rfl
  · simp [within]

theorem take_within {count : Nat} (h : count ≤ s.cursor.chars.length) (t : Token) :
    (s.within x).take count t = (s.take count t).within x := by
  unfold take
  simp [within, Cursor.forward_within x _ h]

theorem lapse_within (here : Place) (k? : Option PossibleKey) :
    lapse (here.within x) (k?.map (·.within x)) = (lapse here k?).map (·.map (·.within x)) := by
  cases k? with
  | none => rfl
  | some k =>
    simp only [lapse, Option.map_some, PossibleKey.within, Place.within, Nat.add_assoc,
      Nat.add_lt_add_iff_left]
    split
    · split <;> rfl
    · rfl

theorem lapseKeys_within : (s.within x).lapseKeys = s.lapseKeys.map (·.within x) := by
  have hkeys : ∀ keys : List (Option PossibleKey),
      (keys.map (·.map (·.within x))).mapM (lapse (s.cursor.place.within x)) =
        (keys.mapM (lapse s.cursor.place)).map (·.map (·.map (·.within x))) := by
    intro keys
    induction keys with
    | nil => rfl
    | cons k? keys ih =>
      rw [List.map_cons, List.mapM_cons, List.mapM_cons, lapse_within, ih]
      cases lapse s.cursor.place k? with
      | error e => rfl
      | ok k? => cases keys.mapM (lapse s.cursor.place) <;> rfl
  unfold lapseKeys
  simp only [cursor_within, Cursor.place_within]
  rw [show (s.within x).blockKey = s.blockKey.map (·.within x) from rfl, lapse_within,
    show (s.within x).flowKeys = s.flowKeys.map (·.map (·.within x)) from rfl, hkeys]
  cases lapse s.cursor.place s.blockKey with
  | error e => rfl
  | ok k? => cases s.flowKeys.mapM (lapse s.cursor.place) <;> rfl

variable {x s} {s' : Scanner}

/-- A gap of whole lines ends with them. Outside flow collections a key may start behind them. -/
theorem skipGapFrom_within (inFlow keyAllowed comment : Bool) {chars : List Char} (place : Place)
    (hbehind : startsLine x.behind = true) (hlines : wholeLines chars = true)
    (hcomment : chars = [] → comment = false) :
    let gap := skipGapFrom inFlow chars place keyAllowed comment
    skipGapFrom inFlow (chars ++ x.behind) (place.within x) keyAllowed comment =
        (gap.1.within x, gap.2) ∧
      Cursor.Reaches ⟨chars, place⟩ gap.1 ∧ (∀ c, gap.1.chars.head? = some c → isBreak c = false) ∧
      (gap.1.chars = [] → inFlow = false → (chars = [] → keyAllowed = true) → gap.2 = true) := by
  induction chars generalizing place keyAllowed comment with
  | nil =>
    obtain rfl := hcomment rfl
    refine ⟨?_, .refl _, (fun c hc => by cases hc), fun _ _ hallowed => hallowed rfl⟩
    cases hx : x.behind with
    | nil => simp [skipGapFrom, Cursor.within, hx]
    | cons c behind =>
      rw [hx] at hbehind
      obtain ⟨hblank, hbreak, hhash, hmark⟩ := of_startsLine hbehind
      obtain ⟨hspace, htab⟩ : c ≠ ' ' ∧ c ≠ '\t' := by simpa [isBlank] using hblank
      simp [skipGapFrom, hbreak, hhash, hmark, hspace, htab, Cursor.within, hx]
  | cons c rest ih =>
    have hrest := wholeLines_tail hlines
    have hne : isBreak c = false → rest ≠ [] := fun hc => ne_nil_of_inLine (inLine_tail hlines hc)
    rw [List.cons_append, skipGapFrom, skipGapFrom, Place.after_within, Place.column_within]
    split
    · obtain ⟨hwithin, hreaches, hhead, hallowed⟩ :=
        ih (keyAllowed || !inFlow) false (place.after c) hrest fun _ => rfl
      refine ⟨hwithin, hreaches.cons, hhead, fun hend hblock _ => ?_⟩
      exact hallowed hend hblock fun _ => by simp [hblock]
    · next hbreak =>
      have hne := hne (by simpa using hbreak)
      have hskip : ∀ comment,
          let gap := skipGapFrom inFlow rest (place.after c) keyAllowed comment
          skipGapFrom inFlow (rest ++ x.behind) ((place.after c).within x) keyAllowed comment =
              (gap.1.within x, gap.2) ∧
            Cursor.Reaches ⟨c :: rest, place⟩ gap.1 ∧
            (∀ c, gap.1.chars.head? = some c → isBreak c = false) ∧
            (gap.1.chars = [] → inFlow = false → (c :: rest = [] → keyAllowed = true) →
              gap.2 = true) := by
        intro comment
        obtain ⟨hwithin, hreaches, hhead, hallowed⟩ :=
          ih keyAllowed comment (place.after c) hrest fun hnil => absurd hnil hne
        exact ⟨hwithin, hreaches.cons, hhead,
          fun hend hblock _ => hallowed hend hblock fun hnil => absurd hnil hne⟩
      split
      · exact hskip true
      · split
        · exact hskip true
        · split
          · exact hskip false
          · refine ⟨rfl, .refl _, ?_, fun hend => absurd hend (List.cons_ne_nil _ _)⟩
            intro c' hc'
            cases hc'
            simpa using hbreak

/-- What skipping a gap of whole lines comes to. -/
structure Skipped (s s' : Scanner) : Prop where
  eq : s' = { s with cursor := s'.cursor, keyAllowed := s'.keyAllowed }
  reaches : s.cursor.Reaches s'.cursor
  head : ∀ c, s'.cursor.chars.head? = some c → isBreak c = false
  keyAllowed : s'.cursor.chars = [] → s.inFlow = false →
    (s.cursor.chars = [] → s.keyAllowed = true) → s'.keyAllowed = true

theorem skipGap_within (hbehind : startsLine x.behind = true)
    (hlines : wholeLines s.cursor.chars = true) :
    (s.within x).skipGap = s.skipGap.within x ∧ Skipped s s.skipGap := by
  obtain ⟨hwithin, hreaches, hhead, hallowed⟩ := skipGapFrom_within s.inFlow s.keyAllowed false
    s.cursor.place hbehind hlines fun _ => rfl
  refine ⟨?_, rfl, hreaches, hhead, hallowed⟩
  unfold skipGap
  rw [inFlow_within, cursor_within, Cursor.chars_within, Cursor.place_within,
    show (s.within x).keyAllowed = s.keyAllowed from rfl, hwithin]
  rfl

/-! ## Steps within a longer text -/

/-- Two scanners that differ in their possible keys alone. -/
structure SameButKeys (s s' : Scanner) : Prop where
  cursor : s'.cursor = s.cursor
  tokens : s'.tokens = s.tokens
  indents : s'.indents = s.indents
  keyAllowed : s'.keyAllowed = s.keyAllowed
  inFlow : s'.inFlow = s.inFlow

theorem SameButKeys.least (h : SameButKeys s s') : s'.least = s.least := by
  unfold Scanner.least
  rw [h.indents]

theorem sameButKeys_setCurrentKey (k? : Option PossibleKey) :
    SameButKeys s (s.setCurrentKey k?) := by
  unfold setCurrentKey
  cases hkeys : s.flowKeys with
  | nil => exact ⟨rfl, rfl, rfl, rfl, by simp [inFlow, hkeys]⟩
  | cons k keys => exact ⟨rfl, rfl, rfl, rfl, by simp [inFlow, hkeys]⟩

theorem sameButKeys_dropKey (h : s.dropKey = .ok s') : SameButKeys s s' := by
  unfold dropKey at h
  split at h
  · split at h
    · cases h
    · cases h
      exact sameButKeys_setCurrentKey none
  · cases h
    exact ⟨rfl, rfl, rfl, rfl, rfl⟩

theorem sameButKeys_saveKey (h : s.saveKey = .ok s') : SameButKeys s s' := by
  unfold saveKey at h
  split at h
  · obtain ⟨d, hd, h⟩ := bind_eq_ok.mp h
    have hdrop := sameButKeys_dropKey hd
    cases h
    have hset := sameButKeys_setCurrentKey (s := d) (some ⟨d.tokens.length, d.cursor.place,
      !d.inFlow && d.indents.head? == some d.cursor.place.column⟩)
    exact ⟨hset.cursor.trans hdrop.cursor, hset.tokens.trans hdrop.tokens,
      hset.indents.trans hdrop.indents, hset.keyAllowed.trans hdrop.keyAllowed,
      hset.inFlow.trans hdrop.inFlow⟩
  · cases h
    exact ⟨rfl, rfl, rfl, rfl, rfl⟩

theorem sameButKeys_ofWord {isBlock : Bool} (h : (if isBlock then s.dropKey else s.saveKey) = .ok s') :
    SameButKeys s s' := by
  split at h
  · exact sameButKeys_dropKey h
  · exact sameButKeys_saveKey h

/-- What a step reads is the same within a longer text. -/
def ReadsWithin (x : Surroundings) (s : Scanner) : Start → Prop
  | .directive =>
    scanDirective (s.cursor.within x) = (scanDirective s.cursor).map fun p => (p.1, p.2.within x)
  | .documentMark _ => 3 ≤ s.cursor.chars.length
  | .word w => w.read s.inFlow s.least (s.cursor.within x) =
      (w.read s.inFlow s.least s.cursor).map (·.within x)
  | _ => 1 ≤ s.cursor.chars.length

theorem closeDocument_within : (s.within x).closeDocument = s.closeDocument.map (·.within x) := by
  unfold closeDocument
  rw [closeBlocks_within, dropKey_within]
  cases (s.closeBlocks none).dropKey <;> rfl

theorem cursor_closeDocument (h : s.closeDocument = .ok s') : s'.cursor = s.cursor := by
  obtain ⟨d, hd, h⟩ := bind_eq_ok.mp h
  have hdrop := (sameButKeys_dropKey hd).cursor
  cases h
  refine hdrop.trans ?_
  unfold closeBlocks
  split <;> rfl

theorem cursor_openBlock (s : Scanner) (column position : Nat) (t : Token) :
    (s.openBlock column position t).cursor = s.cursor := by
  unfold openBlock
  split <;> rfl

theorem entry_within (h : 1 ≤ s.cursor.chars.length) (opening t : Token) (allowedAfter : Bool) :
    (s.within x).entry opening t allowedAfter =
      (s.entry opening t allowedAfter).map (·.within x) := by
  have hopen : (s.within x).openBlock (s.within x).cursor.place.column
      (s.within x).tokens.length opening =
        (s.openBlock s.cursor.place.column s.tokens.length opening).within x := by
    rw [tokens_within, List.length_append, Nat.add_comm]
    exact openBlock_within x s _ _ opening
  simp only [entry, inFlow_within, hopen, dropKey_within]
  rw [show (s.within x).keyAllowed = s.keyAllowed from rfl]
  split
  · rfl
  · cases hdrop : (s.openBlock s.cursor.place.column s.tokens.length opening).dropKey with
    | error e => rfl
    | ok s' =>
      have hone : 1 ≤ s'.cursor.chars.length := by
        rw [(sameButKeys_dropKey hdrop).cursor, cursor_openBlock]
        exact h
      exact congrArg Except.ok (take_within x (s'.setKeyAllowed allowedAfter) hone t)

theorem performWord_within {w : Word} (h : ReadsWithin x s (.word w)) :
    (s.within x).perform (.word w) = (s.perform (.word w)).map (·.within x) := by
  have hkey : (if w.isBlock then (s.within x).dropKey else (s.within x).saveKey) =
      (if w.isBlock then s.dropKey else s.saveKey).map (·.within x) := by
    split
    · exact dropKey_within x s
    · exact saveKey_within x s
  simp only [perform, hkey]
  cases hs' : (if w.isBlock then s.dropKey else s.saveKey) with
  | error e => rfl
  | ok s' =>
    have hsame := sameButKeys_ofWord hs'
    have hread : w.read s'.inFlow s'.least (s'.cursor.within x) =
        (w.read s'.inFlow s'.least s'.cursor).map (·.within x) := by
      rw [hsame.inFlow, hsame.least, hsame.cursor]
      exact h
    simp only [bind, Except.bind, Except.map, inFlow_within, least_within, cursor_within, hread]
    cases w.read s'.inFlow s'.least s'.cursor <;> rfl

theorem colon_within (h : 1 ≤ s.cursor.chars.length) :
    (s.within x).colon = s.colon.map (·.within x) := by
  simp only [colon, currentKey_within]
  cases s.currentKey with
  | some k =>
    have hinsert := insertAt_within x s k.position .key
    have hopen := openBlock_within x (s.insertAt k.position .key) k.place.column k.position
      .blockMappingStart
    have hset := setCurrentKey_within x ((s.insertAt k.position .key).openBlock k.place.column
      k.position .blockMappingStart) none
    simp only [Option.map_some, Option.map_none, PossibleKey.within, Place.column_within] at hset ⊢
    rw [hinsert, hopen, hset]
    refine congrArg Except.ok (take_within x (setKeyAllowed _ false) ?_ _)
    show 1 ≤ (setCurrentKey _ none).cursor.chars.length
    rw [(sameButKeys_setCurrentKey none).cursor, cursor_openBlock]
    exact h
  | none =>
    simp only [Option.map_none, inFlow_within]
    rw [show (s.within x).keyAllowed = s.keyAllowed from rfl]
    split
    · rfl
    · have hopen := openBlock_within x s s.cursor.place.column s.tokens.length .blockMappingStart
      rw [tokens_within, List.length_append, Nat.add_comm, cursor_within, Cursor.place_within,
        Place.column_within, hopen, inFlow_within]
      have hone : 1 ≤ (s.openBlock s.cursor.place.column s.tokens.length
          .blockMappingStart).cursor.chars.length := by
        rw [cursor_openBlock]
        exact h
      generalize s.openBlock s.cursor.place.column s.tokens.length .blockMappingStart = s' at hone
      exact congrArg Except.ok (take_within x (s'.setKeyAllowed !s'.inFlow) hone _)

/-- A step does the same within a longer text. -/
theorem perform_within {k : Start} (h : ReadsWithin x s k) :
    (s.within x).perform k = (s.perform k).map (·.within x) := by
  cases k with
  | directive =>
    simp only [perform, closeDocument_within]
    cases hclose : s.closeDocument with
    | error e => rfl
    | ok s' =>
      have hread : scanDirective (s'.within x).cursor =
          (scanDirective s'.cursor).map fun p => (p.1, p.2.within x) := by
        rw [cursor_within, cursor_closeDocument hclose]
        exact h
      simp only [bind, Except.bind, Except.map, hread]
      cases scanDirective s'.cursor <;> rfl
  | documentMark begins =>
    simp only [perform, closeDocument_within]
    cases hclose : s.closeDocument with
    | error e => rfl
    | ok s' => exact congrArg Except.ok (take_within x s' (cursor_closeDocument hclose ▸ h) _)
  | openFlow mapping =>
    simp only [perform, openFlow, saveKey_within]
    cases hsave : s.saveKey with
    | error e => rfl
    | ok s' =>
      have hone : 1 ≤ s'.cursor.chars.length := (sameButKeys_saveKey hsave).cursor ▸ h
      exact congrArg Except.ok (take_within x
        (({ s' with flowKeys := none :: s'.flowKeys } : Scanner).setKeyAllowed true) hone _)
  | closeFlow mapping =>
    simp only [perform, closeFlow, dropKey_within]
    cases hdrop : s.dropKey with
    | error e => rfl
    | ok s' =>
      have hone : 1 ≤ s'.cursor.chars.length := (sameButKeys_dropKey hdrop).cursor ▸ h
      have htake := take_within x
        (({ s' with flowKeys := s'.flowKeys.drop 1 } : Scanner).setKeyAllowed false) hone
        (if mapping then .flowMappingEnd else .flowSequenceEnd)
      simp only [setKeyAllowed, within, List.map_drop] at htake
      exact congrArg Except.ok htake
  | comma =>
    simp only [perform, dropKey_within]
    cases hdrop : s.dropKey with
    | error e => rfl
    | ok s' =>
      have hone : 1 ≤ s'.cursor.chars.length := (sameButKeys_dropKey hdrop).cursor ▸ h
      exact congrArg Except.ok (take_within x (s'.setKeyAllowed true) hone _)
  | word w => exact performWord_within h
  | entry mapping =>
    cases mapping with
    | false => exact entry_within h _ _ _
    | true =>
      simp only [perform, inFlow_within]
      exact entry_within h _ _ _
  | colon => exact colon_within h

end Scanner

end PulseHits.Yaml
