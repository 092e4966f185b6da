import PulseHits.Proofs.Yaml.Lines

/-!
# The first line of a mapping

A mapping is opened at the colon behind its first key, or at the mark of an explicit key. From there
on the scanner stands in the mapping as if it had been open from the start (`run_start`).
-/

namespace PulseHits.Yaml

/-- Whether a text starts with a key in the first column. -/
def startsKey : List Char → Bool
  | [] => false
  | c :: rest =>
    startsLine (c :: rest) &&
      match startOf false 0 c rest with
      | some (.openFlow _) => true
      | some (.word w) => !w.isBlock
      | some (.entry mapping) => mapping
      | _ => false

/-- A plain scalar that stays in its line may start in any column. -/
theorem plainFrom_zero {inFlow : Bool} {indent : Nat} {chars text : List Char} {place : Place}
    {fold : Fold} {r : Scanned} (hfold : fold.hasBreak = false)
    (h : plainFrom inFlow indent chars place text fold = .ok r)
    (hline : r.rest.place.line ≤ place.line) : plainFrom inFlow 0 chars place text fold = .ok r := by
  induction chars generalizing place text fold with
  | nil => exact h
  | cons c rest ih =>
    have hends : ∀ indent, plainEnds inFlow indent c rest place fold =
        plainEnds inFlow 0 c rest place fold := by
      intro indent
      simp [plainEnds, hfold]
    rw [plainFrom] at h ⊢
    simp only [hfold, Bool.false_and, Bool.false_eq_true, if_false] at h ⊢
    have hafter : isBreak c = false → (place.after c).line = place.line := by
      intro hbreak
      simp [Place.after, hbreak]
    split at h
    · next hblank =>
      rw [if_pos hblank]
      refine ih ?_ h (hafter (isBreak_of_isBlank hblank) ▸ hline)
      cases fold <;> first | rfl | cases hfold
    · next hblank =>
      rw [if_neg hblank]
      split at h
      · next hbreak =>
        -- the scalar would end in a later line
        have hle : (place.after c).line ≤ r.rest.place.line := (plainFrom_reaches h).line_le
        simp only [Place.after, hbreak, if_true] at hle
        omega
      · next hbreak =>
        rw [if_neg hbreak]
        split at h
        · cases h
        · next hcolon =>
          rw [if_neg hcolon]
          rw [hends] at h
          split at h
          · next hend =>
            rw [if_pos hend]
            exact h
          · next hend =>
            rw [if_neg hend]
            exact ih rfl h (hafter (by simpa using hbreak) ▸ hline)

namespace Scanner

/-! ## In front of the first colon -/

/-- A scanner for which the mapping is not open yet. -/
def unopened (s : Scanner) : Scanner :=
  { s with indents := [], blockKey := s.blockKey.map ({ · with required := false }) }

/-- A scanner that comes to the colon behind the first key. -/
structure Pending (s : Scanner) : Prop where
  inMapping : InMapping s
  indents : s.indents = [0]
  blockKey : s.blockKey = some ⟨0, ⟨0, 0, 0⟩, true⟩

section pending
variable {s t : Scanner} {c : Char} {rest : List Char} {k : Start}

theorem dropKey_unopened (hkey : s.blockKey = some ⟨0, ⟨0, 0, 0⟩, true⟩) (h : s.dropKey = .ok t) :
    s.unopened.dropKey = .ok t.unopened ∧ s.inFlow = true ∧ t.blockKey = s.blockKey := by
  obtain ⟨cursor, tokens, indents, keyAllowed, flowKeys, blockKey⟩ := s
  cases flowKeys with
  | nil =>
    simp only at hkey
    subst hkey
    cases h
  | cons k? flowKeys =>
    cases k? with
    | none =>
      cases h
      exact ⟨rfl, rfl, rfl⟩
    | some k =>
      simp only [dropKey, currentKey, setCurrentKey, unopened] at h ⊢
      split at h
      · cases h
      · next hrequired =>
        cases h
        exact ⟨if_neg hrequired, rfl, rfl⟩

theorem saveKey_unopened (hkey : s.blockKey = some ⟨0, ⟨0, 0, 0⟩, true⟩) (h : s.saveKey = .ok t) :
    s.unopened.saveKey = .ok t.unopened ∧ t.blockKey = s.blockKey := by
  unfold saveKey at h ⊢
  rw [show s.unopened.keyAllowed = s.keyAllowed from rfl]
  split at h
  · next hallowed =>
    rw [if_pos hallowed]
    obtain ⟨d, hd, h⟩ := bind_eq_ok.mp h
    obtain ⟨hdrop, hflow, hkeyd⟩ := dropKey_unopened hkey hd
    have hflow : d.inFlow = true := (sameButKeys_dropKey hd).inFlow.trans hflow
    rw [hdrop]
    obtain ⟨cursor, tokens, indents, keyAllowed, flowKeys, blockKey⟩ := d
    cases flowKeys with
    | nil => cases hflow
    | cons k? flowKeys =>
      cases h
      exact ⟨rfl, hkeyd⟩
  · next hallowed =>
    rw [if_neg hallowed]
    cases h
    exact ⟨rfl, rfl⟩

theorem openBlock_of_inFlow (hflow : s.inFlow = true) (column position : Nat) (a : Token) :
    s.openBlock column position a = s := by
  unfold openBlock
  rw [hflow]
  rfl

theorem read_zero {w : Word} {inFlow : Bool} {least : Nat} {d : Cursor} {l : Lexeme}
    (hblock : w.isBlock = false) (h : w.read inFlow least d = .ok l)
    (hline : l.rest.place.line ≤ d.place.line) : w.read inFlow 0 d = .ok l := by
  cases w with
  | plain =>
    obtain ⟨r, hr, rfl⟩ := map_eq_ok.mp h
    exact map_eq_ok.mpr ⟨r, plainFrom_zero rfl hr hline, rfl⟩
  | block folded => cases hblock
  | _ => exact h

theorem entry_unopened {opening a : Token} {allowedAfter : Bool}
    (hkey : s.blockKey = some ⟨0, ⟨0, 0, 0⟩, true⟩) (hindents : s.indents = [0])
    (h : s.entry opening a allowedAfter = .ok t) :
    s.unopened.entry opening a allowedAfter = .ok t.unopened ∧ t.indents = [0] ∧
      t.blockKey = s.blockKey := by
  unfold entry at h ⊢
  split at h
  · cases h
  next hallowed =>
  obtain ⟨d, hd, h⟩ := bind_eq_ok.mp h
  have hkey' :=
    (blockKey_openBlock (s := s) s.cursor.place.column s.tokens.length opening).trans hkey
  obtain ⟨-, hflow, -⟩ := dropKey_unopened hkey' hd
  have hflow : s.inFlow = true := by
    unfold openBlock at hflow
    split at hflow <;> exact hflow
  rw [openBlock_of_inFlow hflow] at hd
  obtain ⟨hdrop, -, hkeyd⟩ := dropKey_unopened hkey hd
  have hflow' : s.unopened.inFlow = true := hflow
  cases h
  refine ⟨?_, (sameButKeys_dropKey hd).indents.trans hindents, hkeyd⟩
  rw [openBlock_of_inFlow hflow', if_neg (by simp [hflow'])]
  exact bind_eq_ok.mpr ⟨_, hdrop, rfl⟩

theorem performWord_unopened {w : Word} (hkey : s.blockKey = some ⟨0, ⟨0, 0, 0⟩, true⟩)
    (hindents : s.indents = [0]) (hblock : s.inFlow = true → w.isBlock = false)
    (h : s.perform (.word w) = .ok t)
    (hline : t.blockKey = s.blockKey → t.cursor.place.line ≤ s.cursor.place.line) :
    s.unopened.perform (.word w) = .ok t.unopened ∧ t.indents = [0] ∧ t.blockKey = s.blockKey := by
  obtain ⟨d, hd, h⟩ := bind_eq_ok.mp h
  obtain ⟨l, hl, rfl⟩ := map_eq_ok.mp h
  -- a block scalar would have to give up the key
  have hw : w.isBlock = false := by
    cases hw : w.isBlock with
    | false => rfl
    | true =>
      rw [hw] at hd
      exact hw.symm.trans (hblock (dropKey_unopened hkey hd).2.1)
  rw [hw] at hd
  obtain ⟨hsave, hkeyd⟩ := saveKey_unopened hkey hd
  have hsame := sameButKeys_saveKey hd
  have hzero := read_zero hw hl (hsame.cursor ▸ hline hkeyd)
  refine ⟨?_, hsame.indents.trans hindents, hkeyd⟩
  exact bind_eq_ok.mpr ⟨_, by rw [hw]; exact hsave, map_eq_ok.mpr ⟨l, hzero, rfl⟩⟩

theorem colonInFlow_unopened (hindents : s.indents = [0]) (hflow : s.inFlow = true)
    (h : s.perform .colon = .ok t) :
    s.unopened.perform .colon = .ok t.unopened ∧ t.indents = [0] ∧ t.blockKey = s.blockKey := by
  have hflow' : s.unopened.inFlow = true := hflow
  have hcurrent : s.unopened.currentKey = s.currentKey := by
    obtain ⟨cursor, tokens, indents, keyAllowed, flowKeys, blockKey⟩ := s
    cases flowKeys with
    | nil => cases hflow
    | cons k? flowKeys => rfl
  simp only [perform, colon] at h ⊢
  rw [hcurrent]
  split at h
  · next k hk =>
    rw [openBlock_of_inFlow (s := s.insertAt k.position .key) hflow] at h
    rw [openBlock_of_inFlow (s := s.unopened.insertAt k.position .key) hflow']
    obtain ⟨cursor, tokens, indents, keyAllowed, flowKeys, blockKey⟩ := s
    cases flowKeys with
    | nil => cases hflow
    | cons k? flowKeys =>
      cases h
      exact ⟨rfl, hindents, rfl⟩
  · next hk =>
    rw [if_neg (by simp [hflow]), openBlock_of_inFlow hflow] at h
    rw [if_neg (by simp [hflow']), openBlock_of_inFlow hflow']
    cases h
    exact ⟨rfl, hindents, rfl⟩

/-- Up to the first colon outside flow collections, the steps are those in the mapping. -/
theorem perform_unopened (hkey : s.blockKey = some ⟨0, ⟨0, 0, 0⟩, true⟩) (hindents : s.indents = [0])
    (hdocument : k.isOfDocument = false) (hcolon : k = .colon → s.inFlow = true)
    (hblock : ∀ w, k = .word w → s.inFlow = true → w.isBlock = false)
    (h : s.perform k = .ok t)
    (hline : t.blockKey = s.blockKey → t.cursor.place.line ≤ s.cursor.place.line) :
    s.unopened.perform k = .ok t.unopened ∧ t.indents = [0] ∧ t.blockKey = s.blockKey := by
  cases k with
  | directive => cases hdocument
  | documentMark begins => cases hdocument
  | openFlow mapping =>
    obtain ⟨d, hd, h⟩ := bind_eq_ok.mp h
    obtain ⟨hsave, hkeyd⟩ := saveKey_unopened hkey hd
    cases h
    exact ⟨bind_eq_ok.mpr ⟨_, hsave, rfl⟩, (sameButKeys_saveKey hd).indents.trans hindents, hkeyd⟩
  | closeFlow mapping =>
    obtain ⟨d, hd, h⟩ := bind_eq_ok.mp h
    obtain ⟨hdrop, -, hkeyd⟩ := dropKey_unopened hkey hd
    cases h
    exact ⟨bind_eq_ok.mpr ⟨_, hdrop, rfl⟩, (sameButKeys_dropKey hd).indents.trans hindents, hkeyd⟩
  | comma =>
    obtain ⟨d, hd, h⟩ := bind_eq_ok.mp h
    obtain ⟨hdrop, -, hkeyd⟩ := dropKey_unopened hkey hd
    cases h
    exact ⟨bind_eq_ok.mpr ⟨_, hdrop, rfl⟩, (sameButKeys_dropKey hd).indents.trans hindents, hkeyd⟩
  | word w => exact performWord_unopened hkey hindents (hblock w rfl) h hline
  | entry mapping =>
    cases mapping with
    | false => exact entry_unopened hkey hindents h
    | true => exact entry_unopened hkey hindents h
  | colon => exact colonInFlow_unopened hindents (hcolon rfl) h

theorem ahead_unopened (hkey : s.blockKey = some ⟨0, ⟨0, 0, 0⟩, true⟩)
    (h : s.skipGap.lapseKeys = .ok t) :
    s.unopened.skipGap.lapseKeys = .ok t.unopened ∧ t.blockKey = s.blockKey ∧
      t.cursor.place.line = 0 := by
  unfold lapseKeys at h ⊢
  obtain ⟨blockKey, hblock, h⟩ := bind_eq_ok.mp h
  obtain ⟨flowKeys, hflow, h⟩ := bind_eq_ok.mp h
  have hkey' : s.skipGap.blockKey = some ⟨0, ⟨0, 0, 0⟩, true⟩ := hkey
  rw [hkey', lapse] at hblock
  split at hblock
  · cases hblock
  · next hstays =>
    cases hblock
    cases h
    have hlapse : lapse s.skipGap.cursor.place s.unopened.skipGap.blockKey =
        .ok (some ⟨0, ⟨0, 0, 0⟩, false⟩) := by
      rw [show s.unopened.skipGap.blockKey = some ⟨0, ⟨0, 0, 0⟩, false⟩ by
        show s.blockKey.map _ = _
        rw [hkey]
        rfl]
      rw [lapse, if_neg hstays]
    refine ⟨bind_eq_ok.mpr ⟨_, hlapse, bind_eq_ok.mpr ⟨flowKeys, hflow, rfl⟩⟩, hkey.symm, ?_⟩
    simp only [Bool.or_eq_true, decide_eq_true_eq, not_or] at hstays
    exact Nat.le_zero.mp (Nat.not_lt.mp hstays.1)

/-- A mapping opens in front of the lines. -/
def opening : Surroundings := ⟨0, 0, [.blockMappingStart], []⟩

theorem cursor_opening (c : Cursor) : c.within opening = c := by
  simp [Cursor.within, Place.within, opening]

theorem colon_unopened (hkey : s.blockKey = some ⟨0, ⟨0, 0, 0⟩, true⟩) (hindents : s.indents = [0])
    (hflow : s.inFlow = false) (h : s.perform .colon = .ok t) :
    s.unopened.perform .colon = .ok (t.within opening) := by
  obtain ⟨cursor, tokens, indents, keyAllowed, flowKeys, blockKey⟩ := s
  cases flowKeys with
  | cons k? flowKeys => cases hflow
  | nil =>
    simp only at hkey hindents
    subst hkey hindents
    simp [perform, colon, currentKey, insertAt, openBlock, inFlow, least, setCurrentKey,
      setKeyAllowed, take] at h
    subst h
    simp [perform, colon, currentKey, insertAt, openBlock, inFlow, least, setCurrentKey,
      setKeyAllowed, take, unopened, within, cursor_opening]
    simpa [opening] using
      List.insertIdx_length_self (l := tokens ++ [Token.key]) (x := Token.blockMappingStart)

theorem run_opened {fuel : Nat} {ts : List Token} (hs : InMapping s)
    (hfuel : s.cursor.chars.length < fuel) (hdocument : ∀ a ∈ ts, a.isOfDocument = false)
    (h : s.run fuel = .ok (ts ++ [.blockEnd])) :
    (s.within opening).run fuel = .ok (.blockMappingStart :: ts ++ [.blockEnd]) := by
  obtain ⟨place, -, n, hn, hrun⟩ := run_within (x := opening) rfl hs hfuel hdocument h
  obtain ⟨fuel', rfl⟩ := Nat.exists_eq_add_of_le (Nat.lt_of_le_of_lt hn hfuel)
  rw [show n + 1 + fuel' = n + fuel' + 1 by omega, hrun, run_behind rfl]
  rfl

theorem closeBlocks_eq_self {column : Nat} (h : ∀ i ∈ s.indents, i ≤ column) :
    s.closeBlocks (some column) = s := by
  have htake : s.indents.takeWhile (fun i => (some column).all (· < i)) = [] := by
    cases hindents : s.indents with
    | nil => rfl
    | cons i indents =>
      have hi : ¬ column < i := Nat.not_lt.mpr (h i (hindents ▸ List.mem_cons_self))
      simp [hi]
  unfold closeBlocks
  split
  · rfl
  · rw [htake]
    rfl

theorem line_of_run {fuel : Nat} {ts : List Token} (hs : InMapping s)
    (hkey : s.blockKey = some ⟨0, ⟨0, 0, 0⟩, true⟩) (hfuel : 0 < fuel) (h : s.run fuel = .ok ts)
    (line : Nat) : s.cursor.place.line ≤ line := by
  obtain ⟨fuel, rfl⟩ := Nat.exists_eq_succ_of_ne_zero (Nat.ne_of_gt hfuel)
  obtain ⟨t, ht, -⟩ := bind_eq_ok.mp h
  have hreaches := (ahead hs.lines ht).reaches.line_le
  rw [(ahead_unopened hkey ht).2.2] at hreaches
  exact Nat.le_trans hreaches (Nat.zero_le _)

theorem run_unopened {fuel : Nat} {ts : List Token} (hs : Pending s)
    (hfuel : s.cursor.chars.length < fuel) (hdocument : ∀ a ∈ ts, a.isOfDocument = false)
    (h : s.run fuel = .ok (ts ++ [.blockEnd])) :
    s.unopened.run fuel = .ok (.blockMappingStart :: ts ++ [.blockEnd]) := by
  induction fuel generalizing s with
  | zero => cases hfuel
  | succ fuel ih =>
    rw [run_succ] at h ⊢
    obtain ⟨t, ht, h⟩ := bind_eq_ok.mp h
    have hahead := ahead hs.inMapping.lines ht
    obtain ⟨hunopened, hkey, hline⟩ := ahead_unopened hs.blockKey ht
    have hkey := hkey.trans hs.blockKey
    have hindents := hahead.indents.trans hs.indents
    rw [hunopened]
    show onward _ _ = _
    cases hc : t.cursor.chars with
    | nil =>
      have hfinish : t.finish = .ok (ts ++ [.blockEnd]) := by
        unfold onward at h
        rwa [hc] at h
      have hflow : t.inFlow = false :=
        inFlow_of_run (hahead.tokens ▸ hs.inMapping.head) hc (show t.run 0 = _ from hfinish)
      have hnone := (hs.inMapping.at_end ht hc hflow).2.2
      rw [hkey] at hnone
      cases hnone
    | cons c rest =>
      obtain ⟨k, u, hk, hkind, hu, hstep, hlength, h⟩ :=
        exists_step (x := opening) rfl hs.inMapping hdocument ht hc h
      have hclose : t.closeBlocks (some t.cursor.place.column) = t := by
        refine closeBlocks_eq_self fun i hi => ?_
        rw [hindents] at hi
        rw [List.mem_singleton.mp hi]
        exact Nat.zero_le _
      rw [hclose] at hu hstep
      rw [onward_cons (s := t.unopened) hc, closeBlocks_eq_self (s := t.unopened) (by rintro i ⟨⟩),
        token_eq_perform (s := t.unopened) hk]
      by_cases hcolon : k = .colon ∧ t.inFlow = false
      · obtain ⟨rfl, hflow⟩ := hcolon
        rw [colon_unopened hkey hindents hflow hu]
        exact run_opened hstep.inMapping (by omega) hdocument h
      · have hlater : u.blockKey = t.blockKey → u.cursor.place.line ≤ t.cursor.place.line :=
          fun hkeyu => line_of_run hstep.inMapping (hkeyu.trans hkey) (by omega) h _
        obtain ⟨hperform, hindentsu, hkeyu⟩ := perform_unopened hkey hindents hkind
          (fun hk => by simpa [hk] using hcolon)
          (fun w hw => isBlock_of_startOf (hw ▸ hk)) hu hlater
        rw [hperform]
        exact ih ⟨hstep.inMapping, hindentsu, hkeyu.trans hkey⟩ (by omega) h

/-! ## A mapping and nothing else -/

/-- A scanner at a text that stands in a mapping from its start. -/
def inside (chars : List Char) : Scanner :=
  { start chars with indents := [0] }

theorem inMapping_inside {chars : List Char} (hlines : wholeLines chars = true) :
    InMapping (inside chars) where
  lines := hlines
  indents := ⟨[], rfl, nofun⟩
  head := nofun
  key := nofun
  ends _ := ⟨rfl, fun _ => rfl⟩

theorem saveKey_inside {chars : List Char} {d : Scanner} (h : (inside chars).saveKey = .ok d) :
    (start chars).saveKey = .ok d.unopened ∧ d.indents = [0] ∧
      d.blockKey = some ⟨0, ⟨0, 0, 0⟩, true⟩ := by
  cases h
  exact ⟨rfl, rfl, rfl⟩

/-- What starts a key does the same in front of a mapping as in it: the key waits for its colon, and
the mark of an explicit key opens the mapping. -/
inductive Opens (chars : List Char) (k : Start) (u : Scanner) : Prop where
  | pending (indents : u.indents = [0]) (blockKey : u.blockKey = some ⟨0, ⟨0, 0, 0⟩, true⟩)
    (perform : (start chars).perform k = .ok u.unopened)
  | opened (perform : (start chars).perform k = .ok (u.within opening))

/-- A key that waits for its colon stands in one line (`hline`), so a word reads alike in any column. -/
theorem opens_of_perform {u : Scanner} (hstart : startsKey (c :: rest) = true)
    (hk : startOf false 0 c rest = some k) (hu : (inside (c :: rest)).perform k = .ok u)
    (hline : u.blockKey = some ⟨0, ⟨0, 0, 0⟩, true⟩ → u.cursor.place.line ≤ 0) :
    Opens (c :: rest) k u := by
  simp only [startsKey, hk, Bool.and_eq_true] at hstart
  have hkind := hstart.2
  cases k with
  | openFlow mapping =>
    obtain ⟨d, hd, hu⟩ := bind_eq_ok.mp hu
    obtain ⟨hsave, hindents, hkey⟩ := saveKey_inside hd
    cases hu
    exact .pending hindents hkey (bind_eq_ok.mpr ⟨_, hsave, rfl⟩)
  | word w =>
    have hw : w.isBlock = false := by simpa using hkind
    obtain ⟨d, hd, hu⟩ := bind_eq_ok.mp hu
    rw [hw] at hd
    obtain ⟨hsave, hindents, hkey⟩ := saveKey_inside hd
    obtain ⟨l, hl, rfl⟩ := map_eq_ok.mp hu
    have hzero := read_zero hw hl (Nat.le_trans (hline hkey) (Nat.zero_le _))
    refine .pending hindents hkey (bind_eq_ok.mpr ⟨_, by rw [hw]; exact hsave, ?_⟩)
    exact map_eq_ok.mpr ⟨l, hzero, rfl⟩
  | entry mapping =>
    obtain rfl : mapping = true := hkind
    refine .opened ?_
    cases hu
    simp [perform, entry, openBlock, start, inside, least, inFlow, dropKey, currentKey, insertAt,
      take, setKeyAllowed, within, opening, bind, Except.bind, pure, Except.pure]
    exact (cursor_opening _).symm
  | _ => cases hkind

/-- The text of a mapping gives the tokens that it gives inside of one, and the mapping is opened in
front of them. -/
theorem run_start {chars : List Char} {fuel : Nat} {ts : List Token}
    (hstart : startsKey chars = true) (hlines : wholeLines chars = true)
    (hfuel : chars.length < fuel) (hdocument : ∀ a ∈ ts, a.isOfDocument = false)
    (h : (inside chars).run fuel = .ok (ts ++ [.blockEnd])) :
    (start chars).run fuel = .ok (.blockMappingStart :: ts ++ [.blockEnd]) := by
  cases chars with
  | nil => cases hstart
  | cons c rest =>
    obtain ⟨fuel, rfl⟩ := Nat.exists_eq_succ_of_ne_zero (Nat.ne_of_gt (Nat.zero_lt_of_lt hfuel))
    have hline : startsLine (c :: rest) = true := by
      simp only [startsKey, Bool.and_eq_true] at hstart
      exact hstart.1
    have hinside : (inside (c :: rest)).skipGap.lapseKeys = .ok (inside (c :: rest)) :=
      ahead_of_startsLine hline rfl rfl rfl
    have houtside : (start (c :: rest)).skipGap.lapseKeys = .ok (start (c :: rest)) :=
      ahead_of_startsLine hline rfl rfl rfl
    rw [run_succ, hinside] at h
    rw [run_succ, houtside]
    obtain ⟨k, u, hk, -, hu, hstep, hlength, h⟩ :=
      exists_step (x := opening) rfl (inMapping_inside hlines) hdocument hinside rfl h
    rw [closeBlocks_eq_self (s := inside (c :: rest)) (by simp [inside])] at hu hstep
    have hfuel' : u.cursor.chars.length < fuel := by
      have hle : (inside (c :: rest)).cursor.chars.length = (c :: rest).length := rfl
      omega
    show (start (c :: rest)).onward fuel = _
    rw [onward_cons (s := start (c :: rest)) rfl,
      closeBlocks_eq_self (s := start (c :: rest)) (by rintro i ⟨⟩),
      token_eq_perform (s := start (c :: rest)) hk]
    have hopens : Opens (c :: rest) k u := opens_of_perform hstart hk hu
      fun hkey => line_of_run hstep.inMapping hkey (by omega) h 0
    cases hopens with
    | pending hindents hkey hperform =>
      rw [hperform]
      exact run_unopened ⟨hstep.inMapping, hindents, hkey⟩ hfuel' hdocument h
    | opened hperform =>
      rw [hperform]
      exact run_opened hstep.inMapping hfuel' hdocument h

end pending

end Scanner

end PulseHits.Yaml
