import PulseHits.Proofs.Yaml.Effects

/-!
# Lines of a mapping

Lines that are read where a block mapping is open in the first column give the same tokens wherever
they stand in the mapping: the scanner comes to the line behind them with the mapping open as before
(`run_within`).
-/

namespace PulseHits.Yaml

/-! ## Later places -/

/-- One place is in front of another, by lines and columns. -/
def Place.Before (p q : Place) : Prop :=
  p.line < q.line ∨ (p.line = q.line ∧ p.column < q.column)

namespace Place.Before
variable {p q : Place}

theorem of_after (p : Place) (c : Char) : p.Before (p.after c) := by
  unfold Before after
  split
  · exact Or.inl (Nat.lt_succ_self _)
  · exact Or.inr ⟨rfl, Nat.lt_succ_self _⟩

theorem trans {r : Place} (h₁ : p.Before q) (h₂ : q.Before r) : p.Before r := by
  unfold Before at *
  omega

theorem foldl_after (h : p.Before q) (chars : List Char) : p.Before (chars.foldl after q) := by
  induction chars generalizing q with
  | nil => exact h
  | cons c rest ih => exact ih (h.trans (of_after q c))

end Place.Before

section reaches
variable {c c' : Cursor}

theorem Place.Before.of_reaches {p : Place} (h : p.Before c.place) (hreaches : c.Reaches c') :
    p.Before c'.place := by
  obtain ⟨n, -, rfl⟩ := hreaches
  exact h.foldl_after _

theorem Place.line_le_foldl_after (p : Place) (chars : List Char) :
    p.line ≤ (chars.foldl after p).line := by
  induction chars generalizing p with
  | nil => exact Nat.le_refl _
  | cons c rest ih =>
    refine Nat.le_trans ?_ (ih (p.after c))
    unfold after
    split
    · exact Nat.le_succ _
    · exact Nat.le_refl _

theorem Cursor.Reaches.line_le (h : c.Reaches c') : c.place.line ≤ c'.place.line := by
  obtain ⟨n, -, rfl⟩ := h
  exact c.place.line_le_foldl_after _

theorem Cursor.Reaches.before (h : c.Reaches c') (hlength : c'.chars.length < c.chars.length) :
    c.place.Before c'.place := by
  obtain ⟨n, hn, rfl⟩ := h
  obtain ⟨chars, place⟩ := c
  cases chars with
  | nil => cases hlength
  | cons a rest =>
    cases n with
    | zero => exact absurd hlength (Nat.lt_irrefl _)
    | succ n => exact (Place.Before.of_after place a).foldl_after _

end reaches

namespace Scanner

/-! ## In front of the next token -/

section ahead
variable {x : Surroundings} {s t : Scanner}

/-- What skipping a gap comes to if no required key lapses there. -/
structure Ahead (s t : Scanner) : Prop where
  reaches : s.cursor.Reaches t.cursor
  head : ∀ c, t.cursor.chars.head? = some c → isBreak c = false
  tokens : t.tokens = s.tokens
  indents : t.indents = s.indents
  inFlow : t.inFlow = s.inFlow
  key : ∀ k, t.blockKey = some k → s.blockKey = some k ∧ ¬ k.place.line < t.cursor.place.line
  keyAllowed : t.cursor.chars = [] → s.inFlow = false →
    (s.cursor.chars = [] → s.keyAllowed = true) → t.keyAllowed = true

theorem lapse_eq_some {here : Place} {k? : Option PossibleKey} {k : PossibleKey}
    (h : lapse here k? = .ok (some k)) : k? = some k ∧ ¬ k.place.line < here.line := by
  unfold lapse at h
  split at h
  · cases h
  · split at h
    · split at h <;> cases h
    · next hhere =>
      cases h
      refine ⟨rfl, fun hline => hhere ?_⟩
      simp [hline]

theorem isEmpty_of_mapM {α β : Type} {f : α → Except Error β} {l : List α} {l' : List β}
    (h : l.mapM f = .ok l') : l'.isEmpty = l.isEmpty := by
  cases l with
  | nil =>
    cases h
    rfl
  | cons a l =>
    rw [List.mapM_cons] at h
    obtain ⟨b, -, h⟩ := bind_eq_ok.mp h
    obtain ⟨l', -, h⟩ := bind_eq_ok.mp h
    cases h
    rfl

theorem ahead (hlines : wholeLines s.cursor.chars = true) (h : s.skipGap.lapseKeys = .ok t) :
    Ahead s t := by
  obtain ⟨-, hskip⟩ := skipGap_within (x := ⟨0, 0, [], []⟩) rfl hlines
  unfold lapseKeys at h
  obtain ⟨blockKey, hblock, h⟩ := bind_eq_ok.mp h
  obtain ⟨flowKeys, hflow, h⟩ := bind_eq_ok.mp h
  cases h
  refine ⟨hskip.reaches, hskip.head, rfl, rfl, ?_, ?_, hskip.keyAllowed⟩
  · show (!flowKeys.isEmpty) = s.inFlow
    rw [isEmpty_of_mapM hflow]
    rfl
  · rintro k hk
    cases (show blockKey = some k from hk)
    obtain ⟨hkey, hline⟩ := lapse_eq_some hblock
    exact ⟨hkey, hline⟩

theorem ahead_within (hbehind : startsLine x.behind = true)
    (hlines : wholeLines s.cursor.chars = true) :
    (s.within x).skipGap.lapseKeys = s.skipGap.lapseKeys.map (·.within x) := by
  rw [(skipGap_within hbehind hlines).1, lapseKeys_within]

end ahead

/-! ## Inside a mapping -/

/-- A scanner at lines of a block mapping that is open in the first column. -/
structure InMapping (s : Scanner) : Prop where
  lines : wholeLines s.cursor.chars = true
  indents : ∃ inner, s.indents = inner ++ [0] ∧ ∀ i ∈ inner, 0 < i
  head : s.tokens.head? ≠ some .blockEnd
  key : ∀ k, s.blockKey = some k → k.place.Before s.cursor.place
  ends : s.cursor.chars = [] →
    s.cursor.place.column = 0 ∧ (s.inFlow = false → s.keyAllowed = true)

section mapping
variable {x : Surroundings} {s t : Scanner} {c : Char} {rest : List Char} {k : Start}

theorem startOf_of_token (h : s.token c rest = .ok t) :
    ∃ k, startOf s.inFlow s.cursor.place.column c rest = some k ∧ s.perform k = .ok t := by
  rw [token_eq] at h
  split at h
  · next k hk => exact ⟨k, hk, h⟩
  · cases h

theorem token_eq_perform (h : startOf s.inFlow s.cursor.place.column c rest = some k) :
    s.token c rest = s.perform k := by
  rw [token_eq, h]

theorem indents_closeBlocks (column : Nat)
    (hindents : ∃ inner, s.indents = inner ++ [0] ∧ ∀ i ∈ inner, 0 < i) :
    ∃ inner, (s.closeBlocks (some column)).indents = inner ++ [0] ∧ ∀ i ∈ inner, 0 < i := by
  obtain ⟨inner, heq, hinner⟩ := hindents
  unfold closeBlocks
  split
  · exact ⟨inner, heq, hinner⟩
  · have hdrop : ∀ outer : List Nat, (outer ++ [0]).drop
        ((outer ++ [0]).takeWhile fun i => (some column).all (· < i)).length =
          outer.dropWhile (fun i => (some column).all (· < i)) ++ [0] := by
      intro outer
      induction outer with
      | nil => simp
      | cons i outer ih =>
        rw [List.cons_append, List.takeWhile_cons, List.dropWhile_cons]
        split
        · exact ih
        · rfl
    refine ⟨inner.dropWhile fun i => (some column).all (· < i), ?_, ?_⟩
    · show s.indents.drop _ = _
      rw [heq]
      exact hdrop inner
    · exact fun i hi => hinner i ((List.dropWhile_suffix _).subset hi)

theorem closeBlocks_zero {inner : List Nat} (hflow : s.inFlow = false)
    (heq : s.indents = inner ++ [0]) (hinner : ∀ i ∈ inner, 0 < i) :
    s.closeBlocks (some 0) =
      { s with indents := [0], tokens := inner.map (fun _ => .blockEnd) ++ s.tokens } := by
  have htake : s.indents.takeWhile (fun i => (some 0).all (· < i)) = inner := by
    rw [heq, List.takeWhile_append_of_pos (by simpa using hinner)]
    simp
  unfold closeBlocks
  rw [hflow]
  simp only [Bool.false_eq_true, if_false, htake]
  rw [heq, List.drop_left]

theorem least_pos (hindents : ∃ inner, s.indents = inner ++ [0] ∧ ∀ i ∈ inner, 0 < i) :
    0 < s.least := by
  obtain ⟨inner, heq, -⟩ := hindents
  unfold least
  rw [heq]
  cases inner <;> exact Nat.succ_pos _

theorem tokens_of_inFlow {fuel : Nat} {ts : List Token} (hs : s.cursor.chars = [])
    (hflow : s.inFlow = true) (h : s.run fuel = .ok ts) : ts = s.tokens.reverse := by
  have hfinish : ∀ t : Scanner, t.inFlow = true → t.finish = .ok ts → ts = t.tokens.reverse := by
    intro t ht h
    obtain ⟨d, hd, h⟩ := bind_eq_ok.mp h
    obtain ⟨e, he, hd⟩ := bind_eq_ok.mp hd
    have htokens := (sameButKeys_dropKey he).tokens
    rw [closeBlocks, ht] at htokens
    cases h
    cases hd
    exact congrArg List.reverse htokens
  cases fuel with
  | zero => exact hfinish s hflow h
  | succ fuel =>
    obtain ⟨t, ht, h⟩ := bind_eq_ok.mp h
    have hahead := ahead (hs ▸ wholeLines_nil) ht
    have hnil : t.cursor.chars = [] := by
      have hlength := hahead.reaches.length_le
      rw [hs] at hlength
      exact List.length_eq_zero_iff.mp (Nat.le_zero.mp hlength)
    simp only [hnil] at h
    rw [← hahead.tokens]
    exact hfinish t (hahead.inFlow.trans hflow) h

theorem subset_run {fuel : Nat} {ts : List Token} (h : s.run fuel = .ok ts) :
    ∀ a ∈ s.tokens, a ∈ ts := by
  have hfinish : ∀ t : Scanner, t.finish = .ok ts → ∀ a ∈ t.tokens, a ∈ ts := by
    intro t h a ha
    obtain ⟨d, hd, h⟩ := bind_eq_ok.mp h
    cases h
    exact List.mem_reverse.mpr (subset_closeDocument hd a ha)
  induction fuel generalizing s with
  | zero => exact hfinish s h
  | succ fuel ih =>
    obtain ⟨t, ht, h⟩ := bind_eq_ok.mp h
    have htokens : t.tokens = s.tokens := by
      unfold lapseKeys at ht
      obtain ⟨_, _, ht⟩ := bind_eq_ok.mp ht
      obtain ⟨_, _, ht⟩ := bind_eq_ok.mp ht
      cases ht
      rfl
    rw [← htokens]
    split at h
    · exact hfinish t h
    · obtain ⟨u, hu, h⟩ := bind_eq_ok.mp h
      obtain ⟨k, -, hu⟩ := startOf_of_token hu
      refine fun a ha => ih h a ((performed hu).subset a ?_)
      unfold closeBlocks
      split
      · exact ha
      · exact List.mem_append_right _ ha

/-- A step of a mapping's lines, in front of a token. -/
structure Step (x : Surroundings) (s t : Scanner) (k : Start) : Prop where
  inMapping : InMapping t
  reaches : s.cursor.Reaches t.cursor
  length : t.cursor.chars.length < s.cursor.chars.length
  reads : ReadsWithin x s k

@[simp] theorem cursor_closeBlocks (column? : Option Nat) :
    (s.closeBlocks column?).cursor = s.cursor := by
  unfold closeBlocks
  split <;> rfl

@[simp] theorem inFlow_closeBlocks (column? : Option Nat) :
    (s.closeBlocks column?).inFlow = s.inFlow := by
  unfold closeBlocks
  split <;> rfl

@[simp] theorem blockKey_closeBlocks (column? : Option Nat) :
    (s.closeBlocks column?).blockKey = s.blockKey := by
  unfold closeBlocks
  split <;> rfl

theorem reads_word {w : Word} (hbehind : startsLine x.behind = true) (hleast : 0 < s.least)
    (hlines : wholeLines s.cursor.chars = true) (hc : s.cursor.chars = c :: rest)
    (hbreak : isBreak c = false)
    (hstart : startOf s.inFlow s.cursor.place.column c rest = some (.word w))
    (h : s.perform (.word w) = .ok t) (hends : t.cursor.chars = [] → t.inFlow = false) :
    s.cursor.Reaches t.cursor ∧ t.cursor.chars.length < s.cursor.chars.length ∧
      ReadsWithin x s (.word w) ∧ (t.cursor.chars = [] → t.keyAllowed = true) := by
  obtain ⟨l, hl, hcursor, hkeyAllowed, hflow⟩ := (performed h).word w rfl
  rw [hcursor, hkeyAllowed]
  rw [hcursor, hflow] at hends
  obtain ⟨hreaches, hlength⟩ := Word.reaches hlines hc hbreak hstart hl
  obtain ⟨hread, hallowed⟩ := Word.read_within hbehind hleast hlines hc hbreak hl hends
  refine ⟨hreaches, hlength, ?_, hallowed⟩
  rw [ReadsWithin, hread, hl]
  rfl

theorem reads_indicator (hlines : wholeLines s.cursor.chars = true) (hc : s.cursor.chars = c :: rest)
    (hbreak : isBreak c = false) (hdocument : k.isOfDocument = false) (hword : ∀ w, k ≠ .word w)
    (h : s.perform k = .ok t) :
    s.cursor.Reaches t.cursor ∧ t.cursor.chars.length < s.cursor.chars.length ∧
      ReadsWithin x s k ∧ t.cursor.chars ≠ [] := by
  have hcursor := (performed h).cursor hdocument hword
  have hone : 1 ≤ s.cursor.chars.length := by simp [hc]
  refine ⟨hcursor ▸ .forward hone, ?_, ?_, ?_⟩
  · rw [hcursor, Cursor.chars_forward, hc]
    exact Nat.lt_succ_self _
  · cases k with
    | directive => cases hdocument
    | documentMark begins => cases hdocument
    | word w => exact absurd rfl (hword w)
    | _ => exact hone
  · rw [hcursor, Cursor.chars_forward, hc]
    exact ne_nil_of_inLine (inLine_tail (hc ▸ hlines) hbreak)

theorem step (hbehind : startsLine x.behind = true) (hlines : wholeLines s.cursor.chars = true)
    (hindents : ∃ inner, s.indents = inner ++ [0] ∧ ∀ i ∈ inner, 0 < i)
    (hkey : ∀ k, s.blockKey = some k → k.place.Before s.cursor.place)
    (hc : s.cursor.chars = c :: rest) (hbreak : isBreak c = false)
    (hstart : startOf s.inFlow s.cursor.place.column c rest = some k)
    (hdocument : k.isOfDocument = false) (h : s.perform k = .ok t)
    (hends : t.cursor.chars = [] → t.inFlow = false) : Step x s t k := by
  have hperformed := performed h
  have hline := inLine_of_wholeLines hlines (hc ▸ List.cons_ne_nil c rest)
  obtain ⟨hreaches, hlength, hreads, hallowed⟩ : s.cursor.Reaches t.cursor ∧
      t.cursor.chars.length < s.cursor.chars.length ∧ ReadsWithin x s k ∧
        (t.cursor.chars = [] → t.keyAllowed = true) := by
    by_cases hword : ∃ w, k = .word w
    · obtain ⟨w, rfl⟩ := hword
      exact reads_word hbehind (least_pos hindents) hlines hc hbreak hstart h hends
    · obtain ⟨hreaches, hlength, hreads, hnext⟩ :=
        reads_indicator hlines hc hbreak hdocument (fun w hw => hword ⟨w, hw⟩) h
      exact ⟨hreaches, hlength, hreads, fun hnil => absurd hnil hnext⟩
  refine ⟨⟨hreaches.wholeLines hlines, ?_, hperformed.head, ?_, ?_⟩, hreaches, hlength, hreads⟩
  · obtain ⟨inner, heq, hinner⟩ := hindents
    rcases hperformed.indents hdocument with hsame | ⟨column, hleast, hopened⟩
    · exact ⟨inner, hsame.trans heq, hinner⟩
    · refine ⟨column :: inner, by rw [hopened, heq, List.cons_append], fun i hi => ?_⟩
      rcases List.mem_cons.mp hi with rfl | hi
      · exact Nat.lt_of_lt_of_le (least_pos ⟨inner, heq, hinner⟩) hleast
      · exact hinner i hi
  · intro k' hk'
    rcases hperformed.key k' hk' with hold | hnew
    · exact (hkey k' hold).of_reaches hreaches
    · exact hnew ▸ hreaches.before hlength
  · exact fun hnil => ⟨hreaches.column_eq_zero hline hnil, fun _ => hallowed hnil⟩

/-! ## The line behind the lines -/

/-- What a run does in front of a token. -/
def onward (s : Scanner) (fuel : Nat) : Except Error (List Token) :=
  match s.cursor.chars with
  | [] => s.finish
  | c :: rest => (s.closeBlocks (some s.cursor.place.column)).token c rest >>= run fuel

theorem run_succ (s : Scanner) (fuel : Nat) :
    s.run (fuel + 1) = s.skipGap.lapseKeys >>= fun t => t.onward fuel := rfl

/-- The scanner behind lines of a mapping that gave `tokens`. -/
def behind (x : Surroundings) (place : Place) (tokens : List Token) : Scanner :=
  ⟨⟨x.behind, place⟩, tokens.reverse ++ x.tokens, [0], true, [], none⟩

theorem ahead_of_startsLine (hs : startsLine s.cursor.chars = true) (hallowed : s.keyAllowed = true)
    (hflow : s.flowKeys = []) (hkey : s.blockKey = none) : s.skipGap.lapseKeys = .ok s := by
  obtain ⟨⟨chars, place⟩, tokens, indents, keyAllowed, flowKeys, blockKey⟩ := s
  simp only at hs hallowed hflow hkey
  subst hallowed hflow hkey
  suffices hskip : skipGapFrom false chars place true false = (⟨chars, place⟩, true) by
    simp [skipGap, lapseKeys, lapse, inFlow, hskip, bind, Except.bind, pure, Except.pure]
  cases chars with
  | nil => rfl
  | cons c rest =>
    obtain ⟨hblank, hbreak, hhash, hmark⟩ := of_startsLine hs
    have hspace : c ≠ ' ' := by
      rintro rfl
      cases hblank
    simp [skipGapFrom, hbreak, hhash, hmark, hspace]

theorem ahead_behind (hbehind : startsLine x.behind = true) (place : Place) (tokens : List Token) :
    (behind x place tokens).skipGap.lapseKeys = .ok (behind x place tokens) :=
  ahead_of_startsLine hbehind rfl rfl rfl

theorem finish_of_closed (hflow : s.flowKeys = []) (hkey : s.blockKey = none)
    (hindents : s.indents = [0]) : s.finish = .ok (s.tokens.reverse ++ [.blockEnd]) := by
  obtain ⟨cursor, tokens, indents, keyAllowed, flowKeys, blockKey⟩ := s
  simp only at hflow hkey hindents
  subst hflow hkey hindents
  simp [finish, closeDocument, closeBlocks, inFlow, dropKey, currentKey, setKeyAllowed, bind,
    Except.bind, pure, Except.pure]

/-- Closing the inner blocks first makes no difference to the end of a text. -/
theorem finish_closeBlocks {inner : List Nat} (hflow : s.inFlow = false)
    (heq : s.indents = inner ++ [0]) (hinner : ∀ i ∈ inner, 0 < i) :
    (s.closeBlocks (some 0)).finish = s.finish := by
  have hall : ∀ indents : List Nat,
      indents.takeWhile (fun i => Option.none.all (fun column : Nat => column < i)) = indents := by
    intro indents
    induction indents with
    | nil => rfl
    | cons i indents ih => rw [List.takeWhile_cons]; exact congrArg (i :: ·) ih
  suffices hclose : (s.closeBlocks (some 0)).closeBlocks none = s.closeBlocks none by
    rw [finish, closeDocument, hclose]
    rfl
  rw [closeBlocks_zero hflow heq hinner]
  have hflow' : ∀ (indents : List Nat) (tokens : List Token),
      ({ s with indents, tokens } : Scanner).inFlow = false := fun _ _ => hflow
  simp only [closeBlocks, hflow', Bool.false_eq_true, if_false, hall, heq]
  simp [List.map_const', ← List.cons_append, ← List.replicate_succ, List.replicate_succ']

theorem onward_closeBlocks {inner : List Nat} {fuel : Nat} (hflow : s.inFlow = false)
    (hcolumn : s.cursor.place.column = 0) (heq : s.indents = inner ++ [0])
    (hinner : ∀ i ∈ inner, 0 < i) :
    (s.closeBlocks (some 0)).onward fuel = s.onward fuel := by
  have hclosed : (s.closeBlocks (some 0)).closeBlocks (some 0) = s.closeBlocks (some 0) := by
    rw [closeBlocks_zero hflow heq hinner]
    exact closeBlocks_zero (s := { s with indents := [0], tokens := _ }) hflow
      (List.nil_append [0]).symm nofun
  unfold onward
  rw [cursor_closeBlocks, hcolumn]
  split
  · exact finish_closeBlocks hflow heq hinner
  · rw [hclosed]

theorem onward_within {ts : List Token} {fuel : Nat} (hs : s.cursor.chars = [])
    (hcolumn : s.cursor.place.column = 0) (hflow : s.inFlow = false)
    (hallowed : s.keyAllowed = true) (hkey : s.blockKey = none)
    (hindents : ∃ inner, s.indents = inner ++ [0] ∧ ∀ i ∈ inner, 0 < i)
    (h : s.finish = .ok (ts ++ [.blockEnd])) :
    (s.within x).onward fuel = (behind x (s.cursor.place.within x) ts).onward fuel := by
  obtain ⟨inner, heq, hinner⟩ := hindents
  have hclosed := closeBlocks_zero hflow heq hinner
  have hkeys : s.flowKeys = [] := by simpa [inFlow] using hflow
  have htokens : (s.closeBlocks (some 0)).tokens = ts.reverse := by
    rw [← finish_closeBlocks hflow heq hinner, finish_of_closed _ _ _] at h
    · have h := List.append_cancel_right (Except.ok.inj h)
      rw [← h, List.reverse_reverse]
    · rw [hclosed]
      exact hkeys
    · rw [hclosed]
      exact hkey
    · rw [hclosed]
  rw [← onward_closeBlocks (s := s.within x) ((inFlow_within x s).trans hflow) hcolumn heq hinner,
    closeBlocks_within]
  congr 1
  rw [hclosed] at htokens ⊢
  simp only at htokens
  rw [htokens]
  simp [within, behind, Cursor.within, hs, hallowed, hkeys, hkey]

theorem onward_cons (hc : s.cursor.chars = c :: rest) (fuel : Nat) :
    s.onward fuel =
      (s.closeBlocks (some s.cursor.place.column)).token c rest >>= run fuel := by
  unfold onward
  rw [hc]

theorem inFlow_of_run {fuel : Nat} {ts : List Token} (hhead : s.tokens.head? ≠ some .blockEnd)
    (hs : s.cursor.chars = []) (h : s.run fuel = .ok (ts ++ [.blockEnd])) : s.inFlow = false := by
  cases hflow : s.inFlow with
  | false => rfl
  | true =>
    have hlast := tokens_of_inFlow hs hflow h
    refine absurd ?_ hhead
    rw [← List.getLast?_reverse, ← hlast, List.getLast?_concat]

theorem InMapping.at_end (hs : InMapping s) (ht : s.skipGap.lapseKeys = .ok t)
    (hnil : t.cursor.chars = []) (hflow : t.inFlow = false) :
    t.cursor.place.column = 0 ∧ t.keyAllowed = true ∧ t.blockKey = none := by
  have hahead := ahead hs.lines ht
  rw [hahead.inFlow] at hflow
  obtain ⟨hcolumn, hallowed⟩ : t.cursor.place.column = 0 ∧
      (s.cursor.chars = [] → s.keyAllowed = true) := by
    by_cases hsc : s.cursor.chars = []
    · obtain ⟨hcolumn, hallowed⟩ := hs.ends hsc
      obtain ⟨n, hn, heq⟩ := hahead.reaches
      rw [hsc] at hn
      rw [heq, Nat.le_zero.mp hn]
      exact ⟨hcolumn, fun _ => hallowed hflow⟩
    · exact ⟨hahead.reaches.column_eq_zero (inLine_of_wholeLines hs.lines hsc) hnil,
        fun h => absurd h hsc⟩
  refine ⟨hcolumn, hahead.keyAllowed hnil hflow hallowed, ?_⟩
  cases hblock : t.blockKey with
  | none => rfl
  | some k =>
    obtain ⟨hold, hline⟩ := hahead.key k hblock
    rcases (hs.key k hold).of_reaches hahead.reaches with hbefore | ⟨-, hbefore⟩
    · exact absurd hbefore hline
    · rw [hcolumn] at hbefore
      cases hbefore

theorem run_behind {place : Place} {ts : List Token} (hnil : x.behind = []) (fuel : Nat) :
    (behind x place ts).run fuel = .ok (x.tokens.reverse ++ ts ++ [.blockEnd]) := by
  have hfinish : (behind x place ts).finish = .ok (x.tokens.reverse ++ ts ++ [.blockEnd]) := by
    rw [finish_of_closed rfl rfl rfl, behind, List.reverse_append, List.reverse_reverse]
  cases fuel with
  | zero => exact hfinish
  | succ fuel =>
    rw [run_succ, ahead_behind (by rw [hnil]; rfl)]
    show onward _ _ = _
    unfold onward
    simp only [behind, hnil] at hfinish ⊢
    exact hfinish

/-- A token of a mapping's lines is taken by a step, and the lines are read on from there. -/
theorem exists_step {fuel : Nat} {ts : List Token} (hbehind : startsLine x.behind = true)
    (hs : InMapping s) (hdocument : ∀ a ∈ ts, a.isOfDocument = false)
    (ht : s.skipGap.lapseKeys = .ok t) (hc : t.cursor.chars = c :: rest)
    (h : t.onward fuel = .ok (ts ++ [.blockEnd])) :
    ∃ k u, startOf t.inFlow t.cursor.place.column c rest = some k ∧ k.isOfDocument = false ∧
      (t.closeBlocks (some t.cursor.place.column)).perform k = .ok u ∧
      Step x (t.closeBlocks (some t.cursor.place.column)) u k ∧
      u.cursor.chars.length < s.cursor.chars.length ∧ u.run fuel = .ok (ts ++ [.blockEnd]) := by
  have hahead := ahead hs.lines ht
  rw [onward_cons hc] at h
  obtain ⟨u, hu, h⟩ := bind_eq_ok.mp h
  obtain ⟨k, hk, hu⟩ := startOf_of_token hu
  have hperformed := performed hu
  have hkind : k.isOfDocument = false := by
    cases hkind : k.isOfDocument with
    | false => rfl
    | true =>
      obtain ⟨a, ha, hof⟩ := hperformed.document hkind
      rcases List.mem_append.mp (subset_run h a ha) with hmem | hmem
      · rw [hdocument a hmem] at hof
        cases hof
      · rw [List.mem_singleton.mp hmem] at hof
        cases hof
  have hbreak : isBreak c = false := hahead.head c (by rw [hc]; rfl)
  have hstep : Step x (t.closeBlocks (some t.cursor.place.column)) u k := by
    refine step hbehind ?_ (indents_closeBlocks _ (hahead.indents ▸ hs.indents)) ?_ ?_ hbreak hk
      hkind hu fun hnil => inFlow_of_run hperformed.head hnil h
    · rw [cursor_closeBlocks]
      exact hahead.reaches.wholeLines hs.lines
    · rw [cursor_closeBlocks, blockKey_closeBlocks]
      exact fun k' hk' => (hs.key k' (hahead.key k' hk').1).of_reaches hahead.reaches
    · rwa [cursor_closeBlocks]
  have hlength := hstep.length
  rw [cursor_closeBlocks] at hlength
  rw [inFlow_closeBlocks, cursor_closeBlocks] at hk
  exact ⟨k, u, hk, hkind, hu, hstep, Nat.lt_of_lt_of_le hlength hahead.reaches.length_le, h⟩

/-- Lines of a mapping that are read to their end give the same tokens within a longer text, and the
scanner is behind them then. -/
theorem run_within {fuel : Nat} {ts : List Token} (hbehind : startsLine x.behind = true)
    (hs : InMapping s) (hfuel : s.cursor.chars.length < fuel)
    (hdocument : ∀ a ∈ ts, a.isOfDocument = false) (h : s.run fuel = .ok (ts ++ [.blockEnd])) :
    ∃ place : Place, place.column = 0 ∧ ∃ n ≤ s.cursor.chars.length,
      ∀ fuel', (s.within x).run (n + fuel' + 1) = (behind x place ts).run (fuel' + 1) := by
  induction fuel generalizing s with
  | zero => cases hfuel
  | succ fuel ih =>
    rw [run_succ] at h
    obtain ⟨t, ht, h⟩ := bind_eq_ok.mp h
    have hahead := ahead hs.lines ht
    have hwithin : (s.within x).skipGap.lapseKeys = .ok (t.within x) := by
      rw [ahead_within hbehind hs.lines, ht]
      rfl
    cases hc : t.cursor.chars with
    | nil =>
      have hfinish : t.finish = .ok (ts ++ [.blockEnd]) := by
        unfold onward at h
        rwa [hc] at h
      have hflow : t.inFlow = false :=
        inFlow_of_run (hahead.tokens ▸ hs.head) hc (show t.run 0 = _ from hfinish)
      obtain ⟨hcolumn, hallowed, hkey⟩ := hs.at_end ht hc hflow
      refine ⟨t.cursor.place.within x, hcolumn, 0, Nat.zero_le _, fun fuel' => ?_⟩
      rw [Nat.zero_add, run_succ, run_succ, hwithin, ahead_behind hbehind]
      exact onward_within hc hcolumn hflow hallowed hkey (hahead.indents ▸ hs.indents) hfinish
    | cons c rest =>
      obtain ⟨k, u, hk, -, hu, hstep, hlength, h⟩ := exists_step hbehind hs hdocument ht hc h
      obtain ⟨place, hcolumn, n, hn, hrun⟩ := ih hstep.inMapping (by omega) h
      refine ⟨place, hcolumn, n + 1, by omega, fun fuel' => ?_⟩
      rw [← hrun fuel', show n + 1 + fuel' + 1 = (n + fuel' + 1) + 1 by omega, run_succ, hwithin]
      have hchars : (t.within x).cursor.chars = c :: (rest ++ x.behind) := by
        rw [cursor_within, Cursor.chars_within, hc]
        rfl
      have hstart : startOf ((t.closeBlocks (some t.cursor.place.column)).within x).inFlow
          ((t.closeBlocks (some t.cursor.place.column)).within x).cursor.place.column c
          (rest ++ x.behind) = some k := by
        rw [inFlow_within, inFlow_closeBlocks, cursor_within, cursor_closeBlocks,
          Cursor.place_within, Place.column_within, ← hk]
        exact startOf_append (hahead.head c (by rw [hc]; rfl))
          (hc ▸ hahead.reaches.wholeLines hs.lines) x.behind
      show (t.within x).onward _ = _
      rw [onward_cons hchars, closeBlocks_within, cursor_within, Cursor.place_within,
        Place.column_within, token_eq_perform hstart, perform_within hstep.reads, hu]
      rfl

end mapping

end Scanner

end PulseHits.Yaml
