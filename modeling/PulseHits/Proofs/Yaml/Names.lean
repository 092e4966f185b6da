import PulseHits.Proofs.Yaml.Scalars

/-!
# Names and tags of whole lines

The name of an anchor, a tag handle and the text of a tag end in front of the break of their line, so
what stands behind the line makes no difference to them.
-/

namespace PulseHits.Yaml

/-- A reader that looks at no more than the line that it starts in. -/
def StaysInLine {α : Type} (read : Cursor → Except Error (α × Cursor)) : Prop :=
  ∀ (x : Surroundings) (c : Cursor) (a : α) (c' : Cursor), inLine c.chars = true →
    read c = .ok (a, c') →
      read (c.within x) = .ok (a, c'.within x) ∧ c.Reaches c' ∧ inLine c'.chars = true

theorem StaysInLine.bind {α β : Type} {read : Cursor → Except Error (α × Cursor)}
    {next : α × Cursor → Except Error (β × Cursor)} (h : StaysInLine read)
    (hnext : ∀ a, StaysInLine fun c => next (a, c)) :
    StaysInLine fun c => read c >>= next := by
  intro x c b c' hline hread
  obtain ⟨⟨a, d⟩, ha, hb⟩ := bind_eq_ok.mp hread
  obtain ⟨haWithin, haReaches, hd⟩ := h x c a d hline ha
  obtain ⟨hbWithin, hbReaches, hc'⟩ := hnext a x d b c' hd hb
  exact ⟨bind_eq_ok.mpr ⟨_, haWithin, hbWithin⟩, haReaches.trans hbReaches, hc'⟩

theorem StaysInLine.pure {α : Type} (a : α) : StaysInLine fun c => .ok (a, c) := by
  intro x c b c' hline h
  cases h
  exact ⟨rfl, .refl c, hline⟩

theorem StaysInLine.error {α : Type} (e : Error) :
    StaysInLine fun _ => (.error e : Except Error (α × Cursor)) := by
  intro x c b c' hline h
  cases h

namespace Tag

theorem isBreak_of_hexValue? {c : Char} {n : Nat} (h : Text.hexValue? c = some n) :
    isBreak c = false :=
  isBreak_eq_false (fun c => (Text.hexValue? c).isSome) rfl (Option.isSome_of_eq_some h)

theorem staysInLine_scanByte : StaysInLine scanByte := by
  intro x c byte c' hline h
  obtain ⟨chars, place⟩ := c
  unfold scanByte at h
  split at h
  · next a b rest hchars =>
    simp only at hchars
    subst hchars
    split at h
    · next m n hm hn =>
      cases h
      have hthree : 3 ≤ ('%' :: a :: b :: rest).length := by simp
      refine ⟨?_, .forward hthree, ?_⟩
      · rw [← Cursor.forward_within x _ hthree]
        simp [scanByte, hm, hn]
      · have ha := inLine_tail (wholeLines_of_inLine hline) rfl
        have hb := inLine_tail (wholeLines_of_inLine ha) (isBreak_of_hexValue? hm)
        exact inLine_tail (wholeLines_of_inLine hb) (isBreak_of_hexValue? hn)
    · cases h
  · cases h

theorem staysInLine_scanContinuation (count : Nat) : StaysInLine (scanContinuation count) := by
  induction count with
  | zero => exact .pure []
  | succ n ih =>
    refine staysInLine_scanByte.bind fun b => ?_
    cases hb : continuesGroup b with
    | false =>
      simp only [hb]
      exact .error Error.badName
    | true =>
      simp only [hb]
      exact ih.bind fun rest => .pure (b :: rest)

theorem staysInLine_scanGroup : StaysInLine scanGroup := by
  refine staysInLine_scanByte.bind fun first => ?_
  cases hsize : groupSize? first with
  | none =>
    simp only [hsize]
    exact .error Error.badName
  | some size =>
    simp only [hsize]
    exact (staysInLine_scanContinuation (size - 1)).bind fun rest => .pure (first :: rest)

theorem length_of_scanByte {c c' : Cursor} {b : UInt8} (h : scanByte c = .ok (b, c')) :
    c'.chars.length < c.chars.length := by
  unfold scanByte at h
  split at h
  · next hchars =>
    split at h
    · cases h
      simp [hchars]
      omega
    · cases h
  · cases h

theorem length_of_scanGroup {c c' : Cursor} {group : Bytes} (hline : inLine c.chars = true)
    (h : scanGroup c = .ok (group, c')) : c'.chars.length < c.chars.length := by
  obtain ⟨⟨first, d⟩, hfirst, h⟩ := bind_eq_ok.mp h
  have hlt := length_of_scanByte hfirst
  obtain ⟨-, -, hd⟩ := staysInLine_scanByte ⟨0, 0, [], []⟩ c first d hline hfirst
  cases hsize : groupSize? first with
  | none =>
    simp only [hsize] at h
    cases h
  | some size =>
    simp only [hsize] at h
    obtain ⟨⟨rest, d'⟩, hrest, h⟩ := bind_eq_ok.mp h
    cases h
    obtain ⟨-, hreaches, -⟩ :=
      staysInLine_scanContinuation (size - 1) ⟨0, 0, [], []⟩ d rest d' hd hrest
    exact Nat.lt_of_le_of_lt hreaches.length_le hlt

theorem isBreak_of_isPlain {verbatim : Bool} {c : Char} (h : isPlain verbatim c = true) :
    isBreak c = false := by
  cases verbatim with
  | false => exact isBreak_eq_false (isPlain false) rfl h
  | true => exact isBreak_eq_false (isPlain true) rfl h

theorem scanTextFrom_within {x : Surroundings} {verbatim : Bool} {fuel fuel' : Nat} {c c' : Cursor}
    {text written : Bytes} (hline : inLine c.chars = true) (hfuel : c.chars.length < fuel)
    (hfuel' : c.chars.length < fuel')
    (h : scanTextFrom verbatim fuel c text = .ok (written, c')) :
    scanTextFrom verbatim fuel' (c.within x) text = .ok (written, c'.within x) ∧ c.Reaches c' ∧
      inLine c'.chars = true := by
  induction fuel generalizing fuel' c text with
  | zero => omega
  | succ fuel ih =>
    obtain ⟨fuel', rfl⟩ : ∃ n, fuel' = n + 1 := ⟨fuel' - 1, by omega⟩
    cases hchars : c.chars with
    | nil => simp [hchars, inLine] at hline
    | cons a rest =>
      rw [scanTextFrom] at h
      rw [scanTextFrom, Cursor.chars_within]
      simp only [hchars, List.cons_append] at h ⊢
      split at h
      · next ha =>
        rw [if_pos ha]
        obtain ⟨⟨group, d⟩, hgroup, h⟩ := bind_eq_ok.mp h
        obtain ⟨hwithin, hreaches, hd⟩ := staysInLine_scanGroup x c group d hline hgroup
        have hlt := length_of_scanGroup hline hgroup
        have hlt' : d.chars.length < fuel' := by omega
        obtain ⟨hrest, hreaches', hc'⟩ := ih hd (by omega) hlt' h
        exact ⟨bind_eq_ok.mpr ⟨_, hwithin, hrest⟩, hreaches.trans hreaches', hc'⟩
      · next ha =>
        rw [if_neg ha]
        split at h
        · next hplain =>
          rw [if_pos hplain]
          have hone : 1 ≤ c.chars.length := by simp [hchars]
          have hnext : (c.within x).next = c.next.within x := c.forward_within x hone
          have hd : inLine c.next.chars = true := by
            rw [Cursor.next, Cursor.chars_forward, hchars]
            exact inLine_tail (hchars ▸ wholeLines_of_inLine hline) (isBreak_of_isPlain hplain)
          have hlength : c.next.chars.length + 1 = c.chars.length := by
            simp [Cursor.next, hchars]
          have hlt' : c.next.chars.length < fuel' := by omega
          obtain ⟨hrest, hreaches, hc'⟩ := ih hd (by omega) hlt' h
          rw [hnext]
          exact ⟨hrest, (Cursor.Reaches.forward hone).trans hreaches, hc'⟩
        · next hplain =>
          rw [if_neg hplain]
          cases h
          exact ⟨rfl, .refl _, hline⟩

theorem staysInLine_scanText (verbatim : Bool) : StaysInLine (scanText verbatim) := by
  intro x c written c' hline h
  have hfuel : c.chars.length < (c.within x).chars.length + 1 := by
    rw [Cursor.chars_within, List.length_append]
    omega
  exact scanTextFrom_within hline (Nat.lt_succ_self _) hfuel h

theorem scanHandle_of_ne {c : Cursor} (h : c.chars.head? ≠ some '!') : scanHandle c = ([], c) := by
  unfold scanHandle
  split
  · next hchars => simp [hchars] at h
  · rfl

theorem scanHandle_cons (rest : List Char) (place : Place) :
    let word := rest.takeWhile isWord
    let c : Cursor := ⟨'!' :: rest, place⟩
    scanHandle c =
      if (rest.drop word.length).head? = some '!' then
        ('!' :: word ++ ['!'], c.forward (word.length + 2))
      else ('!' :: word, c.forward (word.length + 1)) := by
  simp [scanHandle]

theorem inLine_behind_mark {rest : List Char} {n : Nat} (hline : inLine (rest.drop n) = true)
    (hmark : (rest.drop n).head? = some '!') :
    n + 1 ≤ rest.length ∧ inLine (rest.drop (n + 1)) = true := by
  obtain ⟨rest', hrest'⟩ := List.head?_eq_some_iff.mp hmark
  have hlength := congrArg List.length hrest'
  simp only [List.length_drop, List.length_cons] at hlength
  refine ⟨by omega, ?_⟩
  rw [← List.drop_drop, hrest']
  rw [hrest'] at hline
  exact inLine_tail (wholeLines_of_inLine hline) rfl

/-- A handle of more than a mark ends behind its second mark, or in front of what is no part of it. -/
theorem scanHandle_mark_within {x : Surroundings} {rest handle : List Char} {c' : Cursor}
    {place : Place} (hline : inLine ('!' :: rest) = true)
    (h : scanHandle ⟨'!' :: rest, place⟩ = (handle, c')) :
    scanHandle ⟨'!' :: (rest ++ x.behind), place.within x⟩ = (handle, c'.within x) ∧
      Cursor.Reaches ⟨'!' :: rest, place⟩ c' ∧ inLine c'.chars = true := by
  have hrest := inLine_tail (c := '!') (wholeLines_of_inLine hline) rfl
  obtain ⟨htake, hdrop⟩ :=
    takeWhile_append_of_inLine (fun _ => eq_false_of_isBreak isWord rfl) hrest x.behind
  have hle := (List.takeWhile_prefix (l := rest) isWord).length_le
  have hhead := head?_append_of_ne_nil (ne_nil_of_inLine hdrop) x.behind
  rw [← List.drop_append_of_le_length hle] at hhead
  simp only [scanHandle_cons, htake, hhead] at h ⊢
  split at h
  · next hsecond =>
    rw [if_pos hsecond]
    cases h
    obtain ⟨hlt, hbehind⟩ := inLine_behind_mark hdrop hsecond
    have hlength : (rest.takeWhile isWord).length + 2 ≤ ('!' :: rest).length :=
      Nat.succ_le_succ hlt
    refine ⟨?_, .forward hlength, ?_⟩
    · rw [← Cursor.forward_within x _ hlength]
      rfl
    · rw [Cursor.chars_forward, List.drop_succ_cons]
      exact hbehind
  · next hsecond =>
    rw [if_neg hsecond]
    cases h
    have hlength : (rest.takeWhile isWord).length + 1 ≤ ('!' :: rest).length :=
      Nat.succ_le_succ hle
    refine ⟨?_, .forward hlength, hdrop⟩
    rw [← Cursor.forward_within x _ hlength]
    rfl

theorem staysInLine_scanHandle : StaysInLine fun c => .ok (scanHandle c) := by
  intro x c handle c' hline h
  obtain ⟨chars, place⟩ := c
  by_cases hmark : chars.head? = some '!'
  · obtain ⟨rest, rfl⟩ := List.head?_eq_some_iff.mp hmark
    obtain ⟨hwithin, hreaches, hline'⟩ := scanHandle_mark_within (x := x) hline (Except.ok.inj h)
    exact ⟨congrArg Except.ok hwithin, hreaches, hline'⟩
  · simp only at h ⊢
    rw [scanHandle_of_ne hmark] at h
    cases h
    have hmark' : ((Cursor.mk chars place).within x).chars.head? ≠ some '!' := by
      rw [Cursor.chars_within, head?_append_of_ne_nil (ne_nil_of_inLine hline)]
      exact hmark
    rw [scanHandle_of_ne hmark']
    exact ⟨rfl, .refl _, hline⟩

theorem length_of_scanHandle {c : Cursor} {rest : List Char} (hc : c.chars = '!' :: rest) :
    (scanHandle c).2.chars.length < c.chars.length := by
  obtain ⟨chars, place⟩ := c
  simp only at hc
  subst hc
  rw [scanHandle_cons]
  split <;>
  · simp only [Cursor.chars_forward, List.length_drop, List.length_cons]
    omega

end Tag

/-! ## Names and tags as tokens -/

namespace Scanner

variable {x : Surroundings} {c c' : Cursor} {a : Char} {rest : List Char}

theorem next_within (hc : c.chars = a :: rest) (ha : isBreak a = false)
    (hlines : wholeLines c.chars = true) :
    (c.within x).next = c.next.within x ∧ c.Reaches c.next ∧ inLine c.next.chars = true := by
  have hone : 1 ≤ c.chars.length := by simp [hc]
  refine ⟨c.forward_within x hone, .forward hone, ?_⟩
  rw [Cursor.next, Cursor.chars_forward, hc]
  exact inLine_tail (hc ▸ hlines) ha

theorem scanAnchorName_eq (c : Cursor) :
    scanAnchorName c =
      let name := c.next.chars.takeWhile isWord
      let d := c.next.skipWhile isWord
      let ends := startsWithGap d.chars ||
        d.chars.head?.any fun a => ['?', ':', ',', ']', '}', '%', '@', '`'].contains a
      if name.isEmpty || !ends then .error .badName else .ok (name, d) := rfl

theorem scanAnchorName_within {name : List Char} (hlines : wholeLines c.chars = true)
    (hc : c.chars = a :: rest) (ha : isBreak a = false)
    (h : scanAnchorName c = .ok (name, c')) :
    scanAnchorName (c.within x) = .ok (name, c'.within x) ∧ c.next.Reaches c' ∧
      inLine c'.chars = true := by
  obtain ⟨hnext, -, hline⟩ := next_within (x := x) hc ha hlines
  have htake := (takeWhile_append_of_inLine (fun _ => eq_false_of_isBreak isWord rfl) hline
    x.behind).1
  obtain ⟨hskip, hline'⟩ := c.next.skipWhile_within (x := x)
    (fun _ => eq_false_of_isBreak isWord rfl) hline
  have hne := ne_nil_of_inLine hline'
  rw [scanAnchorName_eq] at h ⊢
  simp only [hnext, Cursor.chars_within, htake, hskip, startsWithGap_append hne,
    head?_append_of_ne_nil hne] at h ⊢
  split at h
  · cases h
  · next hname =>
    cases h
    rw [if_neg hname]
    exact ⟨rfl, c.next.skipWhile_reaches isWord, hline'⟩

/-- A tag in angle brackets. -/
def verbatimTag (c : Cursor) : Except Error (Token × Cursor) := do
  let (suffix, c) ← Tag.scanText true (c.forward 2)
  if suffix.isEmpty || c.chars.head? != some '>' then throw .badName
  pure (Token.tag [] (.ofWritten suffix), c.next)

/-- A tag with a handle or only a mark in front of it. -/
def shortTag (c : Cursor) : Except Error (Token × Cursor) := do
  let (handle, c) ← .ok (Tag.scanHandle c)
  let (suffix, c) ← Tag.scanText false c
  if Tag.isNamedHandle handle then
    if suffix.isEmpty then throw .badName
    pure (Token.tag handle (.ofWritten suffix), c)
  else
    let suffix := Tag.ofWritten (Tag.ofChars (handle.drop 1) ++ suffix)
    pure (if suffix.isEmpty then Token.tag [] (.ofChars ['!']) else Token.tag ['!'] suffix, c)

def tagEnds (inFlow : Bool) (chars : List Char) : Bool :=
  startsWithGap chars || (inFlow && chars.head? == some ',')

theorem scanTag_of_verbatim (inFlow : Bool) (h : c.chars = '!' :: '<' :: rest) :
    scanTag inFlow c = verbatimTag c >>= fun p =>
      if tagEnds inFlow p.2.chars then .ok p else .error .badName := by
  unfold scanTag verbatimTag
  rw [h]
  cases Tag.scanText true (c.forward 2) with
  | error e => rfl
  | ok p =>
    simp only [bind, Except.bind]
    split <;> rfl

theorem scanTag_of_short (inFlow : Bool) (h : ∀ rest, c.chars ≠ '!' :: '<' :: rest) :
    scanTag inFlow c = shortTag c >>= fun p =>
      if tagEnds inFlow p.2.chars then .ok p else .error .badName := by
  unfold scanTag shortTag
  split
  · next rest hc => exact absurd hc (h rest)
  · simp only [bind, Except.bind]
    cases Tag.scanText false (Tag.scanHandle c).2 with
    | error e => rfl
    | ok p =>
      simp only
      split
      · split <;> rfl
      · rfl

theorem staysInLine_shortTag : StaysInLine shortTag := by
  refine Tag.staysInLine_scanHandle.bind fun handle => ?_
  refine (Tag.staysInLine_scanText false).bind fun suffix => ?_
  simp only
  split
  · split
    · exact .error Error.badName
    · exact .pure (Token.tag handle (.ofWritten suffix))
  · exact .pure (if (Tag.ofWritten (Tag.ofChars (handle.drop 1) ++ suffix)).isEmpty then
        Token.tag [] (.ofChars ['!'])
      else Token.tag ['!'] (.ofWritten (Tag.ofChars (handle.drop 1) ++ suffix)))

theorem shortTag_reaches {t : Token} (hline : inLine c.chars = true)
    (h : shortTag c = .ok (t, c')) : (Tag.scanHandle c).2.Reaches c' := by
  obtain ⟨⟨handle, d⟩, hhandle, h⟩ := bind_eq_ok.mp h
  obtain ⟨⟨suffix, e⟩, hsuffix, h⟩ := bind_eq_ok.mp h
  have hd := (Tag.staysInLine_scanHandle ⟨0, 0, [], []⟩ c handle d hline hhandle).2.2
  have hreaches := (Tag.staysInLine_scanText false ⟨0, 0, [], []⟩ d suffix e hd hsuffix).2.1
  rw [Except.ok.inj hhandle]
  simp only at h
  split at h
  · split at h
    · cases h
    · cases h
      exact hreaches
  · cases h
    exact hreaches

theorem verbatimTag_within {t : Token} (hline : inLine c.chars = true)
    (hc : c.chars = '!' :: '<' :: rest) (h : verbatimTag c = .ok (t, c')) :
    verbatimTag (c.within x) = .ok (t, c'.within x) ∧ (c.forward 2).Reaches c' ∧
      inLine c'.chars = true := by
  have htwo : 2 ≤ c.chars.length := by simp [hc]
  have hline' : inLine (c.forward 2).chars = true := by
    rw [Cursor.chars_forward, hc]
    rw [hc] at hline
    have hangle := inLine_tail (wholeLines_of_inLine hline) rfl
    exact inLine_tail (wholeLines_of_inLine hangle) rfl
  obtain ⟨⟨suffix, d⟩, hsuffix, h⟩ := bind_eq_ok.mp h
  obtain ⟨hwithin, hreaches, hd⟩ := Tag.staysInLine_scanText true x _ _ _ hline' hsuffix
  simp only at h
  split at h
  · cases h
  · next hcondition =>
    obtain ⟨-, hclosing⟩ : suffix ≠ [] ∧ d.chars.head? = some '>' := by simpa using hcondition
    obtain ⟨rest', hrest'⟩ := List.head?_eq_some_iff.mp hclosing
    obtain ⟨hnext, hnextReaches, hline''⟩ :=
      next_within (x := x) hrest' rfl (wholeLines_of_inLine hd)
    cases h
    refine ⟨?_, hreaches.trans hnextReaches, hline''⟩
    rw [verbatimTag, c.forward_within x htwo]
    refine bind_eq_ok.mpr ⟨_, hwithin, ?_⟩
    have hhead : (d.within x).chars.head? = d.chars.head? :=
      head?_append_of_ne_nil (ne_nil_of_inLine hd) _
    simp only [hhead, hnext]
    rw [if_neg hcondition]
    rfl

theorem staysInLine_tagEnds (inFlow : Bool) (t : Token) :
    StaysInLine fun c => if tagEnds inFlow c.chars then .ok (t, c) else .error .badName := by
  intro x c t' c' hline h
  have hne := ne_nil_of_inLine hline
  have hends : tagEnds inFlow (c.within x).chars = tagEnds inFlow c.chars := by
    rw [tagEnds, Cursor.chars_within, startsWithGap_append hne, head?_append_of_ne_nil hne, tagEnds]
  simp only [hends] at h ⊢
  split at h
  · next hyes =>
    cases h
    rw [if_pos hyes]
    exact ⟨rfl, .refl c, hline⟩
  · cases h

theorem staysInLine_scanTag (inFlow : Bool) : StaysInLine (scanTag inFlow) := by
  intro x c t c' hline h
  by_cases hverbatim : ∃ rest, c.chars = '!' :: '<' :: rest
  · obtain ⟨rest, hc⟩ := hverbatim
    have hc' : (c.within x).chars = '!' :: '<' :: (rest ++ x.behind) := by
      rw [Cursor.chars_within, hc]
      rfl
    rw [scanTag_of_verbatim inFlow hc] at h
    rw [scanTag_of_verbatim inFlow hc']
    obtain ⟨⟨t', d⟩, htag, h⟩ := bind_eq_ok.mp h
    obtain ⟨hwithin, hreaches, hd⟩ := verbatimTag_within (x := x) hline hc htag
    obtain ⟨hends, hreaches', hline'⟩ := staysInLine_tagEnds inFlow t' x d t c' hd h
    have htwo : c.Reaches (c.forward 2) := .forward (by simp [hc])
    exact ⟨bind_eq_ok.mpr ⟨_, hwithin, hends⟩, (htwo.trans hreaches).trans hreaches', hline'⟩
  · have hshort : ∀ rest, c.chars ≠ '!' :: '<' :: rest := fun rest hc => hverbatim ⟨rest, hc⟩
    have hshort' : ∀ rest, (c.within x).chars ≠ '!' :: '<' :: rest := by
      intro rest hc
      rw [Cursor.chars_within] at hc
      rcases hchars : c.chars with _ | ⟨a, _ | ⟨b, rest'⟩⟩
      · simp [hchars, inLine] at hline
      · -- the mark would be the break at the end of the line
        simp only [hchars, List.cons_append, List.cons.injEq] at hc hline
        rw [hc.1] at hline
        cases hline
      · simp only [hchars, List.cons_append, List.cons.injEq] at hc
        exact hshort rest' (by rw [hchars, hc.1, hc.2.1])
    rw [scanTag_of_short inFlow hshort] at h
    rw [scanTag_of_short inFlow hshort']
    exact (staysInLine_shortTag.bind (staysInLine_tagEnds inFlow)) x c t c' hline h

theorem of_tagEnds {inFlow : Bool} {p q : Token × Cursor}
    (h : (if tagEnds inFlow p.2.chars then .ok p else .error Error.badName) = Except.ok q) :
    p = q := by
  split at h
  · exact Except.ok.inj h
  · cases h

theorem exists_of_scanTag {inFlow : Bool} {t : Token} (h : scanTag inFlow c = .ok (t, c')) :
    ∃ handle suffix, t = .tag handle suffix := by
  by_cases hverbatim : ∃ rest, c.chars = '!' :: '<' :: rest
  · obtain ⟨rest', hc'⟩ := hverbatim
    rw [scanTag_of_verbatim inFlow hc'] at h
    obtain ⟨p, htag, h⟩ := bind_eq_ok.mp h
    obtain rfl := of_tagEnds h
    obtain ⟨⟨suffix, d⟩, -, htag⟩ := bind_eq_ok.mp htag
    simp only at htag
    split at htag
    · cases htag
    · cases htag
      exact ⟨_, _, rfl⟩
  · rw [scanTag_of_short inFlow fun rest hc => hverbatim ⟨rest, hc⟩] at h
    obtain ⟨p, htag, h⟩ := bind_eq_ok.mp h
    obtain rfl := of_tagEnds h
    obtain ⟨⟨handle, d⟩, -, htag⟩ := bind_eq_ok.mp htag
    obtain ⟨⟨suffix, e⟩, -, htag⟩ := bind_eq_ok.mp htag
    simp only at htag
    split at htag
    · split at htag
      · cases htag
      · cases htag
        exact ⟨_, _, rfl⟩
    · cases htag
      split
      · exact ⟨_, _, rfl⟩
      · exact ⟨_, _, rfl⟩

theorem length_of_scanTag {inFlow : Bool} {t : Token} (hline : inLine c.chars = true)
    (hc : c.chars = '!' :: rest) (h : scanTag inFlow c = .ok (t, c')) :
    c'.chars.length < c.chars.length := by
  by_cases hverbatim : ∃ rest, c.chars = '!' :: '<' :: rest
  · obtain ⟨rest', hc'⟩ := hverbatim
    rw [scanTag_of_verbatim inFlow hc'] at h
    obtain ⟨p, htag, h⟩ := bind_eq_ok.mp h
    obtain rfl := of_tagEnds h
    have hle := (verbatimTag_within (x := ⟨0, 0, [], []⟩) hline hc' htag).2.1.length_le
    rw [Cursor.chars_forward, List.length_drop] at hle
    have hpos : 0 < c.chars.length := by simp [hc]
    omega
  · rw [scanTag_of_short inFlow fun rest hc => hverbatim ⟨rest, hc⟩] at h
    obtain ⟨p, htag, h⟩ := bind_eq_ok.mp h
    obtain rfl := of_tagEnds h
    exact Nat.lt_of_le_of_lt (shortTag_reaches hline htag).length_le
      (Tag.length_of_scanHandle hc)

end Scanner

end PulseHits.Yaml
