import PulseHits.Proofs.Yaml.Values

/-!
# Entries that are written

An entry takes whole lines and gives the four tokens of its key and its value (`run_entry`). By
itself it stands for the one entry that it was written for (`blockEntries?_writeEntry`).
-/

namespace PulseHits.Yaml

theorem Place.foldl_after_of_line {chars : List Char} (h : ∀ c ∈ chars, isBreak c = false)
    (p : Place) :
    (chars.foldl after p).line = p.line ∧
      (chars.foldl after p).offset ≤ p.offset + 4 * chars.length := by
  induction chars generalizing p with
  | nil => exact ⟨rfl, Nat.le_refl _⟩
  | cons c chars ih =>
    obtain ⟨hline, hoffset⟩ := ih (fun d hd => h d (List.mem_cons_of_mem c hd)) (p.after c)
    have hafter : p.after c = ⟨p.offset + c.utf8Size, p.line, p.column + 1⟩ := by
      simp [after, h c List.mem_cons_self]
    have hsize := Char.utf8Size_le_four c
    rw [hafter] at hline hoffset
    rw [List.foldl_cons, hafter, List.length_cons]
    refine ⟨hline, ?_⟩
    simp only at hoffset
    omega

namespace Scanner

theorem run_of_perform {s t u : Scanner} {c : Char} {rest : List Char} {k : Start}
    (ht : s.skipGap.lapseKeys = .ok t) (hc : t.cursor.chars = c :: rest)
    (hindents : ∀ i ∈ t.indents, i ≤ t.cursor.place.column)
    (hk : startOf t.inFlow t.cursor.place.column c rest = some k) (hu : t.perform k = .ok u)
    (fuel : Nat) : s.run (fuel + 1) = u.run fuel := by
  rw [run_succ, ht]
  show t.onward fuel = _
  rw [onward_cons hc, closeBlocks_eq_self hindents, token_eq_perform hk, hu]
  rfl

section entry
variable {name body text : List Char} {style : Style} {place : Place}

theorem run_name (hname : canBePlain name = true) (hne : name ≠ []) (fuel : Nat) :
    (inside (name ++ ':' :: ' ' :: body)).run (fuel + 1) =
      run fuel ⟨⟨':' :: ' ' :: body, name.foldl Place.after ⟨0, 0, 0⟩⟩, [.scalar .plain name], [0],
        false, [], some ⟨0, ⟨0, 0, 0⟩, true⟩⟩ := by
  have hplain := isPlain_of_canBePlain hname
  obtain ⟨c, rest, rfl⟩ := List.exists_cons_of_ne_nil hne
  have hmark : startsWithDocumentMark (c :: rest ++ ':' :: ' ' :: body) = false :=
    hplain.not_documentMark rfl rfl
  have hstart : startOf false 0 c (rest ++ ':' :: ' ' :: body) = some (.word .plain) :=
    hplain.startOf fun _ => hmark
  have hread := @IsPlain.scanPlain (c :: rest) (':' :: ' ' :: body) hplain ⟨0, 0, 0⟩ 1
    fun _ => hmark
  have hends : plainFrom false 1 (':' :: ' ' :: body) ((c :: rest).foldl Place.after ⟨0, 0, 0⟩)
      (c :: rest).reverse .none =
        .ok ⟨c :: rest, ⟨':' :: ' ' :: body, (c :: rest).foldl Place.after ⟨0, 0, 0⟩⟩, false⟩ := by
    have hcolon : plainEnds false 1 ':' (' ' :: body) ((c :: rest).foldl Place.after ⟨0, 0, 0⟩)
        .none = true := by
      simp [plainEnds, startsWithGap, isGap, isBlank]
    rw [plainFrom, if_neg (by decide), if_neg (by decide), if_neg (by simp), if_pos hcolon,
      List.reverse_reverse]
    rfl
  have hahead : (inside (c :: rest ++ ':' :: ' ' :: body)).skipGap.lapseKeys =
      .ok (inside (c :: rest ++ ':' :: ' ' :: body)) :=
    ahead_of_startsLine (hplain.startsLine _) rfl rfl rfl
  refine run_of_perform hahead rfl (by simp [inside]) hstart ?_ fuel
  show ((scanPlain false 1 ⟨c :: rest ++ ':' :: ' ' :: body, ⟨0, 0, 0⟩⟩).map
    (Scanned.lexeme .plain)).map _ = _
  rw [hread, hends]
  rfl

theorem run_colon (hline : place.line = 0) (hoffset : place.offset ≤ maxKeyLength) (fuel : Nat) :
    run (fuel + 1) ⟨⟨':' :: ' ' :: body, place⟩, [.scalar .plain name], [0], false, [],
        some ⟨0, ⟨0, 0, 0⟩, true⟩⟩ =
      run fuel ⟨⟨' ' :: body, place.after ':'⟩, [.value, .scalar .plain name, .key], [0], false, [],
        none⟩ := by
  have hlapse : lapse place (some ⟨0, ⟨0, 0, 0⟩, true⟩) = .ok (some ⟨0, ⟨0, 0, 0⟩, true⟩) := by
    rw [lapse, if_neg]
    simp [hline, hoffset]
  have hskip : skipGapFrom false (':' :: ' ' :: body) place false false =
      (⟨':' :: ' ' :: body, place⟩, false) := by
    simp [skipGapFrom, isBreak, lineSeparator, paragraphSeparator, byteOrderMark]
  have hahead : (⟨⟨':' :: ' ' :: body, place⟩, [.scalar .plain name], [0], false, [],
      some ⟨0, ⟨0, 0, 0⟩, true⟩⟩ : Scanner).skipGap.lapseKeys =
        .ok ⟨⟨':' :: ' ' :: body, place⟩, [.scalar .plain name], [0], false, [],
          some ⟨0, ⟨0, 0, 0⟩, true⟩⟩ := by
    simp [skipGap, lapseKeys, inFlow, hskip, hlapse, bind, Except.bind, pure, Except.pure]
  refine run_of_perform (k := .colon) hahead rfl (by simp) ?_ rfl fuel
  have hmark (mark : Char) (h : (':' == mark) = false) :
      startsWithMark mark (':' :: ' ' :: body) = false :=
    @startsWithMark_eq_false mark ':' [] _ rfl h
  simp [startOf, hmark, indicator?, inFlow, startsWithGap, isGap, isBlank]

theorem run_end {behind : List Char} (hbehind : behind = [] ∨ behind = ['\n']) (place : Place)
    (tokens : List Token) (keyAllowed : Bool) (fuel : Nat) :
    run (fuel + 1) ⟨⟨behind, place⟩, tokens, [0], keyAllowed, [], none⟩ =
      .ok (tokens.reverse ++ [.blockEnd]) := by
  obtain ⟨place', keyAllowed', hskip⟩ : ∃ place' keyAllowed',
      skipGapFrom false behind place keyAllowed false = (⟨[], place'⟩, keyAllowed') := by
    rcases hbehind with rfl | rfl
    · exact ⟨_, _, rfl⟩
    · exact ⟨_, _, rfl⟩
  have hahead : (⟨⟨behind, place⟩, tokens, [0], keyAllowed, [], none⟩ : Scanner).skipGap.lapseKeys =
      .ok ⟨⟨[], place'⟩, tokens, [0], keyAllowed', [], none⟩ := by
    simp [skipGap, lapseKeys, inFlow, hskip, lapse, bind, Except.bind, pure, Except.pure]
  rw [run_succ, hahead]
  show finish ⟨⟨[], place'⟩, tokens, [0], keyAllowed', [], none⟩ = _
  exact finish_of_closed rfl rfl rfl

theorem run_value (hbody : ReadsAs style text body) (fuel : Nat) :
    run (fuel + 2) ⟨⟨' ' :: body, place⟩, [.value, .scalar .plain name, .key], [0], false, [],
        none⟩ =
      .ok [.key, .scalar .plain name, .value, .scalar style text, .blockEnd] := by
  obtain ⟨w, c, rest, behind, place', keyAllowed, rfl, hstart, hread, hbehind⟩ :=
    hbody.read (place.after ' ') (Place.column_after_ne_zero rfl place)
  obtain ⟨hblank, hbreak, hhash, hmark⟩ := of_startsLine hbody.starts
  rw [isBlank, Bool.or_eq_false_iff] at hblank
  have hskip : skipGapFrom false (' ' :: c :: rest) place false false =
      (⟨c :: rest, place.after ' '⟩, false) := by
    have hspace : isBreak ' ' = false := rfl
    simp [skipGapFrom, hbreak, hhash, hmark, hblank, hspace]
  have hahead : (⟨⟨' ' :: c :: rest, place⟩, [.value, .scalar .plain name, .key], [0], false, [],
      none⟩ : Scanner).skipGap.lapseKeys =
        .ok ⟨⟨c :: rest, place.after ' '⟩, [.value, .scalar .plain name, .key], [0], false, [],
          none⟩ := by
    simp [skipGap, lapseKeys, inFlow, hskip, lapse, bind, Except.bind, pure, Except.pure]
  have hperform : perform ⟨⟨c :: rest, place.after ' '⟩, [.value, .scalar .plain name, .key], [0],
      false, [], none⟩ (.word w) =
        .ok ⟨⟨behind, place'⟩, [.scalar style text, .value, .scalar .plain name, .key], [0],
          keyAllowed, [], none⟩ := by
    have hkey (s : Scanner) (hallowed : s.keyAllowed = false) (hkey : s.currentKey = none) :
        (if w.isBlock then s.dropKey else s.saveKey) = .ok s := by
      split
      · rw [dropKey, hkey]
      · rw [saveKey, if_neg (by simp [hallowed])]
        rfl
    rw [perform, hkey _ rfl rfl]
    show (w.read false 1 _).map _ = _
    rw [hread]
    rfl
  rw [run_of_perform hahead rfl (by simp) hstart hperform, run_end hbehind]
  rfl

theorem run_entry (hname : canBePlain name = true) (hne : name ≠ [])
    (hlength : 4 * name.length ≤ maxKeyLength) (hbody : ReadsAs style text body) (fuel : Nat) :
    (inside (name ++ ':' :: ' ' :: body)).run (fuel + 4) =
      .ok [.key, .scalar .plain name, .value, .scalar style text, .blockEnd] := by
  obtain ⟨hline, hoffset⟩ := Place.foldl_after_of_line
    (fun c hc => ((isPlain_of_canBePlain hname).all c hc).2) ⟨0, 0, 0⟩
  rw [run_name hname hne, run_colon hline (by simp only at hoffset; omega), run_value hbody]

end entry

end Scanner

/-! ## Entries -/

theorem mappingDocument?_entry (name text : List Char) (style : Style) :
    mappingDocument? [.key, .scalar .plain name, .value, .scalar style text, .blockEnd] =
      some [(.scalar none .plain name, .scalar none style text)] := by
  rfl

theorem writeEntry_eq (name : List Char) (v : Value) :
    writeEntry name v = name ++ ':' :: ' ' :: (v.write ++ lineEnd v.write) := by
  have hend : (if v.write.getLast?.any isBreak then [] else ['\n']) = lineEnd v.write := by
    rw [lineEnd, wholeLines, List.getLast?_eq_some_getLast v.readsAs.1]
    rfl
  rw [writeEntry, hend]
  simp

theorem inLine_lineEnd {text : List Char} (hne : text ≠ []) :
    inLine (text ++ lineEnd text) = true := by
  unfold lineEnd
  split
  · next h =>
    rw [List.append_nil]
    exact inLine_of_wholeLines h hne
  · exact inLine_append rfl

/-- A name that can be written as a key: plain, and not so long that its colon would be too far. -/
structure IsName (name : List Char) : Prop where
  plain : canBePlain name = true
  nonempty : name ≠ []
  length : 4 * name.length ≤ Scanner.maxKeyLength

/-- What is written for an entry stands for it. -/
theorem blockEntries?_writeEntry {name : List Char} (h : IsName name) (v : Value) :
    blockEntries? (String.ofList (writeEntry name v)) =
      some [(.scalar none .plain name, v.node)] := by
  obtain ⟨hplain, hne, hlength⟩ := h
  have hname := isPlain_of_canBePlain hplain
  obtain ⟨hwrite, hreads⟩ := v.readsAs
  have hprintable : (writeEntry name v).all isPrintable = true := by
    have hend : (lineEnd v.write).all isPrintable = true := by
      unfold lineEnd
      split <;> rfl
    rw [writeEntry_eq, List.all_append, List.all_cons, List.all_cons, List.all_append,
      v.all_isPrintable_write, hend, List.all_eq_true.mpr fun c hc => (hname.all c hc).1]
    rfl
  obtain ⟨fuel, hfuel⟩ : ∃ fuel, (writeEntry name v).length + 1 = fuel + 4 := by
    have := List.length_pos_iff.mpr hne
    refine ⟨(writeEntry name v).length - 3, ?_⟩
    rw [writeEntry_eq, List.length_append, List.length_cons, List.length_cons]
    omega
  have hrun := Scanner.run_entry hplain hne hlength hreads fuel
  rw [← writeEntry_eq, ← hfuel] at hrun
  have hkey : startsKey (writeEntry name v) = true := by
    obtain ⟨c, rest, rfl⟩ := List.exists_cons_of_ne_nil hne
    have hstart : startOf false 0 c (rest ++ ':' :: ' ' :: (v.write ++ lineEnd v.write)) =
        some (.word .plain) :=
      hname.startOf fun _ => hname.not_documentMark rfl rfl
    rw [writeEntry_eq, List.cons_append, startsKey, hname.startsLine, hstart]
    rfl
  have hlines : wholeLines (writeEntry name v) = true := by
    have hline : inLine ([':', ' '] ++ (v.write ++ lineEnd v.write)) = true :=
      inLine_append (inLine_lineEnd hwrite)
    rw [writeEntry_eq]
    exact wholeLines_of_inLine (inLine_append hline)
  rw [blockEntries?, prepare?_of_isPrintable hprintable]
  simp only [hrun, hkey, hlines]
  exact mappingDocument?_entry name v.chars v.style

end PulseHits.Yaml
