import PulseHits.Proofs.Yaml.Steps

/-!
# What a step changes

How far a step of the scanner goes, which tokens it adds, and what it leaves of the indentation and
the possible keys (`performed`).
-/

namespace PulseHits.Yaml

/-- Whether a token belongs to a document as a whole. -/
def Token.isOfDocument : Token → Bool
  | .version _ _ | .tagHandle _ _ | .documentStart | .documentEnd => true
  | _ => false

/-- Whether a directive or a document mark stands in front of the cursor. -/
def Start.isOfDocument : Start → Bool
  | .directive | .documentMark _ => true
  | _ => false

namespace Scanner

/-! ### Directives -/

/-- Whatever a reading comes to satisfies `p`. -/
def Gives {α : Type} (p : α → Prop) (a? : Except Error α) : Prop :=
  ∀ a, a? = .ok a → p a

theorem Gives.bind {α β : Type} {p : β → Prop} {a? : Except Error α} {f : α → Except Error β}
    (h : ∀ a, Gives p (f a)) : Gives p (a? >>= f) := by
  intro b hb
  obtain ⟨a, -, ha⟩ := bind_eq_ok.mp hb
  exact h a b ha

theorem Gives.guard {α : Type} {p : α → Prop} {c : Prop} [Decidable c] {e : Error}
    {f : Unit → Except Error α} (h : ∀ u, Gives p (f u)) :
    Gives p (if c then (throw e : Except Error Unit) >>= f else f ()) := by
  split
  · exact .bind fun u => h u
  · exact h ()

theorem gives_scanDirective (c : Cursor) :
    Gives (fun p => p.1.isOfDocument = true) (scanDirective c) := by
  unfold scanDirective
  extract_lets _ _ _ _ lineEnd rest
  have hend : ∀ p, p.1.isOfDocument = true →
      Gives (fun p => p.1.isOfDocument = true) (pure p >>= lineEnd) := by
    rintro ⟨t, c⟩ ht p hp
    replace hp : lineEnd (t, c) = .ok p := hp
    simp only [lineEnd] at hp
    split at hp
    · cases hp
      exact ht
    · split at hp
      · cases hp
        exact ht
      · cases hp
  apply Gives.guard
  intro
  simp only [rest]
  split
  · refine .bind fun (major, c) => ?_
    apply Gives.guard
    intro
    refine .bind fun (minor, c) => ?_
    exact hend _ rfl
  split
  · apply Gives.guard
    intro
    apply Gives.guard
    intro
    refine .bind fun (stands, c) => ?_
    apply Gives.guard
    intro
    exact hend _ rfl
  · rintro p ⟨⟩

/-! ### One step -/

/-- What a step does to the text, the indentation and the tokens. -/
structure Performed (s : Scanner) (k : Start) (t : Scanner) : Prop where
  word : ∀ w, k = .word w → ∃ l, w.read s.inFlow s.least s.cursor = .ok l ∧
    t.cursor = l.rest ∧ t.keyAllowed = l.keyAllowed ∧ t.inFlow = s.inFlow
  cursor : k.isOfDocument = false → (∀ w, k ≠ .word w) → t.cursor = s.cursor.forward 1
  indents : k.isOfDocument = false →
    t.indents = s.indents ∨ ∃ column, s.least ≤ column ∧ t.indents = column :: s.indents
  key : ∀ k', t.blockKey = some k' → s.blockKey = some k' ∨ k'.place = s.cursor.place
  subset : ∀ a ∈ s.tokens, a ∈ t.tokens
  head : t.tokens.head? ≠ some .blockEnd
  document : k.isOfDocument = true → ∃ a ∈ t.tokens, a.isOfDocument = true

variable {s t : Scanner}

theorem subset_insertAt (position : Nat) (a : Token) :
    ∀ b ∈ s.tokens, b ∈ (s.insertAt position a).tokens := by
  intro b hb
  exact (List.mem_insertIdx (Nat.sub_le _ _)).mpr (Or.inr hb)

theorem subset_openBlock (column position : Nat) (a : Token) :
    ∀ b ∈ s.tokens, b ∈ (s.openBlock column position a).tokens := by
  intro b hb
  unfold openBlock
  split
  · exact subset_insertAt (s := { s with indents := column :: s.indents }) position a b hb
  · exact hb

theorem indents_openBlock (column position : Nat) (a : Token) :
    (s.openBlock column position a).indents = s.indents ∨
      ∃ column', s.least ≤ column' ∧
        (s.openBlock column position a).indents = column' :: s.indents := by
  by_cases hopens : (!s.inFlow && decide (s.least ≤ column)) = true
  · simp only [Bool.and_eq_true, decide_eq_true_eq] at hopens
    refine Or.inr ⟨column, hopens.2, ?_⟩
    rw [openBlock, if_pos (by simpa using hopens)]
    rfl
  · refine Or.inl ?_
    rw [openBlock, if_neg hopens]

theorem blockKey_openBlock (column position : Nat) (a : Token) :
    (s.openBlock column position a).blockKey = s.blockKey := by
  unfold openBlock
  split <;> rfl

theorem blockKey_setCurrentKey (k? : Option PossibleKey) :
    (s.setCurrentKey k?).blockKey = s.blockKey ∨ (s.setCurrentKey k?).blockKey = k? := by
  unfold setCurrentKey
  split
  · exact Or.inr rfl
  · exact Or.inl rfl

theorem blockKey_dropKey (h : s.dropKey = .ok t) : t.blockKey = s.blockKey ∨ t.blockKey = none := by
  unfold dropKey at h
  split at h
  · split at h
    · cases h
    · cases h
      exact blockKey_setCurrentKey none
  · cases h
    exact Or.inl rfl

theorem eq_of_blockKey_dropKey (h : s.dropKey = .ok t) :
    ∀ k, t.blockKey = some k → s.blockKey = some k := by
  intro k hk
  rcases blockKey_dropKey h with hkey | hkey
  · exact hkey ▸ hk
  · rw [hkey] at hk
    cases hk

theorem blockKey_saveKey (h : s.saveKey = .ok t) :
    ∀ k, t.blockKey = some k → s.blockKey = some k ∨ k.place = s.cursor.place := by
  intro k hk
  unfold saveKey at h
  split at h
  · obtain ⟨d, hd, h⟩ := bind_eq_ok.mp h
    cases h
    rcases blockKey_setCurrentKey (s := d) (some ⟨d.tokens.length, d.cursor.place,
      !d.inFlow && d.indents.head? == some d.cursor.place.column⟩) with hkey | hkey
    · exact Or.inl (eq_of_blockKey_dropKey hd k (hkey ▸ hk))
    · rw [hkey] at hk
      cases hk
      exact Or.inr (congrArg Cursor.place (sameButKeys_dropKey hd).cursor)
  · cases h
    exact Or.inl hk

theorem blockKey_closeDocument (h : s.closeDocument = .ok t) :
    ∀ k, t.blockKey = some k → s.blockKey = some k := by
  obtain ⟨d, hd, h⟩ := bind_eq_ok.mp h
  cases h
  intro k hk
  have hkey := eq_of_blockKey_dropKey hd k hk
  unfold closeBlocks at hkey
  split at hkey <;> exact hkey

theorem subset_closeDocument (h : s.closeDocument = .ok t) : ∀ a ∈ s.tokens, a ∈ t.tokens := by
  obtain ⟨d, hd, h⟩ := bind_eq_ok.mp h
  have htokens := (sameButKeys_dropKey hd).tokens
  cases h
  intro a ha
  show a ∈ d.tokens
  rw [htokens, closeBlocks]
  split
  · exact ha
  · exact List.mem_append_right _ ha

theorem Performed.of_take {k : Start} {a : Token} {tokens : List Token}
    (hdocument : k.isOfDocument = false) (hword : ∀ w, k ≠ .word w)
    (hcursor : t.cursor = s.cursor.forward 1)
    (hindents : t.indents = s.indents ∨
      ∃ column, s.least ≤ column ∧ t.indents = column :: s.indents)
    (hkey : ∀ k', t.blockKey = some k' → s.blockKey = some k' ∨ k'.place = s.cursor.place)
    (htokens : t.tokens = a :: tokens) (ha : a ≠ .blockEnd)
    (hsubset : ∀ b ∈ s.tokens, b ∈ tokens) : Performed s k t where
  word w hw := absurd hw (hword w)
  cursor _ _ := hcursor
  indents _ := hindents
  key := hkey
  subset b hb := by
    rw [htokens]
    exact List.mem_cons_of_mem _ (hsubset b hb)
  head := by
    rw [htokens]
    exact fun hhead => ha (Option.some.inj hhead)
  document h := by
    rw [hdocument] at h
    cases h

theorem performed_entry {k : Start} {opening a : Token} {allowedAfter : Bool}
    (hdocument : k.isOfDocument = false) (hword : ∀ w, k ≠ .word w) (ha : a ≠ .blockEnd)
    (h : s.entry opening a allowedAfter = .ok t) : Performed s k t := by
  unfold entry at h
  split at h
  · cases h
  · obtain ⟨d, hd, h⟩ := bind_eq_ok.mp h
    have hsame := sameButKeys_dropKey hd
    cases h
    refine .of_take hdocument hword ?_ ?_ ?_ rfl ha ?_
    · exact congrArg (Cursor.forward · 1) (hsame.cursor.trans (cursor_openBlock s _ _ _))
    · exact hsame.indents ▸ indents_openBlock _ _ _
    · intro k' hk'
      exact Or.inl (blockKey_openBlock (s := s) _ _ _ ▸ eq_of_blockKey_dropKey hd k' hk')
    · intro b hb
      show b ∈ d.tokens
      rw [hsame.tokens]
      exact subset_openBlock _ _ _ b hb

theorem Performed.of_closeDocument {k : Start} {d : Scanner} {a : Token}
    (hdocument : k.isOfDocument = true) (hword : ∀ w, k ≠ .word w) (hd : s.closeDocument = .ok d)
    (hkey : t.blockKey = d.blockKey) (htokens : t.tokens = a :: d.tokens)
    (ha : a.isOfDocument = true) : Performed s k t where
  word w hw := absurd hw (hword w)
  cursor h := by
    rw [hdocument] at h
    cases h
  indents h := by
    rw [hdocument] at h
    cases h
  key k' hk' := Or.inl (blockKey_closeDocument hd k' (hkey ▸ hk'))
  subset b hb := by
    rw [htokens]
    exact List.mem_cons_of_mem _ (subset_closeDocument hd b hb)
  head := by
    rw [htokens]
    intro hhead
    cases hhead
    cases ha
  document _ := ⟨a, htokens ▸ List.mem_cons_self, ha⟩

theorem performed_word {w : Word} (h : s.perform (.word w) = .ok t) : Performed s (.word w) t := by
  obtain ⟨d, hd, h⟩ := bind_eq_ok.mp h
  have hsame := sameButKeys_ofWord hd
  have hkey : ∀ k, d.blockKey = some k → s.blockKey = some k ∨ k.place = s.cursor.place := by
    split at hd
    · exact fun k hk => Or.inl (eq_of_blockKey_dropKey hd k hk)
    · exact blockKey_saveKey hd
  obtain ⟨l, hl, rfl⟩ := map_eq_ok.mp h
  rw [hsame.inFlow, hsame.least, hsame.cursor] at hl
  refine ⟨?_, fun _ hne => absurd rfl (hne w), fun _ => Or.inl hsame.indents, hkey, ?_, ?_, nofun⟩
  · rintro w' ⟨⟩
    exact ⟨l, hl, rfl, rfl, hsame.inFlow⟩
  · intro a ha
    exact List.mem_cons_of_mem _ (hsame.tokens ▸ ha)
  · exact fun hhead => Word.token_ne_blockEnd hl (Option.some.inj hhead)

theorem performed_colon (h : s.colon = .ok t) : Performed s .colon t := by
  have hword : ∀ w, Start.colon ≠ .word w := fun w hw => by cases hw
  have hvalue : Token.value ≠ .blockEnd := by decide
  simp only [colon] at h
  split at h
  · next k hk =>
    cases h
    have hset := sameButKeys_setCurrentKey (s := (s.insertAt k.position .key).openBlock
      k.place.column k.position .blockMappingStart) none
    refine .of_take rfl hword ?_ ?_ ?_ rfl hvalue ?_
    · exact congrArg (Cursor.forward · 1) (hset.cursor.trans (cursor_openBlock _ _ _ _))
    · exact hset.indents ▸ indents_openBlock (s := s.insertAt k.position .key) _ _ _
    · intro k' hk'
      rcases blockKey_setCurrentKey (s := (s.insertAt k.position .key).openBlock
        k.place.column k.position .blockMappingStart) none with hkey | hkey
      · have hopen := blockKey_openBlock (s := s.insertAt k.position .key) k.place.column
          k.position .blockMappingStart
        exact Or.inl (hopen.symm.trans (hkey.symm.trans hk'))
      · cases hkey.symm.trans hk'
    · intro b hb
      show b ∈ (setCurrentKey _ none).tokens
      rw [hset.tokens]
      exact subset_openBlock _ _ _ b (subset_insertAt _ _ b hb)
  · split at h
    · cases h
    · cases h
      refine .of_take rfl hword ?_ (indents_openBlock _ _ _) ?_ rfl hvalue
        (subset_openBlock _ _ _)
      · exact congrArg (Cursor.forward · 1) (cursor_openBlock s _ _ _)
      · exact fun k' hk' => Or.inl ((blockKey_openBlock _ _ _).symm.trans hk')

theorem performed {k : Start} (h : s.perform k = .ok t) : Performed s k t := by
  cases k with
  | directive =>
    obtain ⟨d, hd, h⟩ := bind_eq_ok.mp h
    obtain ⟨⟨a, c⟩, ha, h⟩ := bind_eq_ok.mp h
    cases h
    exact .of_closeDocument rfl nofun hd rfl rfl (gives_scanDirective _ _ ha)
  | documentMark begins =>
    obtain ⟨d, hd, h⟩ := bind_eq_ok.mp h
    cases h
    refine .of_closeDocument rfl nofun hd rfl rfl ?_
    cases begins <;> rfl
  | openFlow mapping =>
    obtain ⟨d, hd, h⟩ := bind_eq_ok.mp h
    have hsame := sameButKeys_saveKey hd
    cases h
    refine .of_take rfl nofun (congrArg (Cursor.forward · 1) hsame.cursor) (Or.inl hsame.indents)
      (fun k hk => blockKey_saveKey hd k hk) rfl ?_ (fun b hb => hsame.tokens ▸ hb)
    cases mapping <;> nofun
  | closeFlow mapping =>
    obtain ⟨d, hd, h⟩ := bind_eq_ok.mp h
    have hsame := sameButKeys_dropKey hd
    cases h
    refine .of_take rfl nofun (congrArg (Cursor.forward · 1) hsame.cursor) (Or.inl hsame.indents)
      (fun k hk => Or.inl (eq_of_blockKey_dropKey hd k hk)) rfl ?_ (fun b hb => hsame.tokens ▸ hb)
    cases mapping <;> nofun
  | comma =>
    obtain ⟨d, hd, h⟩ := bind_eq_ok.mp h
    have hsame := sameButKeys_dropKey hd
    cases h
    exact .of_take rfl nofun (congrArg (Cursor.forward · 1) hsame.cursor) (Or.inl hsame.indents)
      (fun k hk => Or.inl (eq_of_blockKey_dropKey hd k hk)) rfl nofun
      (fun b hb => hsame.tokens ▸ hb)
  | word w => exact performed_word h
  | entry mapping =>
    cases mapping with
    | false => exact performed_entry rfl nofun (by decide) h
    | true => exact performed_entry rfl nofun (by decide) h
  | colon => exact performed_colon h

end Scanner

end PulseHits.Yaml
