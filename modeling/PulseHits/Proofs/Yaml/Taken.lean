import PulseHits.Proofs.Yaml.Nodes

/-!
# Tokens that are taken

Reading a node takes tokens from the front, leaves no more than there were, and changes no tag handle
(`taking`). So there are no more entries in a mapping than tokens.
-/

namespace PulseHits.Yaml

/-- A source from which tokens have been taken. -/
structure Source.Past (s₀ s : Source) : Prop where
  length : s.tokens.length ≤ s₀.tokens.length
  handles : s.handles = s₀.handles

namespace Source.Past
variable {s₀ s t : Source}

theorem refl (s : Source) : s.Past s := ⟨Nat.le_refl _, rfl⟩

theorem trans (h : s₀.Past s) (h' : s.Past t) : s₀.Past t :=
  ⟨Nat.le_trans h'.length h.length, h'.handles.trans h.handles⟩

theorem name (h : s₀.Past s) (anchor? : Option (List Char)) (n : Node) :
    s₀.Past (s.name anchor? n) := by
  cases anchor? with
  | none => exact h
  | some a => exact ⟨h.length, h.handles⟩

theorem advance (h : s₀.Past s) {rest : List Token} (hrest : rest.length ≤ s.tokens.length) :
    s₀.Past (s.advance rest) :=
  ⟨Nat.le_trans hrest h.length, h.handles⟩

theorem rest (h : s₀.Past s) {a : Token} {rest : List Token} (hs : s.tokens = a :: rest) :
    s₀.Past (s.advance rest) :=
  h.advance (by rw [hs]; exact Nat.le_succ _)

theorem name_rest (h : s₀.Past s) {a : Token} {rest : List Token} (hs : s.tokens = a :: rest)
    (anchor? : Option (List Char)) (n : Node) : s₀.Past ((s.name anchor? n).advance rest) := by
  cases anchor? with
  | none => exact h.rest hs
  | some b => exact (h.name (some b) n).rest hs

theorem properties {anchor? : Option (List Char)} {tag? : Option Tag}
    (h : s.properties = .ok (anchor?, tag?, t)) : s.Past t := by
  unfold Source.properties at h
  extract_lets resolve at h
  split at h
  · next hs =>
    obtain ⟨tag, -, h⟩ := bind_eq_ok.mp h
    cases h
    exact (refl s).advance (by rw [hs]; exact Nat.le_add_right _ 2)
  · next hs =>
    obtain ⟨tag, -, h⟩ := bind_eq_ok.mp h
    cases h
    exact (refl s).advance (by rw [hs]; exact Nat.le_add_right _ 2)
  · next hs =>
    cases h
    exact (refl s).rest hs
  · next hs =>
    obtain ⟨tag, -, h⟩ := bind_eq_ok.mp h
    cases h
    exact (refl s).rest hs
  · cases h
    exact refl s

end Source.Past

/-- Whatever is read, tokens have been taken for it. -/
def Takes (s₀ : Source) (r : Except Error (Node × Source)) : Prop :=
  ∀ n t, r = .ok (n, t) → s₀.Past t

namespace Takes
variable {s₀ s : Source} {r : Except Error (Node × Source)}

theorem ok {n : Node} (hs : s₀.Past s) : Takes s₀ (.ok (n, s)) := by
  rintro m t ⟨⟩
  exact hs

theorem error (e : Error) : Takes s₀ (.error e) := nofun

theorem bind {f : Node × Source → Except Error (Node × Source)} (h : Takes s₀ r)
    (hf : ∀ n t, s₀.Past t → Takes s₀ (f (n, t))) : Takes s₀ (r >>= f) := by
  intro m u hm
  obtain ⟨⟨n, t⟩, hr, hm⟩ := bind_eq_ok.mp hm
  exact hf n t (h n t hr) m u hm

theorem leftOut (hs : s₀.Past s) (anchor? : Option (List Char)) (tag? : Option Tag) :
    Takes s₀ (leftOut anchor? tag? s) := by
  unfold Yaml.leftOut
  split
  · exact error _
  · exact ok (hs.name _ _)

end Takes

section taking
variable {s₀ s : Source}

/-- What all readings with some fuel take. -/
structure Taking (fuel : Nat) : Prop where
  node : ∀ {s₀ s} (block indentless : Bool), s₀.Past s →
    Takes s₀ (node fuel block indentless s)
  nodeUnless : ∀ {s₀ s} (ends : List Token) (block indentless : Bool),
    s₀.Past s → Takes s₀ (nodeUnless fuel ends block indentless s)
  blockSequence : ∀ {s₀ s} (done : List Node), s₀.Past s →
    Takes s₀ (blockSequence fuel done s)
  indentlessSequence : ∀ {s₀ s} (done : List Node), s₀.Past s →
    Takes s₀ (indentlessSequence fuel done s)
  blockMapping : ∀ {s₀ s} (done : List (Node × Node)), s₀.Past s →
    Takes s₀ (blockMapping fuel done s)
  flowSequence : ∀ {s₀ s} (first : Bool) (done : List Node), s₀.Past s →
    Takes s₀ (flowSequence fuel first done s)
  flowMapping : ∀ {s₀ s} (first : Bool) (done : List (Node × Node)), s₀.Past s →
    Takes s₀ (flowMapping fuel first done s)

variable {fuel : Nat}

theorem takes_content (ih : Taking fuel) (block indentless : Bool)
    (anchor? : Option (List Char)) (tag? : Option Tag) (hs : s₀.Past s) :
    Takes s₀ (content fuel block indentless anchor? tag? s) := by
  have hleft := Takes.leftOut hs anchor? tag?
  unfold content
  split
  · next h => exact .ok (hs.name_rest h anchor? _)
  · next h => exact ih.flowSequence true [] (hs.name_rest h anchor? _)
  · next h => exact ih.flowMapping true [] (hs.name_rest h anchor? _)
  · split
    · exact ih.indentlessSequence [] (hs.name anchor? _)
    · exact hleft
  · next h =>
    split
    · exact ih.blockSequence [] (hs.name_rest h anchor? _)
    · exact hleft
  · next h =>
    split
    · exact ih.blockMapping [] (hs.name_rest h anchor? _)
    · exact hleft
  · exact hleft

theorem takes_node (ih : Taking fuel) (block indentless : Bool)
    (hs : s₀.Past s) : Takes s₀ (node (fuel + 1) block indentless s) := by
  by_cases halias : ∃ a rest, s.tokens = .alias a :: rest
  · obtain ⟨a, rest, h⟩ := halias
    rw [node, h]
    simp only
    split
    · exact .ok (hs.rest h)
    · exact .error _
  · rw [node_eq fuel block indentless fun a rest h => halias ⟨a, rest, h⟩]
    intro n t hn
    obtain ⟨⟨anchor?, tag?, u⟩, hu, hn⟩ := bind_eq_ok.mp hn
    exact takes_content ih block indentless anchor? tag?
      (hs.trans (.properties hu)) n t hn

theorem takes_nodeUnless (ih : Taking fuel) (ends : List Token) (block indentless : Bool)
    (hs : s₀.Past s) :
    Takes s₀ (nodeUnless (fuel + 1) ends block indentless s) := by
  rw [nodeUnless]
  split
  · exact .ok hs
  · exact ih.node block indentless hs

theorem takes_blockSequence (ih : Taking fuel) (done : List Node)
    (hs : s₀.Past s) : Takes s₀ (blockSequence (fuel + 1) done s) := by
  rw [blockSequence]
  split
  · next h =>
    exact .bind (ih.nodeUnless _ true false (hs.rest h)) fun n t ht =>
      ih.blockSequence _ ht
  · next h => exact .ok (hs.rest h)
  · exact .error _

theorem takes_indentlessSequence (ih : Taking fuel) (done : List Node)
    (hs : s₀.Past s) : Takes s₀ (indentlessSequence (fuel + 1) done s) := by
  rw [indentlessSequence]
  split
  · next h =>
    exact .bind (ih.nodeUnless _ true false (hs.rest h)) fun n t ht =>
      ih.indentlessSequence _ ht
  · exact .ok hs

theorem takes_blockMapping (ih : Taking fuel) (done : List (Node × Node))
    (hs : s₀.Past s) : Takes s₀ (blockMapping (fuel + 1) done s) := by
  rw [blockMapping]
  split
  · next h =>
    refine .bind (ih.nodeUnless _ true true (hs.rest h)) fun k t ht => ?_
    simp only
    split
    · next h =>
      exact .bind (ih.nodeUnless _ true true (ht.rest h)) fun v u hu =>
        ih.blockMapping _ hu
    · exact ih.blockMapping _ ht
  · next h => exact .ok (hs.rest h)
  · exact .error _

theorem length_afterComma {first : Bool} {tokens rest : List Token}
    (h : afterComma first tokens = some rest) : rest.length ≤ tokens.length := by
  unfold afterComma at h
  split at h
  · cases h
    exact Nat.le_refl _
  · split at h
    · cases h
      exact Nat.le_succ _
    · cases h

theorem takes_flowMapping (ih : Taking fuel) (first : Bool) (done : List (Node × Node))
    (hs : s₀.Past s) : Takes s₀ (flowMapping (fuel + 1) first done s) := by
  by_cases hend : ∃ rest, s.tokens = .flowMappingEnd :: rest
  · obtain ⟨rest, h⟩ := hend
    rw [flowMapping, h]
    exact .ok (hs.rest h)
  · rw [flowMapping_eq fuel first done s fun rest heq => hend ⟨rest, heq⟩]
    split
    · exact .error _
    · next tokens htokens =>
      have hs : s₀.Past (s.advance tokens) := hs.advance (length_afterComma htokens)
      generalize s.advance tokens = s at hs
      unfold flowMappingEntry
      split
      · next h => exact .ok (hs.rest h)
      · next h =>
        refine .bind (ih.nodeUnless _ false false (hs.rest h)) fun k t ht => ?_
        simp only
        split
        · next h =>
          exact .bind (ih.nodeUnless _ false false (ht.rest h)) fun v u hu =>
            ih.flowMapping false _ hu
        · exact ih.flowMapping false _ ht
      · exact .bind (ih.node false false hs) fun k t ht => ih.flowMapping false _ ht

theorem takes_flowSequence (ih : Taking fuel) (first : Bool) (done : List Node)
    (hs : s₀.Past s) : Takes s₀ (flowSequence (fuel + 1) first done s) := by
  by_cases hend : ∃ rest, s.tokens = .flowSequenceEnd :: rest
  · obtain ⟨rest, h⟩ := hend
    rw [flowSequence, h]
    exact .ok (hs.rest h)
  · rw [flowSequence_eq fuel first done s fun rest heq => hend ⟨rest, heq⟩]
    split
    · exact .error _
    · next tokens htokens =>
      have hs : s₀.Past (s.advance tokens) := hs.advance (length_afterComma htokens)
      generalize s.advance tokens = s at hs
      unfold flowSequenceEntry
      extract_lets f
      have hvalue : ∀ k t, s₀.Past t → Takes s₀ (f (k, t)) := by
        intro k t ht
        simp only [f]
        split
        · next h =>
          exact .bind (ih.nodeUnless _ false false (ht.rest h)) fun v u hu =>
            ih.flowSequence false _ hu
        · exact ih.flowSequence false _ ht
      split
      · next h => exact .ok (hs.rest h)
      · next rest h =>
        have hrest := hs.rest h
        simp only
        split
        · exact hvalue _ _ (hrest.advance (List.drop_sublist 1 rest).length_le)
        · exact .bind (ih.node false false hrest) hvalue
      · exact .bind (ih.node false false hs) fun n t ht => ih.flowSequence false _ ht

theorem taking (fuel : Nat) : Taking fuel := by
  induction fuel with
  | zero => constructor <;> intros <;> exact .error _
  | succ fuel ih =>
    exact ⟨takes_node ih, takes_nodeUnless ih, takes_blockSequence ih,
      takes_indentlessSequence ih, takes_blockMapping ih, takes_flowSequence ih,
      takes_flowMapping ih⟩

end taking

end PulseHits.Yaml
