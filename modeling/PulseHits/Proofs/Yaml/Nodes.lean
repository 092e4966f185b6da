import PulseHits.Proofs.Yaml.Scalars
import PulseHits.Yaml.Node

/-!
# Nodes in front of more tokens

What is read of a mapping does not depend on what follows it, be it the next key or the end of the
mapping: the nodes are the same up to the slots that their aliases refer to.
-/

namespace PulseHits.Yaml

/-- A scalar stays the same. -/
def Node.Keeps (n n' : Node) : Prop :=
  ∀ tag? style text, n = .scalar tag? style text → n' = n

theorem Node.Keeps.refl (n : Node) : n.Keeps n := fun _ _ _ _ => rfl

/-- Two sources, of which the second has `more` in place of the end of the mapping. -/
structure Source.Extends (more : List Token) (s s' : Source) : Prop where
  tokens : ∃ ts, s.tokens = ts ++ [.blockEnd] ∧ s'.tokens = ts ++ more
  handles : s'.handles = s.handles
  names : ∀ p ∈ s.names, ∃ p' ∈ s'.names, p'.1 = p.1

/-- Two results, of which the second is that of a source with `more` in place of the end of the
mapping, unless the end of the mapping has been read. -/
def Agree (more : List Token) (r r' : Except Error (Node × Source)) : Prop :=
  ∀ n s, r = .ok (n, s) → s.tokens = [] ∨
    ∃ n' s', r' = .ok (n', s') ∧ n.Keeps n' ∧ s.Extends more s'

/-- What can follow an entry of a mapping: the next key or the end. -/
def followsEntry (more : List Token) : Prop :=
  ∃ rest, more = .key :: rest ∨ more = .blockEnd :: rest

namespace Source.Extends
variable {more : List Token} {s s' : Source}

/-- Both go on with one token, or both have read the entries. -/
theorem cases_tokens (h : s.Extends more s') :
    (s.tokens = [.blockEnd] ∧ s'.tokens = more) ∨ ∃ t rest rest', s.tokens = t :: rest ∧
      s'.tokens = t :: rest' ∧ (s.advance rest).Extends more (s'.advance rest') := by
  obtain ⟨ts, hs, hs'⟩ := h.tokens
  cases ts with
  | nil => exact Or.inl ⟨hs, hs'⟩
  | cons t ts => exact Or.inr ⟨t, _, _, hs, hs', ⟨ts, rfl, rfl⟩, h.handles, h.names⟩

theorem name (h : s.Extends more s') (anchor? : Option (List Char)) (n n' : Node) :
    (s.name anchor? n).Extends more (s'.name anchor? n') := by
  cases anchor? with
  | none => exact h
  | some a =>
    refine ⟨h.tokens, h.handles, fun p hp => ?_⟩
    rcases List.mem_cons.mp hp with rfl | hp
    · exact ⟨_, List.mem_cons_self, rfl⟩
    · obtain ⟨hmem, hne⟩ := List.mem_filter.mp hp
      obtain ⟨p', hp', heq⟩ := h.names p hmem
      exact ⟨p', List.mem_cons_of_mem _ (List.mem_filter.mpr ⟨hp', heq ▸ hne⟩), heq⟩

theorem name_advance {rest rest' : List Token}
    (h : (s.advance rest).Extends more (s'.advance rest')) (anchor? : Option (List Char))
    (n n' : Node) :
    ((s.name anchor? n).advance rest).Extends more ((s'.name anchor? n').advance rest') := by
  cases anchor? with
  | none => exact h
  | some a => exact h.name (some a) n n'

theorem lookup_names (h : s.Extends more s') {a : List Char} {slot : Nat}
    (ha : s.names.lookup a = some slot) : ∃ slot', s'.names.lookup a = some slot' := by
  have hsome : (s.names.lookup a).isSome = true := by
    rw [ha]
    rfl
  obtain ⟨p, hp, hpa⟩ := List.lookup_isSome_iff.mp hsome
  obtain ⟨p', hp', heq⟩ := h.names p hp
  exact Option.isSome_iff_exists.mp (List.lookup_isSome_iff.mpr ⟨p', hp', heq ▸ hpa⟩)

theorem properties (h : s.Extends more s') (hmore : followsEntry more)
    {anchor? : Option (List Char)} {tag? : Option Tag} {t : Source}
    (hs : s.properties = .ok (anchor?, tag?, t)) :
    ∃ t', s'.properties = .ok (anchor?, tag?, t') ∧ t.Extends more t' := by
  obtain ⟨tokens, handles, names, slots⟩ := s
  obtain ⟨tokens', handles', names', slots'⟩ := s'
  obtain ⟨⟨ts, hts, hts'⟩, hhandles, hnames⟩ := h
  simp only at hts hts' hhandles hnames
  subst hts hts' hhandles
  have hextends : ∀ ts, Extends more ⟨ts ++ [.blockEnd], handles', names, slots⟩
      ⟨ts ++ more, handles', names', slots'⟩ := fun ts => ⟨⟨ts, rfl, rfl⟩, rfl, hnames⟩
  rcases ts with _ | ⟨t₁, ts⟩
  · obtain ⟨rest, rfl | rfl⟩ := hmore <;>
    · cases hs
      exact ⟨_, rfl, hextends []⟩
  cases t₁ with
  | anchor a =>
    rcases ts with _ | ⟨t₂, ts⟩
    · obtain ⟨rest, rfl | rfl⟩ := hmore <;>
      · cases hs
        exact ⟨_, rfl, hextends []⟩
    cases t₂ with
    | tag handle suffix =>
      obtain ⟨tag, htag, hs⟩ := bind_eq_ok.mp hs
      cases hs
      exact ⟨_, bind_eq_ok.mpr ⟨tag, htag, rfl⟩, hextends ts⟩
    | _ =>
      cases hs
      exact ⟨_, rfl, hextends (_ :: ts)⟩
  | tag handle suffix =>
    rcases ts with _ | ⟨t₂, ts⟩
    · obtain ⟨rest, rfl | rfl⟩ := hmore <;>
      · obtain ⟨tag, htag, hs⟩ := bind_eq_ok.mp hs
        cases hs
        exact ⟨_, bind_eq_ok.mpr ⟨tag, htag, rfl⟩, hextends []⟩
    cases t₂ with
    | anchor a =>
      obtain ⟨tag, htag, hs⟩ := bind_eq_ok.mp hs
      cases hs
      exact ⟨_, bind_eq_ok.mpr ⟨tag, htag, rfl⟩, hextends ts⟩
    | _ =>
      obtain ⟨tag, htag, hs⟩ := bind_eq_ok.mp hs
      cases hs
      exact ⟨_, bind_eq_ok.mpr ⟨tag, htag, rfl⟩, hextends (_ :: ts)⟩
  | _ =>
    cases hs
    exact ⟨_, rfl, hextends (_ :: ts)⟩

theorem atOneOf (h : s.Extends more s') (hmore : followsEntry more) (ends : List Token)
    (hends : s.tokens = [.blockEnd] → ends.contains .key = ends.contains .blockEnd) :
    s'.atOneOf ends = s.atOneOf ends := by
  unfold Source.atOneOf
  rcases h.cases_tokens with ⟨hs, hs'⟩ | ⟨t, rest, rest', hs, hs', -⟩
  · have hends := hends hs
    rw [hs, hs']
    obtain ⟨rest, rfl | rfl⟩ := hmore
    · exact hends
    · rfl
  · rw [hs, hs']
    rfl

theorem of_starts (h : s.Extends more s') (hmore : followsEntry more) {t : Token} (hkey : t ≠ .key)
    (hend : t ≠ .blockEnd) {rest : List Token} (heq : s'.tokens = t :: rest) :
    ∃ rest, s.tokens = t :: rest := by
  rcases h.cases_tokens with ⟨hs, hs'⟩ | ⟨t', rest₁, rest₁', hs, hs', -⟩
  · rw [hs'] at heq
    obtain ⟨rest', rfl | rfl⟩ := hmore
    · exact absurd (List.cons.inj heq).1.symm hkey
    · exact absurd (List.cons.inj heq).1.symm hend
  · obtain rfl : t' = t := (List.cons.inj (hs'.symm.trans heq)).1
    exact ⟨_, hs⟩

end Source.Extends

namespace Agree
variable {more : List Token} {s s' : Source} {r r' : Except Error (Node × Source)}

theorem ok {n n' : Node} (hn : n.Keeps n') (hs : s.Extends more s') :
    Agree more (.ok (n, s)) (.ok (n', s')) := by
  rintro m t ⟨⟩
  exact Or.inr ⟨n', s', rfl, hn, hs⟩

theorem error (e : Error) (r' : Except Error (Node × Source)) : Agree more (.error e) r' := nofun

theorem of_nil {n : Node} (hs : s.tokens = []) (r' : Except Error (Node × Source)) :
    Agree more (.ok (n, s)) r' := by
  rintro m t ⟨⟩
  exact Or.inl hs

/-- Behind the end of the mapping nothing may be read. -/
theorem bind {f f' : Node × Source → Except Error (Node × Source)} (h : Agree more r r')
    (hnil : ∀ n t, t.tokens = [] → ∀ m u, f (n, t) = .ok (m, u) → u.tokens = [])
    (hf : ∀ n n' t t', n.Keeps n' → t.Extends more t' → Agree more (f (n, t)) (f' (n', t'))) :
    Agree more (r >>= f) (r' >>= f') := by
  intro m u hm
  obtain ⟨⟨n, t⟩, hr, hm⟩ := bind_eq_ok.mp hm
  rcases h n t hr with ht | ⟨n', t', hr', hn, ht⟩
  · exact Or.inl (hnil n t ht m u hm)
  · rw [hr']
    exact hf n n' t t' hn ht m u hm

theorem leftOut (h : s.Extends more s') (anchor? : Option (List Char)) (tag? : Option Tag) :
    Agree more (leftOut anchor? tag? s) (leftOut anchor? tag? s') := by
  unfold Yaml.leftOut
  split
  · exact error _ _
  · exact ok (.refl _) (h.name anchor? _ _)

end Agree

/-! ## Behind the end of the mapping -/

section nil
variable {s : Source} (hs : s.tokens = [])
include hs

theorem tokens_blockSequence_nil (fuel : Nat) (done : List Node) {n : Node} {t : Source} :
    blockSequence fuel done s ≠ .ok (n, t) := by
  cases fuel with
  | zero => nofun
  | succ fuel => rw [blockSequence, hs]; nofun

theorem tokens_blockMapping_nil (fuel : Nat) (done : List (Node × Node)) {n : Node} {t : Source} :
    blockMapping fuel done s ≠ .ok (n, t) := by
  cases fuel with
  | zero => nofun
  | succ fuel => rw [blockMapping, hs]; nofun

theorem tokens_flowSequence_nil (fuel : Nat) (done : List Node) {n : Node} {t : Source} :
    flowSequence fuel false done s ≠ .ok (n, t) := by
  cases fuel with
  | zero => nofun
  | succ fuel => rw [flowSequence, hs]; nofun

theorem tokens_flowMapping_nil (fuel : Nat) (done : List (Node × Node)) {n : Node} {t : Source} :
    flowMapping fuel false done s ≠ .ok (n, t) := by
  cases fuel with
  | zero => nofun
  | succ fuel => rw [flowMapping, hs]; nofun

theorem tokens_indentlessSequence_nil {fuel : Nat} {done : List Node} {n : Node} {t : Source}
    (h : indentlessSequence fuel done s = .ok (n, t)) : t.tokens = [] := by
  cases fuel with
  | zero => cases h
  | succ fuel =>
    rw [indentlessSequence, hs] at h
    cases h
    exact hs

end nil

theorem eq_of_nodeUnless_blockEnd {fuel : Nat} {ends : List Token} {block indentless : Bool}
    {s t : Source} {n : Node} (hs : s.tokens = [.blockEnd]) (hends : ends.contains .blockEnd = true)
    (h : nodeUnless fuel ends block indentless s = .ok (n, t)) : t = s := by
  cases fuel with
  | zero => cases h
  | succ fuel =>
    rw [nodeUnless, if_pos (by rw [Source.atOneOf, hs]; exact hends)] at h
    cases h
    rfl

theorem tokens_blockSequence_blockEnd {fuel : Nat} {done : List Node} {s t : Source} {n : Node}
    (hs : s.tokens = [.blockEnd]) (h : blockSequence fuel done s = .ok (n, t)) : t.tokens = [] := by
  cases fuel with
  | zero => cases h
  | succ fuel =>
    rw [blockSequence, hs] at h
    cases h
    rfl

/-! ## Nodes in front of more tokens -/

/-- A node behind its properties. -/
def content (fuel : Nat) (block indentless : Bool) (anchor? : Option (List Char))
    (tag? : Option Tag) (s : Source) : Except Error (Node × Source) :=
  match s.tokens with
  | .scalar style text :: rest =>
    .ok (.scalar tag? style text, (s.name anchor? (.scalar tag? style text)).advance rest)
  | .flowSequenceStart :: rest =>
    flowSequence fuel true [] ((s.name anchor? (.sequence [])).advance rest)
  | .flowMappingStart :: rest =>
    flowMapping fuel true [] ((s.name anchor? (.mapping [])).advance rest)
  | .blockEntry :: _ =>
    if indentless then indentlessSequence fuel [] (s.name anchor? (.sequence []))
    else leftOut anchor? tag? s
  | .blockSequenceStart :: rest =>
    if block then blockSequence fuel [] ((s.name anchor? (.sequence [])).advance rest)
    else leftOut anchor? tag? s
  | .blockMappingStart :: rest =>
    if block then blockMapping fuel [] ((s.name anchor? (.mapping [])).advance rest)
    else leftOut anchor? tag? s
  | _ => leftOut anchor? tag? s

theorem node_eq (fuel : Nat) (block indentless : Bool) {s : Source}
    (h : ∀ a rest, s.tokens ≠ .alias a :: rest) :
    node (fuel + 1) block indentless s =
      s.properties >>= fun p => content fuel block indentless p.1 p.2.1 p.2.2 := by
  rw [node]
  split
  · next a rest heq => exact absurd heq (h a rest)
  · rfl

/-- What all readings with some fuel have in common. -/
structure Agreement (more : List Token) (fuel : Nat) : Prop where
  node : ∀ {fuel' s s'} (block indentless : Bool), fuel ≤ fuel' → s.Extends more s' →
    Agree more (node fuel block indentless s) (node fuel' block indentless s')
  nodeUnless : ∀ {fuel' s s'} (ends : List Token) (block indentless : Bool), fuel ≤ fuel' →
    s.Extends more s' →
    (s.tokens = [.blockEnd] → ends.contains .key = ends.contains .blockEnd) →
    Agree more (nodeUnless fuel ends block indentless s) (nodeUnless fuel' ends block indentless s')
  blockSequence : ∀ {fuel' s s'} (done done' : List Node), fuel ≤ fuel' → s.Extends more s' →
    Agree more (blockSequence fuel done s) (blockSequence fuel' done' s')
  indentlessSequence : ∀ {fuel' s s'} (done done' : List Node), fuel ≤ fuel' → s.Extends more s' →
    Agree more (indentlessSequence fuel done s) (indentlessSequence fuel' done' s')
  blockMapping : ∀ {fuel' s s'} (done done' : List (Node × Node)), fuel ≤ fuel' →
    s.Extends more s' → Agree more (blockMapping fuel done s) (blockMapping fuel' done' s')
  flowSequence : ∀ {fuel' s s'} (first : Bool) (done done' : List Node), fuel ≤ fuel' →
    s.Extends more s' →
    Agree more (flowSequence fuel first done s) (flowSequence fuel' first done' s')
  flowMapping : ∀ {fuel' s s'} (first : Bool) (done done' : List (Node × Node)), fuel ≤ fuel' →
    s.Extends more s' →
    Agree more (flowMapping fuel first done s) (flowMapping fuel' first done' s')

section agreement
variable {more : List Token} {fuel fuel' : Nat} {s s' : Source}

theorem agree_content (ih : Agreement more fuel) (hmore : followsEntry more) (hfuel : fuel ≤ fuel')
    (block indentless : Bool) (anchor? : Option (List Char)) (tag? : Option Tag)
    (h : s.Extends more s') :
    Agree more (content fuel block indentless anchor? tag? s)
      (content fuel' block indentless anchor? tag? s') := by
  have hleft := Agree.leftOut h anchor? tag?
  unfold content
  rcases h.cases_tokens with ⟨hs, hs'⟩ | ⟨t, rest, rest', hs, hs', hrest⟩
  · obtain ⟨rest, rfl | rfl⟩ := hmore <;>
    · rw [hs, hs']
      exact hleft
  · rw [hs, hs']
    cases t with
    | scalar style text => exact .ok (.refl _) (hrest.name_advance anchor? _ _)
    | flowSequenceStart => exact ih.flowSequence true [] [] hfuel (hrest.name_advance anchor? _ _)
    | flowMappingStart => exact ih.flowMapping true [] [] hfuel (hrest.name_advance anchor? _ _)
    | blockEntry =>
      cases indentless with
      | false => exact hleft
      | true => exact ih.indentlessSequence [] [] hfuel (h.name anchor? _ _)
    | blockSequenceStart =>
      cases block with
      | false => exact hleft
      | true => exact ih.blockSequence [] [] hfuel (hrest.name_advance anchor? _ _)
    | blockMappingStart =>
      cases block with
      | false => exact hleft
      | true => exact ih.blockMapping [] [] hfuel (hrest.name_advance anchor? _ _)
    | _ => exact hleft

theorem agree_node (ih : Agreement more fuel) (hmore : followsEntry more) (hfuel : fuel ≤ fuel')
    (block indentless : Bool) (h : s.Extends more s') :
    Agree more (node (fuel + 1) block indentless s) (node (fuel' + 1) block indentless s') := by
  have hproperties : (∀ a rest, s.tokens ≠ .alias a :: rest) →
      (∀ a rest, s'.tokens ≠ .alias a :: rest) →
        Agree more (node (fuel + 1) block indentless s) (node (fuel' + 1) block indentless s') := by
    intro hs hs'
    rw [node_eq fuel block indentless hs, node_eq fuel' block indentless hs']
    intro n t hn
    obtain ⟨⟨anchor?, tag?, u⟩, hu, hn⟩ := bind_eq_ok.mp hn
    obtain ⟨u', hu', hextends⟩ := h.properties hmore hu
    rw [hu']
    exact agree_content ih hmore hfuel block indentless anchor? tag? hextends n t hn
  rcases h.cases_tokens with ⟨hs, hs'⟩ | ⟨t, rest, rest', hs, hs', hrest⟩
  · refine hproperties (by rw [hs]; nofun) ?_
    obtain ⟨rest, rfl | rfl⟩ := hmore <;>
    · rw [hs']
      nofun
  · cases t with
    | «alias» a =>
      rw [node, node, hs, hs']
      simp only
      cases hlookup : s.names.lookup a with
      | none => exact .error _ _
      | some slot =>
        obtain ⟨slot', hlookup'⟩ := h.lookup_names hlookup
        rw [hlookup']
        exact .ok nofun hrest
    | _ => exact hproperties (by rw [hs]; nofun) (by rw [hs']; nofun)

theorem agree_nodeUnless (ih : Agreement more fuel) (hmore : followsEntry more)
    (hfuel : fuel ≤ fuel') (ends : List Token) (block indentless : Bool) (h : s.Extends more s')
    (hends : s.tokens = [.blockEnd] → ends.contains .key = ends.contains .blockEnd) :
    Agree more (nodeUnless (fuel + 1) ends block indentless s)
      (nodeUnless (fuel' + 1) ends block indentless s') := by
  rw [nodeUnless, nodeUnless, h.atOneOf hmore ends hends]
  split
  · exact .ok (.refl _) h
  · exact ih.node block indentless hfuel h

theorem agree_blockSequence (ih : Agreement more fuel)
    (hfuel : fuel ≤ fuel') (done done' : List Node) (h : s.Extends more s') :
    Agree more (blockSequence (fuel + 1) done s) (blockSequence (fuel' + 1) done' s') := by
  rw [blockSequence, blockSequence]
  rcases h.cases_tokens with ⟨hs, hs'⟩ | ⟨t, rest, rest', hs, hs', hrest⟩
  · rw [hs]
    exact .of_nil rfl _
  · rw [hs, hs']
    cases t with
    | blockEntry =>
      by_cases hend : (s.advance rest).tokens = [.blockEnd]
      · -- the entry is left out, and the end of the mapping taken for that of the sequence
        intro n t hn
        obtain ⟨⟨m, u⟩, hu, hn⟩ := bind_eq_ok.mp hn
        obtain rfl := eq_of_nodeUnless_blockEnd hend rfl hu
        exact Or.inl (tokens_blockSequence_blockEnd hend hn)
      · refine .bind (ih.nodeUnless _ true false hfuel hrest fun hs => absurd hs hend) ?_ ?_
        · exact fun n t ht m u hm => absurd hm (tokens_blockSequence_nil ht _ _)
        · exact fun n n' t t' _ ht => ih.blockSequence _ _ hfuel ht
    | blockEnd => exact .ok nofun hrest
    | _ => exact .error _ _

theorem agree_indentlessSequence (ih : Agreement more fuel) (hmore : followsEntry more)
    (hfuel : fuel ≤ fuel') (done done' : List Node) (h : s.Extends more s') :
    Agree more (indentlessSequence (fuel + 1) done s)
      (indentlessSequence (fuel' + 1) done' s') := by
  rw [indentlessSequence, indentlessSequence]
  rcases h.cases_tokens with ⟨hs, hs'⟩ | ⟨t, rest, rest', hs, hs', hrest⟩
  · obtain ⟨rest, rfl | rfl⟩ := hmore <;>
    · rw [hs, hs']
      exact .ok nofun h
  · rw [hs, hs']
    cases t with
    | blockEntry =>
      refine .bind (ih.nodeUnless _ true false hfuel hrest fun _ => rfl) ?_ ?_
      · exact fun n t ht m u hm => tokens_indentlessSequence_nil ht hm
      · exact fun n n' t t' _ ht => ih.indentlessSequence _ _ hfuel ht
    | _ => exact .ok nofun h

theorem agree_blockMapping (ih : Agreement more fuel) (hmore : followsEntry more)
    (hfuel : fuel ≤ fuel') (done done' : List (Node × Node)) (h : s.Extends more s') :
    Agree more (blockMapping (fuel + 1) done s) (blockMapping (fuel' + 1) done' s') := by
  rw [blockMapping, blockMapping]
  rcases h.cases_tokens with ⟨hs, hs'⟩ | ⟨t, rest, rest', hs, hs', hrest⟩
  · rw [hs]
    exact .of_nil rfl _
  · rw [hs, hs']
    cases t with
    | key =>
      refine .bind (ih.nodeUnless _ true true hfuel hrest fun _ => rfl) ?_ ?_
      · intro n t ht m u hm
        simp only [ht] at hm
        exact absurd hm (tokens_blockMapping_nil ht _ _)
      · intro k k' t t' _ ht
        simp only
        rcases ht.cases_tokens with ⟨hts, hts'⟩ | ⟨a, rest, rest', hts, hts', hrest⟩
        · obtain ⟨rest, rfl | rfl⟩ := hmore <;>
          · rw [hts, hts']
            exact ih.blockMapping _ _ hfuel ht
        · rw [hts, hts']
          cases a with
          | value =>
            refine .bind (ih.nodeUnless _ true true hfuel hrest fun _ => rfl) ?_ ?_
            · exact fun n t ht m u hm => absurd hm (tokens_blockMapping_nil ht _ _)
            · exact fun n n' t t' _ ht => ih.blockMapping _ _ hfuel ht
          | _ => exact ih.blockMapping _ _ hfuel ht
    | blockEnd => exact .ok nofun hrest
    | _ => exact .error _ _

/-! ### Flow collections -/

theorem node_blockEnd {fuel : Nat} {block indentless : Bool} {s : Source}
    (hs : s.tokens = [.blockEnd]) {p : Node × Source} : node fuel block indentless s ≠ .ok p := by
  obtain ⟨tokens, handles, names, slots⟩ := s
  simp only at hs
  subst hs
  cases fuel <;> nofun

/-- What stands behind the comma in front of an entry, if there has to be one. -/
def afterComma (first : Bool) (tokens : List Token) : Option (List Token) :=
  if first then some tokens
  else
    match tokens with
    | .flowEntry :: rest => some rest
    | _ => none

/-- An entry of a flow mapping and those after it. -/
def flowMappingEntry (fuel : Nat) (done : List (Node × Node)) (s : Source) :
    Except Error (Node × Source) :=
  match s.tokens with
  | .flowMappingEnd :: rest => .ok (.mapping done.reverse, s.advance rest)
  | .key :: rest =>
    nodeUnless fuel [.value, .flowEntry, .flowMappingEnd] false false (s.advance rest) >>=
      fun (k, s) =>
        match s.tokens with
        | .value :: rest =>
          nodeUnless fuel [.flowEntry, .flowMappingEnd] false false (s.advance rest) >>=
            fun (v, s) => flowMapping fuel false ((k, v) :: done) s
        | _ => flowMapping fuel false ((k, .empty) :: done) s
  | _ => node fuel false false s >>= fun (k, s) => flowMapping fuel false ((k, .empty) :: done) s

theorem flowMapping_eq (fuel : Nat) (first : Bool) (done : List (Node × Node)) (s : Source)
    (h : ∀ rest, s.tokens ≠ .flowMappingEnd :: rest) :
    flowMapping (fuel + 1) first done s =
      match afterComma first s.tokens with
      | none => .error .unexpectedToken
      | some tokens => flowMappingEntry fuel done (s.advance tokens) := by
  obtain ⟨tokens, handles, names, slots⟩ := s
  rw [flowMapping]
  cases first with
  | true =>
    rcases tokens with _ | ⟨t, rest⟩
    · rfl
    · cases t <;> rfl
  | false =>
    rcases tokens with _ | ⟨t, rest⟩
    · rfl
    · cases t with
      | flowEntry =>
        rcases rest with _ | ⟨u, rest⟩
        · rfl
        · cases u <;> rfl
      | flowMappingEnd => exact absurd rfl (h rest)
      | _ => rfl

/-- An entry of a flow sequence and those after it. -/
def flowSequenceEntry (fuel : Nat) (done : List Node) (s : Source) : Except Error (Node × Source) :=
  match s.tokens with
  | .flowSequenceEnd :: rest => .ok (.sequence done.reverse, s.advance rest)
  | .key :: rest => do
    let s := s.advance rest
    let (k, s) ←
      if s.atOneOf [.value, .flowEntry, .flowSequenceEnd] then
        pure (Node.empty, s.advance (s.tokens.drop 1))
      else node fuel false false s
    match s.tokens with
    | .value :: rest =>
      let (v, s) ← nodeUnless fuel [.flowEntry, .flowSequenceEnd] false false (s.advance rest)
      flowSequence fuel false (.mapping [(k, v)] :: done) s
    | _ => flowSequence fuel false (.mapping [(k, .empty)] :: done) s
  | _ => node fuel false false s >>= fun (n, s) => flowSequence fuel false (n :: done) s

theorem flowSequence_eq (fuel : Nat) (first : Bool) (done : List Node) (s : Source)
    (h : ∀ rest, s.tokens ≠ .flowSequenceEnd :: rest) :
    flowSequence (fuel + 1) first done s =
      match afterComma first s.tokens with
      | none => .error .unexpectedToken
      | some tokens => flowSequenceEntry fuel done (s.advance tokens) := by
  obtain ⟨tokens, handles, names, slots⟩ := s
  rw [flowSequence]
  cases first with
  | true =>
    rcases tokens with _ | ⟨t, rest⟩
    · rfl
    · cases t with
      | flowSequenceEnd => exact absurd rfl (h rest)
      | _ => rfl
  | false =>
    rcases tokens with _ | ⟨t, rest⟩
    · rfl
    · cases t with
      | flowEntry =>
        rcases rest with _ | ⟨u, rest⟩
        · rfl
        · cases u <;> rfl
      | flowSequenceEnd => exact absurd rfl (h rest)
      | _ => rfl

theorem Source.Extends.afterComma (h : s.Extends more s') (first : Bool) :
    afterComma first s.tokens = none ∨ ∃ tokens tokens',
      afterComma first s.tokens = some tokens ∧ afterComma first s'.tokens = some tokens' ∧
        (s.advance tokens).Extends more (s'.advance tokens') := by
  cases first with
  | true => exact Or.inr ⟨s.tokens, s'.tokens, rfl, rfl, h⟩
  | false =>
    rcases h.cases_tokens with ⟨hs, -⟩ | ⟨t, rest, rest', hs, hs', hrest⟩
    · exact Or.inl (by rw [hs]; rfl)
    · rw [hs, hs']
      cases t with
      | flowEntry => exact Or.inr ⟨rest, rest', rfl, rfl, hrest⟩
      | _ => exact Or.inl rfl

theorem agree_flowMappingEntry (ih : Agreement more fuel) (hmore : followsEntry more)
    (hfuel : fuel ≤ fuel') (done done' : List (Node × Node)) (h : s.Extends more s') :
    Agree more (flowMappingEntry fuel done s) (flowMappingEntry fuel' done' s') := by
  have hmap : ∀ (k k' : Node) {t t' : Source}, t.Extends more t' →
      Agree more (flowMapping fuel false ((k, .empty) :: done) t)
        (flowMapping fuel' false ((k', .empty) :: done') t') :=
    fun k k' t t' ht => ih.flowMapping false _ _ hfuel ht
  unfold flowMappingEntry
  rcases h.cases_tokens with ⟨hs, -⟩ | ⟨t, rest, rest', hs, hs', hrest⟩
  · intro n t hn
    rw [hs] at hn
    obtain ⟨p, hp, -⟩ := bind_eq_ok.mp hn
    exact absurd hp (node_blockEnd hs)
  · rw [hs, hs']
    have hnode : Agree more
        (node fuel false false s >>= fun (k, s) => flowMapping fuel false ((k, .empty) :: done) s)
        (node fuel' false false s' >>=
          fun (k, s) => flowMapping fuel' false ((k, .empty) :: done') s) :=
      .bind (ih.node false false hfuel h)
        (fun n t ht m u hm => absurd hm (tokens_flowMapping_nil ht _ _))
        fun n n' t t' _ ht => hmap n n' ht
    cases t with
    | flowMappingEnd => exact .ok nofun hrest
    | key =>
      refine .bind (ih.nodeUnless _ false false hfuel hrest fun _ => rfl) ?_ ?_
      · intro n t ht m u hm
        simp only [ht] at hm
        exact absurd hm (tokens_flowMapping_nil ht _ _)
      · intro k k' t t' _ ht
        simp only
        rcases ht.cases_tokens with ⟨hts, hts'⟩ | ⟨a, rest, rest', hts, hts', hrest⟩
        · obtain ⟨rest, rfl | rfl⟩ := hmore <;>
          · rw [hts, hts']
            exact hmap k k' ht
        · rw [hts, hts']
          cases a with
          | value =>
            refine .bind (ih.nodeUnless _ false false hfuel hrest fun _ => rfl) ?_ ?_
            · exact fun n t ht m u hm => absurd hm (tokens_flowMapping_nil ht _ _)
            · exact fun n n' t t' _ ht => ih.flowMapping false _ _ hfuel ht
          | _ => exact hmap k k' ht
    | _ => exact hnode

theorem agree_flowMapping (ih : Agreement more fuel) (hmore : followsEntry more)
    (hfuel : fuel ≤ fuel') (first : Bool) (done done' : List (Node × Node))
    (h : s.Extends more s') :
    Agree more (flowMapping (fuel + 1) first done s) (flowMapping (fuel' + 1) first done' s') := by
  by_cases hend : ∃ rest, s.tokens = .flowMappingEnd :: rest
  · obtain ⟨rest, hend⟩ := hend
    rcases h.cases_tokens with ⟨hs, -⟩ | ⟨t, rest, rest', hs, hs', hrest⟩
    · cases hs.symm.trans hend
    · obtain rfl : t = .flowMappingEnd := (List.cons.inj (hs.symm.trans hend)).1
      rw [flowMapping, flowMapping, hs, hs']
      exact .ok nofun hrest
  · rw [flowMapping_eq fuel first done s fun rest heq => hend ⟨rest, heq⟩]
    rw [flowMapping_eq fuel' first done' s' ?_]
    · rcases h.afterComma first with hnone | ⟨tokens, tokens', hs, hs', hrest⟩
      · rw [hnone]
        exact .error _ _
      · rw [hs, hs']
        exact agree_flowMappingEntry ih hmore hfuel done done' hrest
    · exact fun rest heq => hend (h.of_starts hmore nofun nofun heq)

theorem agree_flowSequenceEntry (ih : Agreement more fuel) (hmore : followsEntry more)
    (hfuel : fuel ≤ fuel') (done done' : List Node) (h : s.Extends more s') :
    Agree more (flowSequenceEntry fuel done s) (flowSequenceEntry fuel' done' s') := by
  unfold flowSequenceEntry
  rcases h.cases_tokens with ⟨hs, -⟩ | ⟨t, rest, rest', hs, hs', hrest⟩
  · intro n t hn
    rw [hs] at hn
    obtain ⟨p, hp, -⟩ := bind_eq_ok.mp hn
    exact absurd hp (node_blockEnd hs)
  · rw [hs, hs']
    have hnode : Agree more
        (node fuel false false s >>= fun (n, s) => flowSequence fuel false (n :: done) s)
        (node fuel' false false s' >>= fun (n, s) => flowSequence fuel' false (n :: done') s) :=
      .bind (ih.node false false hfuel h)
        (fun n t ht m u hm => absurd hm (tokens_flowSequence_nil ht _ _))
        fun n n' t t' _ ht => ih.flowSequence false _ _ hfuel ht
    cases t with
    | flowSequenceEnd => exact .ok nofun hrest
    | key =>
      extract_lets f f'
      have hnil : ∀ k t, t.tokens = [] → ∀ m u, f (k, t) = .ok (m, u) → u.tokens = [] := by
        intro k t ht m u hm
        simp only [f, ht] at hm
        exact absurd hm (tokens_flowSequence_nil ht _ _)
      have hvalue : ∀ k k' t t', Node.Keeps k k' → t.Extends more t' →
          Agree more (f (k, t)) (f' (k', t')) := by
        intro k k' t t' _ ht
        simp only [f, f']
        rcases ht.cases_tokens with ⟨hts, hts'⟩ | ⟨a, rest, rest', hts, hts', hrest⟩
        · obtain ⟨rest, rfl | rfl⟩ := hmore <;>
          · rw [hts, hts']
            exact ih.flowSequence false _ _ hfuel ht
        · rw [hts, hts']
          cases a with
          | value =>
            refine .bind (ih.nodeUnless _ false false hfuel hrest fun _ => rfl) ?_ ?_
            · exact fun n t ht m u hm => absurd hm (tokens_flowSequence_nil ht _ _)
            · exact fun n n' t t' _ ht => ih.flowSequence false _ _ hfuel ht
          | _ => exact ih.flowSequence false _ _ hfuel ht
      have hkey : Agree more (node fuel false false (s.advance rest) >>= f)
          (node fuel' false false (s'.advance rest') >>= f') :=
        .bind (ih.node false false hfuel hrest) hnil hvalue
      have hsame := hrest.atOneOf hmore [.value, .flowEntry, .flowSequenceEnd] fun _ => rfl
      by_cases hends : (s.advance rest).atOneOf [.value, .flowEntry, .flowSequenceEnd] = true
      · simp only [hends, hsame, if_true]
        rcases hrest.cases_tokens with ⟨hts, -⟩ | ⟨a, rest₁, rest₁', hts, hts', hrest₁⟩
        · rw [Source.atOneOf, hts] at hends
          cases hends
        · rw [hts, hts']
          exact hvalue _ _ _ _ (.refl _) hrest₁
      · simp only [hends, hsame, Bool.false_eq_true, if_false]
        exact hkey
    | _ => exact hnode

theorem agree_flowSequence (ih : Agreement more fuel) (hmore : followsEntry more)
    (hfuel : fuel ≤ fuel') (first : Bool) (done done' : List Node) (h : s.Extends more s') :
    Agree more (flowSequence (fuel + 1) first done s) (flowSequence (fuel' + 1) first done' s') := by
  by_cases hend : ∃ rest, s.tokens = .flowSequenceEnd :: rest
  · obtain ⟨rest, hend⟩ := hend
    rcases h.cases_tokens with ⟨hs, -⟩ | ⟨t, rest, rest', hs, hs', hrest⟩
    · cases hs.symm.trans hend
    · obtain rfl : t = .flowSequenceEnd := (List.cons.inj (hs.symm.trans hend)).1
      rw [flowSequence, flowSequence, hs, hs']
      exact .ok nofun hrest
  · rw [flowSequence_eq fuel first done s fun rest heq => hend ⟨rest, heq⟩]
    rw [flowSequence_eq fuel' first done' s' ?_]
    · rcases h.afterComma first with hnone | ⟨tokens, tokens', hs, hs', hrest⟩
      · rw [hnone]
        exact .error _ _
      · rw [hs, hs']
        exact agree_flowSequenceEntry ih hmore hfuel done done' hrest
    · exact fun rest heq => hend (h.of_starts hmore nofun nofun heq)

/-- Whatever is read in front of more tokens agrees with what is read in front of the end. -/
theorem agreement (hmore : followsEntry more) (fuel : Nat) : Agreement more fuel := by
  induction fuel with
  | zero =>
    constructor <;> intros <;> exact .error _ _
  | succ fuel ih =>
    have hsucc : ∀ {fuel'}, fuel + 1 ≤ fuel' → ∃ n, fuel' = n + 1 ∧ fuel ≤ n := by
      intro fuel' hfuel
      exact ⟨fuel' - 1, by omega, by omega⟩
    constructor
    · intro fuel' s s' block indentless hfuel h
      obtain ⟨n, rfl, hn⟩ := hsucc hfuel
      exact agree_node ih hmore hn block indentless h
    · intro fuel' s s' ends block indentless hfuel h hends
      obtain ⟨n, rfl, hn⟩ := hsucc hfuel
      exact agree_nodeUnless ih hmore hn ends block indentless h hends
    · intro fuel' s s' done done' hfuel h
      obtain ⟨n, rfl, hn⟩ := hsucc hfuel
      exact agree_blockSequence ih hn done done' h
    · intro fuel' s s' done done' hfuel h
      obtain ⟨n, rfl, hn⟩ := hsucc hfuel
      exact agree_indentlessSequence ih hmore hn done done' h
    · intro fuel' s s' done done' hfuel h
      obtain ⟨n, rfl, hn⟩ := hsucc hfuel
      exact agree_blockMapping ih hmore hn done done' h
    · intro fuel' s s' first done done' hfuel h
      obtain ⟨n, rfl, hn⟩ := hsucc hfuel
      exact agree_flowSequence ih hmore hn first done done' h
    · intro fuel' s s' first done done' hfuel h
      obtain ⟨n, rfl, hn⟩ := hsucc hfuel
      exact agree_flowMapping ih hmore hn first done done' h

end agreement

end PulseHits.Yaml
