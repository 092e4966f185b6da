import Mathlib.Data.List.Forall2
import Mathlib.Data.List.TakeWhile
import PulseHits.Proofs.Yaml.Opening
import PulseHits.Proofs.Yaml.Taken

/-!
# Entries of a mapping

Texts that each hold whole lines with entries of a mapping can be put together in any order
(`parse_join`): what is read of the whole is what is read of each of them.
-/

namespace PulseHits.Yaml

/-! ## Entries in front of more entries -/

/-- Key and value stay the same where they are scalars. -/
def KeepsEntry (e e' : Node × Node) : Prop :=
  e.1.Keeps e'.1 ∧ e.2.Keeps e'.2

section entries
variable {more : List Token} {s s' t : Source}

/-- The value of an entry, behind its key. -/
def entryValue (fuel : Nat) (s : Source) : Except Error (Node × Source) :=
  match s.tokens with
  | .value :: rest => nodeUnless fuel [.key, .value, .blockEnd] true true (s.advance rest)
  | _ => .ok (.empty, s)

theorem blockMapping_key {fuel : Nat} {done : List (Node × Node)} {rest : List Token}
    (hs : s.tokens = .key :: rest) :
    blockMapping (fuel + 1) done s =
      nodeUnless fuel [.key, .value, .blockEnd] true true (s.advance rest) >>= fun p =>
        entryValue fuel p.2 >>= fun q => blockMapping fuel ((p.1, q.1) :: done) q.2 := by
  rw [blockMapping, hs]
  refine Scanner.bind_congr ?_
  rintro ⟨k, tokens, handles, names, slots⟩
  rcases tokens with _ | ⟨a, rest⟩
  · rfl
  · cases a <;> rfl

theorem takes_entryValue {s₀ : Source} (fuel : Nat) (hs : s₀.Past s) :
    Takes s₀ (entryValue fuel s) := by
  unfold entryValue
  split
  · next h => exact (taking fuel).nodeUnless _ true true (hs.rest h)
  · exact .ok hs

theorem agree_entryValue (hmore : followsEntry more) {fuel fuel' : Nat} (hfuel : fuel ≤ fuel')
    (hs : s.Extends more s') : Agree more (entryValue fuel s) (entryValue fuel' s') := by
  unfold entryValue
  rcases hs.cases_tokens with ⟨htokens, htokens'⟩ | ⟨a, rest, rest', htokens, htokens', hrest⟩
  · obtain ⟨rest, rfl | rfl⟩ := hmore <;>
    · rw [htokens, htokens']
      exact .ok (.refl _) hs
  · rw [htokens, htokens']
    cases a with
    | value => exact (agreement hmore fuel).nodeUnless _ true true hfuel hrest fun _ => rfl
    | _ => exact .ok (.refl _) hs

/-- One entry, behind its mark. More is read behind it, so it ends in front of the end. -/
theorem entry_extends (hmore : followsEntry more) {fuel fuel' : Nat} (hfuel : fuel ≤ fuel')
    {k v : Node} {u w : Source} (hs : s.Extends more s')
    (hk : nodeUnless fuel [.key, .value, .blockEnd] true true s = .ok (k, u))
    (hv : entryValue fuel u = .ok (v, w)) (hw : w.tokens ≠ []) :
    w.tokens.length ≤ s.tokens.length ∧
      ∃ k' v' u' w', KeepsEntry (k, v) (k', v') ∧
        nodeUnless fuel' [.key, .value, .blockEnd] true true s' = .ok (k', u') ∧
        entryValue fuel' u' = .ok (v', w') ∧ w.Extends more w' ∧ w'.handles = s'.handles := by
  have hpast := takes_entryValue fuel ((taking fuel).nodeUnless _ true true (.refl _) k u hk) v w hv
  have hu : u.tokens ≠ [] := by
    intro hnil
    rw [entryValue, hnil] at hv
    cases hv
    exact hw hnil
  obtain ⟨k', u', hk', hkeeps, hextends⟩ :=
    ((agreement hmore fuel).nodeUnless _ true true hfuel hs (fun _ => rfl) k u hk).resolve_left hu
  obtain ⟨v', w', hv', hvkeeps, hextends'⟩ :=
    (agree_entryValue hmore hfuel hextends v w hv).resolve_left hw
  have hpast' := takes_entryValue fuel'
    ((taking fuel').nodeUnless _ true true (.refl _) k' u' hk') v' w' hv'
  exact ⟨hpast.length, k', v', u', w', ⟨hkeeps, hvkeeps⟩, hk', hv', hextends', hpast'.handles⟩

theorem blockMapping_extends (hmore : followsEntry more) {fuel fuel' : Nat}
    {done entries : List (Node × Node)} (done' : List (Node × Node))
    (h : blockMapping fuel done s = .ok (.mapping entries, t)) (ht : t.tokens = [])
    (hs : s.Extends more s') (hfuel : fuel ≤ fuel') :
    ∃ new new' t', entries = done.reverse ++ new ∧ List.Forall₂ KeepsEntry new new' ∧
      new.length < s.tokens.length ∧ new.length ≤ fuel' ∧ t'.tokens = more ∧
      t'.handles = s'.handles ∧
      blockMapping fuel' done' s' =
        blockMapping (fuel' - new.length) (new'.reverse ++ done') t' := by
  induction fuel generalizing fuel' done done' s s' with
  | zero => cases h
  | succ fuel ih =>
    obtain ⟨fuel', rfl⟩ : ∃ n, fuel' = n + 1 := ⟨fuel' - 1, by omega⟩
    have hle : fuel ≤ fuel' := Nat.le_of_succ_le_succ hfuel
    rcases hs.cases_tokens with ⟨htokens, htokens'⟩ | ⟨a, rest, rest', htokens, htokens', hrest⟩
    · rw [blockMapping, htokens] at h
      cases h
      exact ⟨[], [], s', (List.append_nil _).symm, .nil, by simp [htokens], Nat.zero_le _, htokens',
        rfl, rfl⟩
    · cases a with
      | key =>
        rw [blockMapping_key htokens] at h
        obtain ⟨⟨k, u⟩, hk, h⟩ := bind_eq_ok.mp h
        obtain ⟨⟨v, w⟩, hv, h⟩ := bind_eq_ok.mp h
        have hw : w.tokens ≠ [] := fun hnil => tokens_blockMapping_nil hnil _ _ h
        obtain ⟨hlength, k', v', u', w', hkeeps, hk', hv', hextends, hhandles⟩ :=
          entry_extends hmore hle hrest hk hv hw
        obtain ⟨new, new', t', hentries, hnew, hcount, hfuel', ht', hhandles', heq⟩ :=
          ih ((k', v') :: done') h hextends hle
        refine ⟨(k, v) :: new, (k', v') :: new', t', ?_, .cons hkeeps hnew, ?_,
          Nat.succ_le_succ hfuel', ht', hhandles'.trans hhandles, ?_⟩
        · rw [hentries]
          simp
        · have hcount : new.length < w.tokens.length := hcount
          have hlength : w.tokens.length ≤ rest.length := hlength
          rw [htokens, List.length_cons, List.length_cons]
          omega
        · rw [blockMapping_key htokens', hk']
          show (entryValue fuel' u' >>= _) = _
          rw [hv']
          show blockMapping fuel' ((k', v') :: done') w' = _
          rw [heq]
          simp [Nat.add_sub_add_right]
      | blockEnd =>
        rw [blockMapping, htokens] at h
        cases h
        obtain ⟨ts, hts, -⟩ := hrest.tokens
        rw [ht] at hts
        exact absurd hts.symm (by simp)
      | _ =>
        rw [blockMapping, htokens] at h
        cases h

end entries

/-! ## Tokens of entries -/

/-- A document that is a mapping and nothing else. -/
def mappingDocument? (tokens : List Token) : Option (List (Node × Node)) :=
  match Document.ofTokens (.blockMappingStart :: tokens) with
  | .ok ⟨.mapping entries, _⟩ => some entries
  | _ => none

theorem ofTokens_eq (tokens : List Token) :
    Document.ofTokens (.blockMappingStart :: tokens) =
      blockMapping (4 * tokens.length + 7) [] ⟨tokens, Document.standardHandles, [], []⟩ >>=
        fun (root, s) =>
          if (s.tokens.dropWhile (· == .documentEnd)).isEmpty then .ok ⟨root, s.slots⟩
          else .error .severalDocuments := by
  have hnode : node (4 * (tokens.length + 1) + 4) true false
      ⟨.blockMappingStart :: tokens, Document.standardHandles, [], []⟩ =
        blockMapping (4 * tokens.length + 7) [] ⟨tokens, Document.standardHandles, [], []⟩ := by
    rw [show 4 * (tokens.length + 1) + 4 = (4 * tokens.length + 7) + 1 by omega,
      node_eq _ _ _ (by nofun)]
    rfl
  rw [← hnode]
  have hmark : ((Token.blockMappingStart :: tokens).head? == some Token.documentStart) = false := rfl
  simp only [Document.ofTokens, Document.directives, Document.endsBefore, bind, Except.bind, hmark,
    Nat.lt_irrefl, decide_false, Bool.false_and, Bool.false_eq_true, if_false]
  rfl

theorem of_mappingDocument? {ts : List Token} {entries : List (Node × Node)}
    (h : mappingDocument? (ts ++ [.blockEnd]) = some entries) :
    ∃ t, blockMapping (4 * ts.length + 11) []
        ⟨ts ++ [.blockEnd], Document.standardHandles, [], []⟩ = .ok (.mapping entries, t) ∧
      t.tokens = [] := by
  unfold mappingDocument? at h
  rw [ofTokens_eq] at h
  split at h
  · next nodes slots hdocument =>
    cases h
    obtain ⟨⟨root, t⟩, hroot, hrest⟩ := bind_eq_ok.mp hdocument
    simp only at hrest
    split at hrest
    · next hends =>
      cases hrest
      rw [List.length_append, List.length_singleton, Nat.mul_add] at hroot
      refine ⟨t, hroot, ?_⟩
      -- whatever is left ends with the end of the mapping, which ends no document
      have hself : (Source.mk (ts ++ [.blockEnd]) Document.standardHandles [] []).Extends
          [.blockEnd] ⟨ts ++ [.blockEnd], Document.standardHandles, [], []⟩ :=
        ⟨⟨ts, rfl, rfl⟩, rfl, nofun⟩
      rcases (agreement ⟨[], Or.inr rfl⟩ _).blockMapping [] [] (Nat.le_refl _) hself _ t hroot with
        hnil | ⟨_, _, _, _, hextends⟩
      · exact hnil
      · obtain ⟨ts', hts', -⟩ := hextends.tokens
        rw [hts', List.isEmpty_iff] at hends
        have hlast := List.dropWhile_eq_nil_iff.mp hends .blockEnd (by simp)
        cases hlast
    · cases hrest
  · cases h

theorem followsEntry_of_tokens {ts more : List Token} {fuel : Nat} {entries : List (Node × Node)}
    {t : Source} (hmore : followsEntry more)
    (h : blockMapping fuel [] ⟨ts ++ [.blockEnd], Document.standardHandles, [], []⟩ =
      .ok (.mapping entries, t)) : followsEntry (ts ++ more) := by
  cases fuel with
  | zero => cases h
  | succ fuel =>
    cases ts with
    | nil => exact hmore
    | cons a ts =>
      rw [blockMapping] at h
      cases a with
      | key => exact ⟨_, Or.inl rfl⟩
      | blockEnd => exact ⟨_, Or.inr rfl⟩
      | _ => cases h

/-- Tokens with the entries that they stand for by themselves. -/
abbrev Part := List Token × List (Node × Node)

theorem followsEntry_parts {parts : List Part}
    (hparts : ∀ p ∈ parts, mappingDocument? (p.1 ++ [.blockEnd]) = some p.2) :
    followsEntry (parts.flatMap Prod.fst ++ [.blockEnd]) := by
  induction parts with
  | nil => exact ⟨[], Or.inr rfl⟩
  | cons p parts ih =>
    obtain ⟨t, hp, -⟩ := of_mappingDocument? (hparts _ List.mem_cons_self)
    rw [List.flatMap_cons, List.append_assoc]
    exact followsEntry_of_tokens (ih fun q hq => hparts q (List.mem_cons_of_mem _ hq)) hp

theorem blockMapping_parts {parts : List Part}
    (hparts : ∀ p ∈ parts, mappingDocument? (p.1 ++ [.blockEnd]) = some p.2) (fuel : Nat)
    (s : Source) (done : List (Node × Node)) (hs : s.tokens = parts.flatMap Prod.fst ++ [.blockEnd])
    (hhandles : s.handles = Document.standardHandles)
    (hfuel : 4 * (parts.flatMap Prod.fst).length + 11 ≤ fuel) :
    ∃ entries t, blockMapping fuel done s = .ok (.mapping (done.reverse ++ entries), t) ∧
      t.tokens = [] ∧ List.Forall₂ KeepsEntry (parts.flatMap Prod.snd) entries := by
  induction parts generalizing fuel s done with
  | nil =>
    obtain ⟨fuel, rfl⟩ : ∃ n, fuel = n + 1 := ⟨fuel - 1, by omega⟩
    rw [blockMapping, hs]
    exact ⟨[], _, by rw [List.append_nil]; rfl, rfl, .nil⟩
  | cons p parts ih =>
    obtain ⟨ts, entries⟩ := p
    obtain ⟨t, hread, ht⟩ := of_mappingDocument? (hparts _ List.mem_cons_self)
    have hrest : ∀ p ∈ parts, mappingDocument? (p.1 ++ [.blockEnd]) = some p.2 :=
      fun p hp => hparts p (List.mem_cons_of_mem _ hp)
    rw [List.flatMap_cons, List.append_assoc] at hs
    rw [List.flatMap_cons, List.length_append] at hfuel
    have hextends : (Source.mk (ts ++ [.blockEnd]) Document.standardHandles [] []).Extends
        (parts.flatMap Prod.fst ++ [.blockEnd]) s :=
      ⟨⟨ts, rfl, hs⟩, hhandles, fun p hp => absurd hp List.not_mem_nil⟩
    have hfuel : 4 * ts.length + 4 * (parts.flatMap Prod.fst).length + 11 ≤ fuel := by
      simp only at hfuel
      omega
    obtain ⟨new, new', t', hentries, hnew, hlength, -, ht', hhandles', heq⟩ :=
      blockMapping_extends (followsEntry_parts hrest) done hread ht hextends
        (show 4 * ts.length + 11 ≤ fuel by omega)
    rw [List.reverse_nil, List.nil_append] at hentries
    obtain rfl := hentries
    have hlength : entries.length ≤ ts.length := by
      simp only [List.length_append, List.length_singleton] at hlength
      omega
    obtain ⟨entries', u, hread', hu, hentries'⟩ :=
      ih hrest (fuel - entries.length) t' (new'.reverse ++ done) ht' (hhandles'.trans hhandles)
        (by omega)
    refine ⟨new' ++ entries', u, ?_, hu, ?_⟩
    · rw [heq, hread']
      simp
    · rw [List.flatMap_cons]
      exact List.rel_append hnew hentries'

theorem ofTokens_parts {parts : List Part}
    (hparts : ∀ p ∈ parts, mappingDocument? (p.1 ++ [.blockEnd]) = some p.2) :
    ∃ d entries,
      Document.ofTokens (.blockMappingStart :: (parts.flatMap Prod.fst ++ [.blockEnd])) = .ok d ∧
        d.root = .mapping entries ∧ List.Forall₂ KeepsEntry (parts.flatMap Prod.snd) entries := by
  obtain ⟨entries, t, hread, ht, hentries⟩ := blockMapping_parts hparts
    (4 * (parts.flatMap Prod.fst).length + 11)
    ⟨parts.flatMap Prod.fst ++ [.blockEnd], Document.standardHandles, [], []⟩ [] rfl rfl
    (Nat.le_refl _)
  refine ⟨⟨.mapping entries, t.slots⟩, entries, ?_, rfl, hentries⟩
  rw [ofTokens_eq, List.length_append, List.length_singleton, Nat.mul_add]
  refine bind_eq_ok.mpr ⟨_, hread, ?_⟩
  simp [ht]

end PulseHits.Yaml
