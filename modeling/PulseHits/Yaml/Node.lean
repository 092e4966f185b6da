import PulseHits.Yaml.Token

/-!
# Nodes

A document is a tree of scalars, sequences and mappings. An anchor names the node behind it, and an
alias stands for the node named last at that point. Wherever the rules let a node be left out, an
empty plain scalar takes its place.
-/

namespace PulseHits.Yaml

inductive Node where
  | scalar (tag? : Option Tag) (style : Style) (text : List Char)
  /-- The node in a slot of the document. -/
  | alias (slot : Nat)
  | sequence (items : List Node)
  | mapping (entries : List (Node × Node))
  deriving Repr, Inhabited

/-- The node that stands where none is written. -/
def Node.empty : Node :=
  .scalar none .plain []

/-- The tokens still to be read and what the anchors so far name. -/
structure Source where
  tokens : List Token
  /-- What the tag handles stand for. -/
  handles : List (List Char × Tag)
  /-- The slot that each anchor name refers to, latest first. -/
  names : List (List Char × Nat)
  /-- The node in each slot, latest first; of a collection only its kind is kept. -/
  slots : List (Nat × Node)

namespace Source

def advance (s : Source) (tokens : List Token) : Source :=
  { s with tokens }

/-- Gives a node its name. Slots are numbered by how many names there are. -/
def name (s : Source) (anchor? : Option (List Char)) (n : Node) : Source :=
  match anchor? with
  | none => s
  | some a =>
    let slot := s.names.length
    { s with
      names := (a, slot) :: s.names.filter (·.1 != a)
      slots := (slot, n) :: s.slots }

/-- Anchor and tag in front of a node, in either order. -/
def properties (s : Source) : Except Error (Option (List Char) × Option Tag × Source) := do
  let resolve (handle : List Char) (suffix : Tag) : Except Error Tag :=
    if handle.isEmpty then .ok suffix
    else
      match s.handles.lookup handle with
      | some stands => .ok (stands ++ suffix)
      | none => .error .undefinedTag
  match s.tokens with
  | .anchor a :: .tag h t :: rest => return (some a, some (← resolve h t), s.advance rest)
  | .tag h t :: .anchor a :: rest => return (some a, some (← resolve h t), s.advance rest)
  | .anchor a :: rest => return (some a, none, s.advance rest)
  | .tag h t :: rest => return (none, some (← resolve h t), s.advance rest)
  | _ => return (none, none, s)

/-- Whether the next token is one of `ends`, at which a node has been left out. -/
def atOneOf (s : Source) (ends : List Token) : Bool :=
  s.tokens.head?.any ends.contains

end Source

/-- A node of which only anchor or tag are written. -/
def leftOut (anchor? : Option (List Char)) (tag? : Option Tag) (s : Source) : Except Error (Node × Source) :=
  if anchor?.isNone && tag?.isNone then .error .unexpectedToken
  else
    let n : Node := .scalar tag? .plain []
    .ok (n, s.name anchor? n)

mutual

/-- Reads a node. Block collections are allowed if `block`; a sequence that is indented no further
than the mapping around it, if `indentless`. -/
def node (fuel : Nat) (block indentless : Bool) (s : Source) : Except Error (Node × Source) :=
  match fuel with
  | 0 => .error .tooDeep
  | fuel + 1 =>
    match s.tokens with
    | .alias a :: rest =>
      match s.names.lookup a with
      | some slot => .ok (.alias slot, s.advance rest)
      | none => .error .unknownAnchor
    | _ => do
      let (anchor?, tag?, s) ← s.properties
      match s.tokens with
      | .scalar style text :: rest =>
        let n : Node := .scalar tag? style text
        return (n, (s.name anchor? n).advance rest)
      | .flowSequenceStart :: rest =>
        flowSequence fuel true [] ((s.name anchor? (.sequence [])).advance rest)
      | .flowMappingStart :: rest =>
        flowMapping fuel true [] ((s.name anchor? (.mapping [])).advance rest)
      | .blockEntry :: _ =>
        if indentless then indentlessSequence fuel [] (s.name anchor? (.sequence []))
        else leftOut anchor? tag? s
      | .blockSequenceStart :: rest =>
        if block then blockSequence fuel [] ((s.name anchor? (.sequence [])).advance rest)
        else leftOut anchor? tag? s
      | .blockMappingStart :: rest =>
        if block then blockMapping fuel [] ((s.name anchor? (.mapping [])).advance rest)
        else leftOut anchor? tag? s
      | _ => leftOut anchor? tag? s

/-- Reads a node unless it is left out in front of one of `ends`. -/
def nodeUnless (fuel : Nat) (ends : List Token) (block indentless : Bool) (s : Source) :
    Except Error (Node × Source) :=
  match fuel with
  | 0 => .error .tooDeep
  | fuel + 1 => if s.atOneOf ends then .ok (.empty, s) else node fuel block indentless s

/-- Reads the entries of a block sequence after `done`, latest first. -/
def blockSequence (fuel : Nat) (done : List Node) (s : Source) : Except Error (Node × Source) :=
  match fuel with
  | 0 => .error .tooDeep
  | fuel + 1 =>
    match s.tokens with
    | .blockEntry :: rest => do
      let (n, s) ← nodeUnless fuel [.blockEntry, .blockEnd] true false (s.advance rest)
      blockSequence fuel (n :: done) s
    | .blockEnd :: rest => .ok (.sequence done.reverse, s.advance rest)
    | _ => .error .unexpectedToken

/-- Reads the entries of a sequence that ends where no further entry follows. -/
def indentlessSequence (fuel : Nat) (done : List Node) (s : Source) :
    Except Error (Node × Source) :=
  match fuel with
  | 0 => .error .tooDeep
  | fuel + 1 =>
    match s.tokens with
    | .blockEntry :: rest => do
      let (n, s) ← nodeUnless fuel [.blockEntry, .key, .value, .blockEnd] true false
        (s.advance rest)
      indentlessSequence fuel (n :: done) s
    | _ => .ok (.sequence done.reverse, s)

/-- Reads the entries of a block mapping after `done`, latest first. -/
def blockMapping (fuel : Nat) (done : List (Node × Node)) (s : Source) :
    Except Error (Node × Source) :=
  match fuel with
  | 0 => .error .tooDeep
  | fuel + 1 =>
    match s.tokens with
    | .key :: rest => do
      let (k, s) ← nodeUnless fuel [.key, .value, .blockEnd] true true (s.advance rest)
      match s.tokens with
      | .value :: rest =>
        let (v, s) ← nodeUnless fuel [.key, .value, .blockEnd] true true (s.advance rest)
        blockMapping fuel ((k, v) :: done) s
      | _ => blockMapping fuel ((k, .empty) :: done) s
    | .blockEnd :: rest => .ok (.mapping done.reverse, s.advance rest)
    | _ => .error .unexpectedToken

/-- Reads the entries of a flow sequence after `done`, latest first. An entry may be a mapping of
one pair. -/
def flowSequence (fuel : Nat) (first : Bool) (done : List Node) (s : Source) :
    Except Error (Node × Source) :=
  match fuel with
  | 0 => .error .tooDeep
  | fuel + 1 =>
    match s.tokens with
    | .flowSequenceEnd :: rest => .ok (.sequence done.reverse, s.advance rest)
    | tokens =>
      match (if first then some tokens else
          match tokens with
          | .flowEntry :: rest => some rest
          | _ => none) with
      | none => .error .unexpectedToken
      | some (.flowSequenceEnd :: rest) => .ok (.sequence done.reverse, s.advance rest)
      | some (.key :: rest) => do
        let s := s.advance rest
        let (k, s) ←
          if s.atOneOf [.value, .flowEntry, .flowSequenceEnd] then
            pure (Node.empty, s.advance (s.tokens.drop 1))
          else node fuel false false s
        match s.tokens with
        | .value :: rest =>
          let (v, s) ← nodeUnless fuel [.flowEntry, .flowSequenceEnd] false false (s.advance rest)
          flowSequence fuel false (.mapping [(k, v)] :: done) s
        | _ => flowSequence fuel false (.mapping [(k, .empty)] :: done) s
      | some tokens => do
        let (n, s) ← node fuel false false (s.advance tokens)
        flowSequence fuel false (n :: done) s

/-- Reads the entries of a flow mapping after `done`, latest first. An entry may be a key alone. -/
def flowMapping (fuel : Nat) (first : Bool) (done : List (Node × Node)) (s : Source) :
    Except Error (Node × Source) :=
  match fuel with
  | 0 => .error .tooDeep
  | fuel + 1 =>
    match s.tokens with
    | .flowMappingEnd :: rest => .ok (.mapping done.reverse, s.advance rest)
    | tokens =>
      match (if first then some tokens else
          match tokens with
          | .flowEntry :: rest => some rest
          | _ => none) with
      | none => .error .unexpectedToken
      | some (.flowMappingEnd :: rest) => .ok (.mapping done.reverse, s.advance rest)
      | some (.key :: rest) => do
        let (k, s) ← nodeUnless fuel [.value, .flowEntry, .flowMappingEnd] false false
          (s.advance rest)
        match s.tokens with
        | .value :: rest =>
          let (v, s) ← nodeUnless fuel [.flowEntry, .flowMappingEnd] false false (s.advance rest)
          flowMapping fuel false ((k, v) :: done) s
        | _ => flowMapping fuel false ((k, .empty) :: done) s
      | some tokens => do
        let (k, s) ← node fuel false false (s.advance tokens)
        flowMapping fuel false ((k, .empty) :: done) s

end

/-! ## Documents -/

/-- The only document of a text, with the nodes that aliases refer to. -/
structure Document where
  root : Node
  slots : List (Nat × Node)
  deriving Repr, Inhabited

namespace Document

/-- The tag handles that are always there. -/
def standardHandles : List (List Char × Tag) :=
  [("!".toList, .ofChars "!".toList), ("!!".toList, .ofChars "tag:yaml.org,2002:".toList)]

/-- Reads directives. There may be one version, which has to be 1.1 or 1.2, and one meaning for each
tag handle. -/
def directives (version : Bool) (handles : List (List Char × Tag)) :
    List Token → Except Error (List (List Char × Tag) × List Token)
  | .version major minor :: rest =>
    if version || major != 1 || !(minor == 1 || minor == 2) then .error .badDirective
    else directives true handles rest
  | .tagHandle handle stands :: rest =>
    if handles.any (·.1 == handle) then .error .badDirective
    else directives version ((handle, stands) :: handles) rest
  | tokens => .ok (handles, tokens)

/-- Whether a document ends in front of these tokens. -/
def endsBefore : List Token → Bool
  | [] => true
  | .version _ _ :: _ | .tagHandle _ _ :: _ | .documentStart :: _ | .documentEnd :: _ => true
  | _ => false

/-- The document of a list of tokens. There has to be exactly one. -/
def ofTokens (tokens : List Token) : Except Error Document := do
  let (handles, rest) ← directives false [] tokens
  let marked := rest.head? == some .documentStart
  if rest.length < tokens.length && !marked then throw .badDirective
  let body := if marked then rest.drop 1 else rest
  let source : Source := ⟨body, handles ++ standardHandles, [], []⟩
  let (root, s) ←
    if endsBefore body && (marked || body.isEmpty) then pure (Node.empty, source)
    else node (4 * body.length + 4) true false source
  if (s.tokens.dropWhile (· == .documentEnd)).isEmpty then return ⟨root, s.slots⟩
  else throw .severalDocuments

/-- Reads a text that holds one document. -/
def parse (text : String) : Except Error Document := do
  match prepare? text with
  | none => throw .controlCharacter
  | some chars => ofTokens (← Token.scan chars)

/-- The node itself, or the one that an alias refers to. -/
def follow (d : Document) : Node → Node
  | .alias slot => (d.slots.lookup slot).getD .empty
  | n => n

end Document

end PulseHits.Yaml
