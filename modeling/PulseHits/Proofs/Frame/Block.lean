import PulseHits.Frame.Encode
import PulseHits.Frame.Stream
import PulseHits.Proofs.Bytes.Field

/-!
# The blocks of a stream

A block is a preamble and as many bytes as it announces. A read takes nothing else off a stream than
a block, a byte that cannot start one, or all that is left of a stream that ends too early
(`readStep_readNext`), and of a block it gives what parsing it gives (`readNext_block_append`). So a
stream of blocks is read block by block, whatever the blocks hold (`readTimes_blocks`).
-/

namespace PulseHits.Frame

/-- A preamble and as many bytes as it announces; itself at least. -/
structure IsBlock (b : Bytes) : Prop where
  metaType_eq : b.fieldBE 0 1 = expectedMetaType
  length_eq : b.length = max (blockSize * b.fieldBE 1 3) preambleSize

instance (b : Bytes) : Decidable (IsBlock b) :=
  decidable_of_iff (b.fieldBE 0 1 = expectedMetaType ∧
    b.length = max (blockSize * b.fieldBE 1 3) preambleSize)
    ⟨fun ⟨hmeta, hlength⟩ => ⟨hmeta, hlength⟩, fun h => ⟨h.metaType_eq, h.length_eq⟩⟩

theorem IsBlock.preambleSize_le {b : Bytes} (h : IsBlock b) : preambleSize ≤ b.length := by
  rw [h.length_eq]
  exact Nat.le_max_right _ _

/-! ## Parsing a block -/

theorem Header.fields_of_read? {b : Bytes} {h : Header} (hread : Header.read? b = some h) :
    minHeaderSize ≤ b.length ∧ h.metaType = b.fieldBE 0 1 ∧ h.frameSize = b.fieldBE 1 3 ∧
      h.eventTime = b.fieldBE 16 6 ∧ h.eventId = b.fieldBE 22 4 := by
  rw [Header.read?] at hread
  split at hread
  · cases hread
  · next hlen =>
    cases hread
    exact ⟨by omega, rfl, rfl, rfl, rfl⟩

/-- A block is too short for a header, or has a good one that declares no more than its bytes. -/
theorem IsBlock.header_parse {b : Bytes} (h : IsBlock b) :
    Header.parse b = .error (.io .endsInField) ∨
      ∃ header, Header.parse b = .ok header ∧ header.frameBytes ≤ b.length := by
  rw [Header.parse]
  cases hread : Header.read? b with
  | none => exact .inl rfl
  | some header =>
    obtain ⟨-, hmeta, hsize, -⟩ := Header.fields_of_read? hread
    refine .inr ⟨header, ?_, ?_⟩
    · exact if_pos (hmeta.trans h.metaType_eq)
    · rw [Header.frameBytes, hsize, h.length_eq]
      exact Nat.le_max_left _ _

theorem parse_of_header_error {b : Bytes} {e : Error} (h : Header.parse b = .error e) :
    parse b = .error e := by
  rw [parse]
  split
  · next hp =>
    rw [h] at hp
    cases hp
    rfl
  · next hp =>
    rw [h] at hp
    cases hp

theorem layout_of_parse_eq_error {b : Bytes} {header : Header} (h : Header.parse b = .ok header)
    (hlength : header.frameBytes ≤ b.length) {e : Error} (he : parse b = .error e) :
    e = .headerSize header.headerBytes ∨ e = .zeroItemSize header.itemCount ∨
      e = .itemOverrun header.itemCount header.itemSize header.frameBytes := by
  rw [parse] at he
  split at he
  · next hp =>
    rw [h] at hp
    cases hp
  · next hp =>
    rw [h] at hp
    cases hp
    rw [dif_neg (by omega)] at he
    split at he
    · exact .inl (Except.error.inj he).symm
    · split at he
      · exact .inr (.inl (Except.error.inj he).symm)
      · split at he
        · exact .inr (.inr (Except.error.inj he).symm)
        · cases he

theorem IsBlock.ne_of_parse_eq_error {b : Bytes} (h : IsBlock b) {e : Error}
    (he : parse b = .error e) :
    (∀ held declared, e ≠ .tooShort held declared) ∧ ∀ found, e ≠ .metaType found := by
  rcases h.header_parse with hheader | ⟨header, hheader, hlength⟩
  · rw [parse_of_header_error hheader] at he
    cases he
    exact ⟨nofun, nofun⟩
  · rcases layout_of_parse_eq_error hheader hlength he with rfl | rfl | rfl <;>
      exact ⟨nofun, nofun⟩

/-! ## One read -/

theorem readNext_block_append {b : Bytes} (h : IsBlock b) (rest : Bytes) :
    readNext (b ++ rest) = ((parse b).mapError .badFrame, rest) := by
  obtain ⟨hmeta, hlength⟩ := h
  have hlen : 4 ≤ b.length := IsBlock.preambleSize_le ⟨hmeta, hlength⟩
  cases b with
  | nil => cases hlen
  | cons first tail =>
    rw [Bytes.fieldBE_zero_one] at hmeta
    rw [Bytes.fieldBE_cons] at hlength
    rw [List.length_cons] at hlen
    have hfield : Bytes.fieldBE (tail ++ rest) 0 3 = Bytes.fieldBE tail 0 3 :=
      Bytes.fieldBE_append_left (by omega)
    rw [List.cons_append, readNext, if_neg (not_not_intro hmeta),
      if_neg (by rw [List.length_append]; omega)]
    simp only [hfield, ← hlength]
    rw [← List.cons_append, if_neg (by rw [List.length_append]; omega), List.take_left,
      List.drop_left]

/-- What one read can do: the stream, what the read gives and what it leaves. -/
inductive ReadStep : Bytes → Except StreamError Frame → Bytes → Prop where
  | atEnd : ReadStep [] (.error .endOfStream) []
  /-- A byte that starts no frame is taken alone. -/
  | strayByte (first : UInt8) (rest : Bytes) (h : first.toNat ≠ expectedMetaType) :
    ReadStep (first :: rest) (.error (.badFrame (.metaType first.toNat))) rest
  /-- A stream that ends inside a block is used up. -/
  | cutShort (stream : Bytes) (h : stream ≠ []) (cause : IoError) :
    ReadStep stream (.error (.io cause)) []
  | block (b rest : Bytes) (h : IsBlock b) :
    ReadStep (b ++ rest) ((parse b).mapError .badFrame) rest

theorem readStep_readNext (stream : Bytes) :
    ReadStep stream (readNext stream).1 (readNext stream).2 := by
  cases stream with
  | nil => exact .atEnd
  | cons first rest =>
    rw [readNext]
    split
    · next hfirst => exact .strayByte first rest hfirst
    · next hfirst =>
      split
      · exact .cutShort _ (List.cons_ne_nil _ _) _
      · next hpreamble =>
        simp only
        split
        · exact .cutShort _ (List.cons_ne_nil _ _) _
        · next hlength =>
          have hblock : IsBlock ((first :: rest).take
              (max (blockSize * Bytes.fieldBE rest 0 3) preambleSize)) := by
            have hmin : 4 ≤ max (blockSize * Bytes.fieldBE rest 0 3) preambleSize :=
              Nat.le_max_right _ _
            constructor
            · rw [Bytes.fieldBE_take (by omega), Bytes.fieldBE_zero_one]
              exact Decidable.of_not_not hfirst
            · rw [Bytes.fieldBE_take (by omega), Bytes.fieldBE_cons, List.length_take]
              omega
          have hstep := ReadStep.block _ ((first :: rest).drop
            (max (blockSize * Bytes.fieldBE rest 0 3) preambleSize)) hblock
          rwa [List.take_append_drop] at hstep

/-- A read refuses a frame for its meta type by the first byte alone, and never for being shorter
than it says. -/
theorem ne_of_readNext_badFrame {stream : Bytes} {e : Error}
    (h : (readNext stream).1 = .error (.badFrame e)) :
    (∀ held declared, e ≠ .tooShort held declared) ∧
      ∀ found, e = .metaType found → ∃ first rest, stream = first :: rest ∧
        first.toNat = found ∧ found ≠ expectedMetaType ∧ (readNext stream).2 = rest := by
  have hstep := readStep_readNext stream
  generalize (readNext stream).2 = left at hstep ⊢
  rw [h] at hstep
  generalize hresult : (Except.error (.badFrame e) : Except StreamError Frame) = result at hstep
  cases hstep with
  | atEnd => cases hresult
  | cutShort => cases hresult
  | strayByte first rest hfirst =>
    cases hresult
    refine ⟨nofun, fun found hfound => ?_⟩
    cases hfound
    exact ⟨first, left, rfl, rfl, hfirst, rfl⟩
  | block b rest hblock =>
    cases hparse : parse b with
    | ok f =>
      rw [hparse] at hresult
      cases hresult
    | error cause =>
      rw [hparse] at hresult
      cases hresult
      obtain ⟨hshort, hmeta⟩ := hblock.ne_of_parse_eq_error hparse
      exact ⟨hshort, fun found hfound => absurd hfound (hmeta found)⟩

/-! ## Read after read -/

/-- What so many reads give, failed ones included, and what they leave. -/
def readTimes : Nat → Bytes → List (Except StreamError Frame) × Bytes
  | 0, stream => ([], stream)
  | n + 1, stream =>
    let (result, rest) := readNext stream
    let (results, left) := readTimes n rest
    (result :: results, left)

theorem readTimes_add (m n : Nat) (stream : Bytes) :
    readTimes (m + n) stream =
      ((readTimes m stream).1 ++ (readTimes n (readTimes m stream).2).1,
        (readTimes n (readTimes m stream).2).2) := by
  induction m generalizing stream with
  | zero => rw [Nat.zero_add]; rfl
  | succ m ih =>
    rw [Nat.succ_add, readTimes, readTimes]
    simp only [ih, List.cons_append]

theorem readTimes_flatten_append {blocks : List Bytes} (h : ∀ b ∈ blocks, IsBlock b)
    (rest : Bytes) :
    readTimes blocks.length (blocks.flatten ++ rest) =
      (blocks.map fun b => (parse b).mapError .badFrame, rest) := by
  induction blocks with
  | nil => rfl
  | cons b blocks ih =>
    obtain ⟨hb, hblocks⟩ := List.forall_mem_cons.mp h
    rw [List.length_cons, List.flatten_cons, List.append_assoc, readTimes,
      readNext_block_append hb]
    simp only [ih hblocks, List.map_cons]

/-- **Reading a stream of blocks is parsing its blocks.** Every read gives what the next block parses
to, a frame or the fault in it, and the read behind the last block gives the end of the stream. So a
fault inside a block does not shift the blocks behind it; the only faults that no read reports are
those of a frame shorter than it says, and of a meta type that is not the first byte of the stream. -/
theorem readTimes_blocks {blocks : List Bytes} (h : ∀ b ∈ blocks, IsBlock b) :
    (∀ rest, readTimes blocks.length (blocks.flatten ++ rest) =
        (blocks.map fun b => (parse b).mapError .badFrame, rest)) ∧
      readTimes (blocks.length + 1) blocks.flatten =
        ((blocks.map fun b => (parse b).mapError .badFrame) ++ [.error .endOfStream], []) ∧
      ∀ stream e, (readNext stream).1 = .error (.badFrame e) →
        (∀ held declared, e ≠ .tooShort held declared) ∧
          ∀ found, e = .metaType found → ∃ first rest, stream = first :: rest ∧
            first.toNat = found ∧ found ≠ expectedMetaType ∧ (readNext stream).2 = rest := by
  refine ⟨readTimes_flatten_append h, ?_, fun _ _ => ne_of_readNext_badFrame⟩
  have hread := readTimes_flatten_append h []
  rw [List.append_nil] at hread
  rw [readTimes_add, hread]
  rfl

/-- A preamble alone, a frame that has no header, and a frame of one item. -/
def twoFaultsAndAFrame : List Bytes :=
  [[8, 0, 0, 0], padTo blockSize [8, 0, 0, 1], Contents.encode ⟨2, 0, 0, 7, 9, 2, [0x05, 0x40]⟩]

theorem readTimes_twoFaultsAndAFrame :
    (∀ b ∈ twoFaultsAndAFrame, IsBlock b) ∧
      twoFaultsAndAFrame.map (fun b => (parse b).isOk) = [false, false, true] ∧
      readTimes 4 twoFaultsAndAFrame.flatten =
        (twoFaultsAndAFrame.map (fun b => (parse b).mapError .badFrame) ++
          [.error .endOfStream], []) := by
  have hblocks : ∀ b ∈ twoFaultsAndAFrame, IsBlock b := by decide +kernel
  exact ⟨hblocks, by decide +kernel, (readTimes_blocks hblocks).2.1⟩

end PulseHits.Frame
