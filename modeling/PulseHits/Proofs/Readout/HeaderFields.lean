import PulseHits.Proofs.Bits.Load
import PulseHits.Proofs.Frame.Encode

/-!
# Two readings of a header

A header is read in two ways: number by number from its first byte on when the frame is parsed, and
bit field by bit field, at places counted from its first bit, when the frame is classified. Every
number stands in whole bytes (`Header.Field.StandsIn`), and a bit field of whole bytes is the number
that they write, so both readings are the same (`headerField_parse`), and the class of a frame is
what its header says.
-/

namespace PulseHits

namespace Frame

/-- A number of the header: the bits before it, the bits it takes and the number itself. -/
structure Header.Field where
  offset : Nat
  width : Nat
  value : Header → Nat

/-- The layout of the fixed part of a header. -/
def Header.fields : List Header.Field :=
  [⟨0, 8, metaType⟩, ⟨8, 24, frameSize⟩, ⟨32, 8, dataSource⟩, ⟨40, 16, frameType⟩,
    ⟨56, 8, revision⟩, ⟨64, 16, headerSize⟩, ⟨80, 16, itemSize⟩, ⟨96, 32, itemCount⟩,
    ⟨128, 48, eventTime⟩, ⟨176, 32, eventId⟩, ⟨208, 8, cobo⟩, ⟨216, 8, asad⟩]

/-- The field stands in `size` whole bytes of the fixed part, from byte `start` on, and `h` has
there the number that the bytes of `b` write. -/
structure Header.Field.StandsIn (field : Header.Field) (b : Bytes) (h : Header)
    (start size : Nat) : Prop where
  offset_eq : field.offset = 8 * start
  width_eq : field.width = 8 * size
  size_pos : 0 < size
  size_le : size ≤ 8
  inside : start + size ≤ minHeaderSize
  value_eq : field.value h = b.fieldBE start size

theorem Header.standsIn_of_read? {b : Bytes} {h : Header} (hread : read? b = some h) :
    ∀ field ∈ fields, ∃ start size, field.StandsIn b h start size := by
  unfold read? at hread
  split at hread
  · cases hread
  · cases hread
    simp only [fields, List.forall_mem_cons]
    refine ⟨⟨0, 1, ?_⟩, ⟨1, 3, ?_⟩, ⟨4, 1, ?_⟩, ⟨5, 2, ?_⟩, ⟨7, 1, ?_⟩, ⟨8, 2, ?_⟩, ⟨10, 2, ?_⟩,
      ⟨12, 4, ?_⟩, ⟨16, 6, ?_⟩, ⟨22, 4, ?_⟩, ⟨26, 1, ?_⟩, ⟨27, 1, ?_⟩, nofun⟩
    all_goals exact ⟨rfl, rfl, by decide, by decide, by decide, rfl⟩

namespace Header.Field.StandsIn
variable {field : Header.Field} {b : Bytes} {h : Header} {start size : Nat}

theorem value_lt (hf : field.StandsIn b h start size) : field.value h < 2 ^ field.width := by
  rw [hf.value_eq, hf.width_eq, Nat.pow_mul]
  exact Bytes.fieldBE_lt b start size

theorem load_eq (hf : field.StandsIn b h start size) {c : Bytes}
    (hlength : minHeaderSize ≤ c.length) :
    Bits.load c field.offset field.width = c.fieldBE start size := by
  have hinside := hf.inside
  have hmax : 8 * size ≤ Bits.maxWidth := by
    have := hf.size_le
    unfold Bits.maxWidth
    omega
  rw [hf.offset_eq, hf.width_eq, Bits.load_bytes hf.size_pos hmax (by omega)]

theorem fieldBE_take (hf : field.StandsIn b h start size) {c : Bytes} {count : Nat}
    (hcount : minHeaderSize ≤ count) :
    Bytes.fieldBE (c.take count) start size = c.fieldBE start size :=
  Bytes.fieldBE_take (Nat.le_trans hf.inside hcount)

theorem fieldBE_eq (hf : field.StandsIn b h start size) {c : Bytes}
    (hlength : minHeaderSize ≤ c.length) :
    c.fieldBE start size =
      c.toNatBE / 2 ^ (8 * c.length - field.offset - field.width) % 2 ^ field.width := by
  have hinside := hf.inside
  have hpos := hf.size_pos
  have hsize := hf.size_le
  rw [← hf.load_eq hlength]
  apply Bits.load_eq
  · rw [hf.width_eq]
    omega
  · rw [hf.width_eq, Bits.maxWidth]
    omega
  · rw [hf.offset_eq, hf.width_eq]
    omega

end Header.Field.StandsIn

theorem headerField_view (f : Frame) : ∀ field ∈ Header.fields,
    f.view.headerField field.offset field.width = field.value f.header ∧
      field.value f.header < 2 ^ field.width := by
  intro field hfield
  obtain ⟨-, hread⟩ := Header.metaType_of_parse f.parse_eq
  obtain ⟨start, size, hstands⟩ := Header.standsIn_of_read? hread field hfield
  refine ⟨?_, hstands.value_lt⟩
  show Bits.load (f.bytes.take f.header.headerBytes) field.offset field.width = _
  have hge := f.consistent.header_ge
  have hlength := f.minHeaderSize_le_length
  rw [hstands.load_eq (by rw [List.length_take]; omega), hstands.fieldBE_take hge, hstands.value_eq]

end Frame

namespace Readout

theorem classify_view (f : Frame) :
    (classify f.view).kind = .ofCode f.header.frameType.toUInt16 ∧
      f.header.frameType.toUInt16.toNat = f.header.frameType ∧
      (classify f.view).cobo.toNat = f.header.cobo ∧
      (classify f.view).asad.toNat = f.header.asad := by
  obtain ⟨htype, htype_lt⟩ := f.headerField_view ⟨typeOffset, typeWidth, Frame.Header.frameType⟩
    (by simp [Frame.Header.fields, typeOffset, typeWidth])
  obtain ⟨hcobo, hcobo_lt⟩ := f.headerField_view ⟨coboOffset, coboWidth, Frame.Header.cobo⟩
    (by simp [Frame.Header.fields, coboOffset, coboWidth])
  obtain ⟨hasad, hasad_lt⟩ := f.headerField_view ⟨asadOffset, asadWidth, Frame.Header.asad⟩
    (by simp [Frame.Header.fields, asadOffset, asadWidth])
  simp only at htype htype_lt hcobo hcobo_lt hasad hasad_lt
  refine ⟨?_, Nat.mod_eq_of_lt htype_lt, ?_, ?_⟩
  · unfold classify
    rw [htype]
  · unfold classify
    rw [hcobo]
    exact Nat.mod_eq_of_lt hcobo_lt
  · unfold classify
    rw [hasad]
    exact Nat.mod_eq_of_lt hasad_lt

/-- **Both readings of a header agree.** Whatever is accepted as a frame and however long its header
is, the bit field at the place of each number of the header is that number, which is the one that
the bits of the input write there; and the class of the frame is the type and the boards of its
header. -/
theorem headerField_parse {b : Bytes} {f : Frame} (h : Frame.parse b = .ok f) :
    (∀ field ∈ Frame.Header.fields,
      f.view.headerField field.offset field.width = field.value f.header ∧
        field.value f.header =
          b.toNatBE / 2 ^ (8 * b.length - field.offset - field.width) % 2 ^ field.width) ∧
      (classify f.view).kind = .ofCode f.header.frameType.toUInt16 ∧
      f.header.frameType.toUInt16.toNat = f.header.frameType ∧
      (classify f.view).cobo.toNat = f.header.cobo ∧
      (classify f.view).asad.toNat = f.header.asad := by
  refine ⟨fun field hfield => ⟨(f.headerField_view field hfield).1, ?_⟩, classify_view f⟩
  obtain ⟨-, hread⟩ := Frame.Header.metaType_of_parse f.parse_eq
  obtain ⟨start, size, hstands⟩ := Frame.Header.standsIn_of_read? hread field hfield
  have hbytes := (Frame.of_parse_eq_ok h).1
  have hlength := f.minHeaderSize_le_length
  rw [hbytes, List.length_take] at hlength
  -- the fixed part lies in the bytes that the frame was cut off
  rw [hstands.value_eq, hbytes, hstands.fieldBE_take (by omega), hstands.fieldBE_eq (by omega)]

/-- A frame of a block behind a header of two, every number of which is another, and two bytes of
the next frame. -/
def longHeader : Bytes :=
  let h : Frame.Header := ⟨8, 3, 0x7F, 2, 5, 2, 4, 6, 0x010203040506, 0x0A0B0C0D, 0xC0, 0xA5⟩
  Frame.padTo 768 h.encode ++ [8, 0]

theorem headerField_longHeader : ∃ f, Frame.parse longHeader = .ok f ∧
    f.view.headerField 128 48 = 0x010203040506 ∧ f.header.eventTime = 0x010203040506 ∧
    f.view.headerField 64 16 = 2 ∧ f.header.headerSize = 2 ∧
    (classify f.view).cobo.toNat = 0xC0 ∧ f.header.cobo = 0xC0 := by
  obtain ⟨f, hf⟩ := Frame.exists_parse_eq_ok_iff.mpr
    (show Frame.fault? longHeader = none by decide +kernel)
  obtain ⟨hfields, -, -, hcobo, -⟩ := headerField_parse hf
  have htimes := hfields ⟨128, 48, Frame.Header.eventTime⟩ (by simp [Frame.Header.fields])
  have hsizes := hfields ⟨64, 16, Frame.Header.headerSize⟩ (by simp [Frame.Header.fields])
  have hboards := hfields ⟨208, 8, Frame.Header.cobo⟩ (by simp [Frame.Header.fields])
  have htime : f.header.eventTime = 0x010203040506 := htimes.2.trans (by decide +kernel)
  have hsize : f.header.headerSize = 2 := hsizes.2.trans (by decide +kernel)
  have hboard : f.header.cobo = 0xC0 := hboards.2.trans (by decide +kernel)
  exact ⟨f, hf, htimes.1.trans htime, htime, hsizes.1.trans hsize, hsize, hcobo.trans hboard,
    hboard⟩

end Readout

end PulseHits
