import PulseHits.Frame.Encode
import PulseHits.Proofs.Frame.Layout

/-!
# Frames read back

A frame that is written for given contents is accepted when it is read (`parse_encode`): every
number of its header fits its field and is read back from it, the sizes that it declares fit into
each other, and its items are cut from its body where they were put.
-/

namespace PulseHits.Frame

open Bytes (fieldBE_ofNatBE_append fieldBE_ofNatBE_append_of_le)

/-! ## The header -/

/-- Every number fits the bytes of its field. -/
structure Header.Fits (h : Header) : Prop where
  metaType_eq : h.metaType = expectedMetaType
  frameSize_lt : h.frameSize < 256 ^ 3
  dataSource_lt : h.dataSource < 256 ^ 1
  frameType_lt : h.frameType < 256 ^ 2
  revision_lt : h.revision < 256 ^ 1
  headerSize_lt : h.headerSize < 256 ^ 2
  itemSize_lt : h.itemSize < 256 ^ 2
  itemCount_lt : h.itemCount < 256 ^ 4
  eventTime_lt : h.eventTime < 256 ^ 6
  eventId_lt : h.eventId < 256 ^ 4
  cobo_lt : h.cobo < 256 ^ 1
  asad_lt : h.asad < 256 ^ 1

theorem Header.read?_encode_append (h : Header) (rest : Bytes) :
    read? (h.encode ++ rest) = some {
      metaType := h.metaType % 256 ^ 1
      frameSize := h.frameSize % 256 ^ 3
      dataSource := h.dataSource % 256 ^ 1
      frameType := h.frameType % 256 ^ 2
      revision := h.revision % 256 ^ 1
      headerSize := h.headerSize % 256 ^ 2
      itemSize := h.itemSize % 256 ^ 2
      itemCount := h.itemCount % 256 ^ 4
      eventTime := h.eventTime % 256 ^ 6
      eventId := h.eventId % 256 ^ 4
      cobo := h.cobo % 256 ^ 1
      asad := h.asad % 256 ^ 1 } := by
  have hlength : ¬ (h.encode ++ rest).length < minHeaderSize := by
    rw [List.length_append, length_encode]
    omega
  rw [read?, if_neg hlength]
  simp (disch := omega) only [encode, List.append_assoc, fieldBE_ofNatBE_append_of_le,
    fieldBE_ofNatBE_append, Nat.reduceSub]

theorem Header.parse_encode_append {h : Header} (hfits : h.Fits) (rest : Bytes) :
    parse (h.encode ++ rest) = .ok h := by
  have hmeta : h.metaType < 256 ^ 1 := by
    rw [hfits.metaType_eq]
    decide
  have hread : read? (h.encode ++ rest) = some h := by
    rw [read?_encode_append, Nat.mod_eq_of_lt hmeta, Nat.mod_eq_of_lt hfits.frameSize_lt,
      Nat.mod_eq_of_lt hfits.dataSource_lt, Nat.mod_eq_of_lt hfits.frameType_lt,
      Nat.mod_eq_of_lt hfits.revision_lt, Nat.mod_eq_of_lt hfits.headerSize_lt,
      Nat.mod_eq_of_lt hfits.itemSize_lt, Nat.mod_eq_of_lt hfits.itemCount_lt,
      Nat.mod_eq_of_lt hfits.eventTime_lt, Nat.mod_eq_of_lt hfits.eventId_lt,
      Nat.mod_eq_of_lt hfits.cobo_lt, Nat.mod_eq_of_lt hfits.asad_lt]
  rw [parse, hread]
  exact if_pos hfits.metaType_eq

/-! ## The frame -/

namespace Contents

/-- The contents of a frame can be written: every number fits its field, items have a size, and the
blocks can be counted. -/
structure Fits (c : Contents) : Prop where
  frameType_lt : c.frameType < 2 ^ 16
  cobo_lt : c.cobo < 2 ^ 8
  asad_lt : c.asad < 2 ^ 8
  eventId_lt : c.eventId < 2 ^ 32
  eventTime_lt : c.eventTime < 2 ^ 48
  itemSize_pos : 0 < c.itemSize
  itemSize_lt : c.itemSize < 2 ^ 16
  blocks_lt : c.blocks < 2 ^ 24

section
variable {c : Contents}

theorem length_body_le (c : Contents) : blockSize + c.body.length ≤ blockSize * c.blocks := by
  rw [blocks]
  simp only [blockSize]
  omega

theorem Fits.header (h : c.Fits) : c.header.Fits where
  metaType_eq := rfl
  frameSize_lt := h.blocks_lt
  dataSource_lt := show 0 < 256 ^ 1 by decide
  frameType_lt := h.frameType_lt
  revision_lt := show 5 < 256 ^ 1 by decide
  headerSize_lt := show 1 < 256 ^ 2 by decide
  itemSize_lt := h.itemSize_lt
  itemCount_lt := by
    have hbody := c.length_body_le
    have hblocks := h.blocks_lt
    have hcount : c.body.length / c.itemSize ≤ c.body.length := Nat.div_le_self _ _
    simp only [blockSize] at hbody
    show c.body.length / c.itemSize < 256 ^ 4
    omega
  eventTime_lt := h.eventTime_lt
  eventId_lt := h.eventId_lt
  cobo_lt := h.cobo_lt
  asad_lt := h.asad_lt

theorem encode_eq (c : Contents) :
    c.encode = padTo blockSize c.header.encode ++ c.body ++
      List.replicate (blockSize * c.blocks -
        (padTo blockSize c.header.encode ++ c.body).length) 0 := rfl

theorem length_padTo_header (c : Contents) : (padTo blockSize c.header.encode).length = blockSize :=
  length_padTo (by rw [Header.length_encode]; decide)

theorem Fits.parse_header (h : c.Fits) : Header.parse c.encode = .ok c.header := by
  rw [encode_eq, padTo, List.append_assoc, List.append_assoc]
  exact Header.parse_encode_append h.header _

/-- What lies in the body lies one block further in the frame. -/
theorem slice_encode {start width : Nat} (hend : start + width ≤ c.body.length) :
    c.encode.slice (blockSize + start) width = c.body.slice start width := by
  have hheader := c.length_padTo_header
  rw [encode_eq, Bytes.slice_append_left (by rw [List.length_append, hheader]; omega),
    Bytes.slice_append_right (by omega), hheader, Nat.add_sub_cancel_left]

theorem Fits.fault?_encode (h : c.Fits) : fault? c.encode = none := by
  obtain ⟨hmeta, hread⟩ := Header.metaType_of_parse h.parse_header
  obtain ⟨hlength, hfirst, -⟩ := Header.fields_of_read? hread
  have hbody := c.length_body_le
  have hitems : c.body.length / c.itemSize * c.itemSize ≤ c.body.length := Nat.div_mul_le_self _ _
  refine fault?_eq_none_iff.mpr ⟨hlength, hfirst.symm.trans hmeta, ?_⟩
  rw [← Header.layout_of_read? hread, c.length_encode]
  show blockSize * c.blocks ≤ blockSize * c.blocks ∧
    (28 ≤ blockSize * 1 ∧ blockSize * 1 ≤ blockSize * c.blocks) ∧
    (0 < c.itemSize ∨ c.body.length / c.itemSize = 0) ∧
    blockSize * 1 + c.body.length / c.itemSize * c.itemSize ≤ blockSize * c.blocks
  have hblock : blockSize = 256 := rfl
  exact ⟨Nat.le_refl _, ⟨by omega, by omega⟩, .inl h.itemSize_pos, by omega⟩

end

end Contents

/-- The frame is the one that was written for the contents. -/
structure IsWritten (f : Frame) (c : Contents) : Prop where
  bytes_eq : f.bytes = c.encode
  header_eq : f.header = {
    metaType := 8, frameSize := c.blocks, dataSource := 0, frameType := c.frameType, revision := 5
    headerSize := 1, itemSize := c.itemSize, itemCount := c.body.length / c.itemSize
    eventTime := c.eventTime, eventId := c.eventId, cobo := c.cobo, asad := c.asad }
  itemCount_eq : f.view.itemCount = c.body.length / c.itemSize
  /-- The items are the pieces of the body. Bytes at its end that make up no item are left out. -/
  itemAt_eq : ∀ i, f.view.itemAt i =
    if i < c.body.length / c.itemSize then some ⟨c.body.slice (i * c.itemSize) c.itemSize⟩ else none

theorem IsWritten.items_view {f : Frame} {c : Contents} (h : f.IsWritten c)
    (hpos : 0 < c.itemSize) {α : Type} {g : α → Bytes} {xs : List α}
    (hsize : ∀ x ∈ xs, (g x).length = c.itemSize) (hbody : c.body = xs.flatMap g) :
    f.view.items = xs.map fun x => ⟨g x⟩ := by
  have hcount : c.body.length / c.itemSize = xs.length := by
    have hlengths : xs.map (fun x => (g x).length) = xs.map fun _ => c.itemSize :=
      List.map_congr_left hsize
    rw [hbody, List.length_flatMap, hlengths, List.map_const', List.sum_replicate_nat,
      Nat.mul_div_cancel _ hpos]
  have hitem : ∀ i, f.view.itemAt i = (xs.map fun x => Item.mk (g x))[i]? := by
    intro i
    rw [h.itemAt_eq, hcount, List.getElem?_map]
    split
    · next hi =>
      rw [hbody, Bytes.slice_flatMap hsize hi, List.getElem?_eq_getElem hi]
      rfl
    · next hi =>
      rw [List.getElem?_eq_none (Nat.le_of_not_lt hi)]
      rfl
  rw [View.items_eq_take hitem, h.itemCount_eq, hcount]
  exact List.take_of_length_le (by rw [List.length_map])

theorem parse_encode {c : Contents} (h : c.Fits) : ∃ f, parse c.encode = .ok f ∧ f.IsWritten c := by
  obtain ⟨f, hf⟩ := exists_parse_eq_ok_iff.mpr h.fault?_encode
  obtain ⟨hbytes, hlayout⟩ := of_parse_eq_ok hf
  have hread := (Header.metaType_of_parse h.parse_header).2
  rw [← Header.layout_of_read? hread] at hbytes hlayout
  have hwhole : f.bytes = c.encode :=
    hbytes.trans (List.take_of_length_le (Nat.le_of_eq c.length_encode))
  have hheader : f.header = c.header := by
    have hparse := f.parse_eq
    rw [hwhole, h.parse_header] at hparse
    exact (Except.ok.inj hparse).symm
  refine ⟨f, hf, hwhole, hheader, ?_, fun i => ?_⟩
  · show f.header.itemCount = _
    rw [hheader]
    rfl
  · rw [itemAt_view, itemBytes, hwhole, hheader]
    show (if i < c.body.length / c.itemSize then
      some (Item.mk (c.encode.slice (blockSize * 1 + i * c.itemSize) c.itemSize)) else none) = _
    split
    · next hi =>
      have hend := mul_add_le_mul_of_lt hi c.itemSize
      have hbody : c.body.length / c.itemSize * c.itemSize ≤ c.body.length :=
        Nat.div_mul_le_self _ _
      rw [Nat.mul_one, Contents.slice_encode (Nat.le_trans hend hbody)]
    · rfl

end PulseHits.Frame
