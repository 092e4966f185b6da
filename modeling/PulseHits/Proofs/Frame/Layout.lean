import PulseHits.Proofs.Frame.Stream
import PulseHits.Proofs.Frame.View

/-!
# The layout of a frame

Bytes start with a frame if they satisfy all of `conditions`, and else parsing them tells the first
that they miss (`parseOutcome_parse`). A frame is cut off its bytes where it says that it ends, its
items tile what follows the header (`flatMap_bytes_items`), and nothing that is computed from the
declared sizes comes near the largest 64-bit number (`Layout.fitsWord_ofBytes`).
-/

namespace PulseHits

theorem mul_add_le_mul_of_lt {i count : Nat} (hi : i < count) (size : Nat) :
    i * size + size ≤ count * size := by
  rw [← Nat.succ_mul]
  exact Nat.mul_le_mul_right _ hi

theorem Bytes.flatMap_slice (b : Bytes) (start size count : Nat) :
    (List.range count).flatMap (fun i => b.slice (start + i * size) size) =
      b.slice start (count * size) := by
  induction count with
  | zero => simp [slice]
  | succ count ih =>
    rw [List.range_succ, List.flatMap_append, ih, List.flatMap_singleton,
      Bytes.slice_append_slice rfl, Nat.succ_mul]

namespace Frame

/-! ## Declared sizes -/

/-- The sizes that a header declares, in bytes, and the number of items. -/
structure Layout where
  frameBytes : Nat
  headerBytes : Nat
  itemSize : Nat
  itemCount : Nat
  deriving DecidableEq, Repr

/-- What the header at the start of a byte string declares. -/
def Layout.ofBytes (b : Bytes) : Layout where
  frameBytes := 256 * b.fieldBE 1 3
  headerBytes := 256 * b.fieldBE 8 2
  itemSize := b.fieldBE 10 2
  itemCount := b.fieldBE 12 4

def Header.layout (h : Header) : Layout :=
  ⟨h.frameBytes, h.headerBytes, h.itemSize, h.itemCount⟩

theorem Header.layout_of_read? {b : Bytes} {h : Header} (hread : Header.read? b = some h) :
    h.layout = .ofBytes b := by
  rw [Header.read?] at hread
  split at hread
  · cases hread
  · cases hread
    rfl

/-- Nothing that is computed from the declared sizes reaches the end of the 64-bit numbers, neither
for all items nor for one of them. -/
structure Layout.FitsWord (l : Layout) : Prop where
  frameBytes_lt : l.frameBytes < 2 ^ 64
  headerBytes_lt : l.headerBytes < 2 ^ 64
  items_lt : l.itemCount * l.itemSize < 2 ^ 64
  itemsEnd_lt : l.headerBytes + l.itemCount * l.itemSize < 2 ^ 64
  item_lt : ∀ i < l.itemCount, i * l.itemSize < 2 ^ 64 ∧ l.headerBytes + i * l.itemSize < 2 ^ 64 ∧
    l.headerBytes + i * l.itemSize + l.itemSize < 2 ^ 64

/-- The fields of a header are too narrow for more. -/
theorem Layout.fitsWord_ofBytes (b : Bytes) : (Layout.ofBytes b).FitsWord := by
  have hframe : (ofBytes b).frameBytes < 256 * 256 ^ 3 :=
    Nat.mul_lt_mul_of_pos_left (Bytes.fieldBE_lt b 1 3) (by decide)
  have hheader : (ofBytes b).headerBytes < 256 * 256 ^ 2 :=
    Nat.mul_lt_mul_of_pos_left (Bytes.fieldBE_lt b 8 2) (by decide)
  have hsize : (ofBytes b).itemSize < 256 ^ 2 := Bytes.fieldBE_lt b 10 2
  have hcount : (ofBytes b).itemCount < 256 ^ 4 := Bytes.fieldBE_lt b 12 4
  have hitems : (ofBytes b).itemCount * (ofBytes b).itemSize < 256 ^ 4 * 256 ^ 2 :=
    Nat.mul_lt_mul'' hcount hsize
  refine ⟨by omega, by omega, by omega, by omega, fun i hi => ?_⟩
  have hend := mul_add_le_mul_of_lt hi (ofBytes b).itemSize
  omega

/-! ## What parsing comes to -/

/-- What bytes have to satisfy to start with a frame, in the order in which it is looked at, and the
fault of bytes that miss it. -/
def conditions (b : Bytes) : List (Bool × Error) :=
  let l := Layout.ofBytes b
  [(28 ≤ b.length, .io .endsInField),
    (b.fieldBE 0 1 = 8, .metaType (b.fieldBE 0 1)),
    (l.frameBytes ≤ b.length, .tooShort b.length l.frameBytes),
    (28 ≤ l.headerBytes ∧ l.headerBytes ≤ l.frameBytes, .headerSize l.headerBytes),
    (0 < l.itemSize ∨ l.itemCount = 0, .zeroItemSize l.itemCount),
    (l.headerBytes + l.itemCount * l.itemSize ≤ l.frameBytes,
      .itemOverrun l.itemCount l.itemSize l.frameBytes)]

/-- The fault of the first condition that is missed. -/
def fault? (b : Bytes) : Option Error :=
  ((conditions b).find? (!·.1)).map (·.2)

theorem fault?_eq_none_iff {b : Bytes} :
    let l := Layout.ofBytes b
    fault? b = none ↔ 28 ≤ b.length ∧ b.fieldBE 0 1 = 8 ∧ l.frameBytes ≤ b.length ∧
      (28 ≤ l.headerBytes ∧ l.headerBytes ≤ l.frameBytes) ∧ (0 < l.itemSize ∨ l.itemCount = 0) ∧
      l.headerBytes + l.itemCount * l.itemSize ≤ l.frameBytes := by
  simp [fault?, conditions]

/-- Parsing tells the first condition that is missed, or cuts a frame of the declared layout off the
bytes. -/
inductive ParseOutcome (b : Bytes) : Except Error Frame → Prop where
  | refused {e : Error} (hfault : fault? b = some e) : ParseOutcome b (.error e)
  | accepted {f : Frame} (hfault : fault? b = none)
    (hbytes : f.bytes = b.take (Layout.ofBytes b).frameBytes)
    (hlayout : f.header.layout = .ofBytes b) : ParseOutcome b (.ok f)

theorem parseOutcome_of_header {b : Bytes} {h : Header} (hheader : Header.parse b = .ok h) :
    ParseOutcome b (parse b) := by
  obtain ⟨hmeta, hread⟩ := Header.metaType_of_parse hheader
  obtain ⟨hlen, hfirst, -⟩ := Header.fields_of_read? hread
  have hlayout := Header.layout_of_read? hread
  have hmin : minHeaderSize = 28 := rfl
  have hmeta8 : b.fieldBE 0 1 = 8 := hfirst.symm.trans hmeta
  have hfault : fault? b =
      ((conditions b).drop 2 |>.find? (!·.1)).map (·.2) := by
    simp [fault?, conditions, ← hmin, hlen, hmeta8]
  simp only [conditions, ← hlayout, Header.layout, List.drop_succ_cons, List.drop_zero] at hfault
  rw [parse]
  split
  · next hp =>
    rw [hheader] at hp
    cases hp
  next hp =>
  rw [hheader] at hp
  cases hp
  by_cases hframe : h.frameBytes ≤ b.length
  case neg =>
    rw [dif_pos (by omega)]
    exact .refused (by simp [hfault, hframe])
  rw [dif_neg (by omega)]
  by_cases hsize : 28 ≤ h.headerBytes ∧ h.headerBytes ≤ h.frameBytes
  case neg =>
    rw [dif_pos (by omega)]
    exact .refused (by simp [hfault, hframe, hsize])
  rw [dif_neg (by omega)]
  by_cases hitem : 0 < h.itemSize ∨ h.itemCount = 0
  case neg =>
    rw [dif_pos (by omega)]
    exact .refused (by simp [hfault, hframe, hsize, hitem])
  rw [dif_neg (by omega)]
  by_cases hend : h.headerBytes + h.itemCount * h.itemSize ≤ h.frameBytes
  case neg =>
    rw [dif_pos (by omega)]
    exact .refused (by simp [hfault, hframe, hsize, hitem, hend])
  rw [dif_neg (by omega)]
  exact .accepted (by simp [hfault, hframe, hsize, hitem, hend]) (by rw [← hlayout]; rfl) hlayout

theorem parseOutcome_parse (b : Bytes) : ParseOutcome b (parse b) := by
  cases hread : Header.read? b with
  | none =>
    have hheader : Header.parse b = .error (.io .endsInField) := by rw [Header.parse, hread]
    have hlen : ¬ 28 ≤ b.length := by
      intro hlen
      rw [Header.read?] at hread
      split at hread
      · next hshort => exact Nat.not_le.mpr hshort hlen
      · cases hread
    rw [parse_of_header_error hheader]
    exact .refused (by simp [fault?, conditions, hlen])
  | some h =>
    obtain ⟨hlen, hfirst, -⟩ := Header.fields_of_read? hread
    by_cases hmeta : h.metaType = expectedMetaType
    · exact parseOutcome_of_header (by rw [Header.parse, hread]; exact if_pos hmeta)
    · have hheader : Header.parse b = .error (.metaType h.metaType) := by
        rw [Header.parse, hread]
        exact if_neg hmeta
      have hlen : 28 ≤ b.length := hlen
      have hmeta8 : b.fieldBE 0 1 ≠ 8 := fun hmeta8 => hmeta (hfirst.trans hmeta8)
      rw [parse_of_header_error hheader, hfirst]
      exact .refused (by simp [fault?, conditions, hlen, hmeta8])

theorem parse_eq_error_iff {b : Bytes} {e : Error} :
    parse b = .error e ↔ fault? b = some e := by
  have houtcome := parseOutcome_parse b
  generalize parse b = result at houtcome ⊢
  cases houtcome with
  | refused hfault => simp [hfault]
  | accepted hfault => simp [hfault]

theorem exists_parse_eq_ok_iff {b : Bytes} : (∃ f, parse b = .ok f) ↔ fault? b = none := by
  have houtcome := parseOutcome_parse b
  generalize parse b = result at houtcome ⊢
  cases houtcome with
  | refused hfault => simp [hfault]
  | accepted hfault => simp [hfault]

theorem of_parse_eq_ok {b : Bytes} {f : Frame} (h : parse b = .ok f) :
    f.bytes = b.take (Layout.ofBytes b).frameBytes ∧ f.header.layout = .ofBytes b := by
  have houtcome := parseOutcome_parse b
  rw [h] at houtcome
  cases houtcome with
  | accepted _ hbytes hlayout => exact ⟨hbytes, hlayout⟩

theorem parse_append_of_ok {b : Bytes} {f : Frame} (h : parse b = .ok f) (rest : Bytes) :
    parse (b ++ rest) = .ok f := by
  have hbytes := (of_parse_eq_ok h).1
  rw [← List.take_append_drop (Layout.ofBytes b).frameBytes b, ← hbytes, List.append_assoc]
  exact parse_bytes_append f _

/-! ## The items of a frame -/

section items
variable (f : Frame)

/-- The item at an index, as it stands in the bytes of the frame. -/
def itemBytes (i : Nat) : Bytes :=
  f.bytes.slice (f.header.headerBytes + i * f.header.itemSize) f.header.itemSize

theorem itemAt_view (i : Nat) :
    f.view.itemAt i = if i < f.header.itemCount then some ⟨f.itemBytes i⟩ else none := by
  simp [view, itemBytes, Bytes.slice, List.extract_eq_take_drop]

theorem length_itemBytes {i : Nat} (hi : i < f.header.itemCount) :
    (f.itemBytes i).length = f.header.itemSize := by
  have hend := mul_add_le_mul_of_lt hi f.header.itemSize
  have hitems := f.consistent.items_le
  have hlength := f.length_eq
  exact Bytes.length_slice (by omega)

theorem items_view : f.view.items = (List.range f.header.itemCount).map fun i => ⟨f.itemBytes i⟩ := by
  have hitem : ∀ i, f.view.itemAt i =
      ((List.range f.header.itemCount).map fun i => Item.mk (f.itemBytes i))[i]? := by
    intro i
    rw [itemAt_view, List.getElem?_map]
    by_cases hi : i < f.header.itemCount
    · simp [hi]
    · simp [hi]
  rw [View.items_eq_take hitem]
  exact List.take_of_length_le (by simp [view])

theorem flatMap_bytes_items :
    f.view.items.flatMap (·.bytes) =
      f.bytes.slice f.header.headerBytes (f.header.itemCount * f.header.itemSize) := by
  rw [items_view, List.flatMap_map]
  exact Bytes.flatMap_slice _ _ _ _

end items

/-! ## Acceptance and tiling -/

/-- What the frame at the start of a byte string is, for the layout that the header declares. -/
structure LaidOut (f : Frame) (b : Bytes) (l : Layout) : Prop where
  bytes_eq : f.bytes = b.take l.frameBytes
  /-- What follows the frame changes nothing. -/
  parse_append : ∀ rest, parse (b ++ rest) = .ok f
  reparse : parse f.bytes = .ok f
  itemAt_of_le : ∀ i, l.itemCount ≤ i → f.view.itemAt i = none
  itemAt_of_lt : ∀ i < l.itemCount, ∃ item, f.view.itemAt i = some item ∧
    item.bytes = b.slice (l.headerBytes + i * l.itemSize) l.itemSize ∧ item.size = l.itemSize
  length_items : f.view.items.length = l.itemCount
  flatMap_items :
    f.view.items.flatMap (·.bytes) = b.slice l.headerBytes (l.itemCount * l.itemSize)

theorem laidOut_of_parse {b : Bytes} {f : Frame} (h : parse b = .ok f) :
    f.LaidOut b (.ofBytes b) := by
  obtain ⟨hbytes, hlayout⟩ := of_parse_eq_ok h
  rw [← hlayout] at hbytes ⊢
  have hitems := f.consistent.items_le
  refine ⟨hbytes, parse_append_of_ok h, parse_bytes f, fun i hi => ?_, fun i hi => ?_, ?_, ?_⟩
  · rw [itemAt_view]
    exact if_neg (Nat.not_lt.mpr hi)
  · have hend := mul_add_le_mul_of_lt (show i < f.header.itemCount from hi) f.header.itemSize
    refine ⟨⟨f.itemBytes i⟩, by rw [itemAt_view]; exact if_pos hi, ?_, f.length_itemBytes hi⟩
    show f.itemBytes i = _
    rw [itemBytes, hbytes]
    exact Bytes.slice_take (by simp only [Header.layout]; omega)
  · rw [items_view, List.length_map, List.length_range]
    rfl
  · rw [flatMap_bytes_items, hbytes]
    exact Bytes.slice_take hitems

/-- **The layout of a frame.** Bytes start with a frame if and only if they are long enough for a
header, have the right meta type and declare sizes that fit into each other, and else they are
refused for the first of these that they miss. A frame is what its bytes declare, and working that
out overflows nowhere. -/
theorem parse_layout (b : Bytes) :
    let l := Layout.ofBytes b
    ((∃ f, parse b = .ok f) ↔
        28 ≤ b.length ∧ b.fieldBE 0 1 = 8 ∧ l.frameBytes ≤ b.length ∧
          (28 ≤ l.headerBytes ∧ l.headerBytes ≤ l.frameBytes) ∧
          (0 < l.itemSize ∨ l.itemCount = 0) ∧
          l.headerBytes + l.itemCount * l.itemSize ≤ l.frameBytes) ∧
      (∀ e, parse b = .error e ↔ ((conditions b).find? (!·.1)).map (·.2) = some e) ∧
      (∀ f, parse b = .ok f → f.LaidOut b l) ∧ l.FitsWord :=
  ⟨exists_parse_eq_ok_iff.trans fault?_eq_none_iff, fun _ => parse_eq_error_iff,
    fun _ => laidOut_of_parse, Layout.fitsWord_ofBytes b⟩

/-- A frame of two items, and a byte of the next frame behind it. -/
def twoItemsAndAByte : Bytes :=
  Contents.encode ⟨1, 2, 3, 5, 500, 4, [0, 1, 2, 3, 4, 5, 6, 7]⟩ ++ [8]

theorem parse_twoItemsAndAByte :
    ∃ f, parse twoItemsAndAByte = .ok f ∧ f.bytes = twoItemsAndAByte.take 512 ∧
      f.view.items.flatMap (·.bytes) = [0, 1, 2, 3, 4, 5, 6, 7] ∧
      parse (twoItemsAndAByte.take 300) = .error (.tooShort 300 512) := by
  have hlayout : Layout.ofBytes twoItemsAndAByte = ⟨512, 256, 4, 2⟩ := by decide +kernel
  obtain ⟨haccepted, -, hlaidOut, -⟩ := parse_layout twoItemsAndAByte
  rw [hlayout] at haccepted hlaidOut
  obtain ⟨f, hf⟩ := haccepted.mpr (by decide +kernel)
  have hf' := hlaidOut f hf
  exact ⟨f, hf, hf'.bytes_eq, hf'.flatMap_items.trans (by decide +kernel),
    ((parse_layout _).2.1 _).mpr (by decide +kernel)⟩

end Frame

end PulseHits
