import Mathlib.Data.Nat.Digits.Lemmas
import PulseHits.Proofs.Bits.Load

/-!
# Byte strings as bit strings

A byte string written out bit by bit is a bit string, and a field is a part of it: the field reads as
the number that its bits write, the first of them most significant (`load_eq_number`), so the other
bits have no say in it. Counted from the end, a field is a quotient by the bits behind it and a
remainder by its width; two fields that lie side by side read as one (`readsFields`).
-/

namespace PulseHits

namespace Bits

/-- The number that bits write, the first of them most significant. -/
def number (bits : List Bool) : Nat :=
  Nat.ofDigits 2 (bits.reverse.map Bool.toNat)

/-- The bits of a byte, most significant bit first. -/
def ofByte (x : UInt8) : List Bool :=
  (List.range 8).map fun i => x.toNat.testBit (7 - i)

/-- The bits of a byte string, most significant bit of the first byte first. -/
def ofBytes (b : Bytes) : List Bool :=
  b.flatMap ofByte

/-- The `width` bits that follow the first `offset` ones. -/
def slice (bits : List Bool) (offset width : Nat) : List Bool :=
  (bits.drop offset).take width

/-! ## Numbers of bit strings -/

theorem number_append (a b : List Bool) : number (a ++ b) = 2 ^ b.length * number a + number b := by
  rw [number, List.reverse_append, List.map_append, Nat.ofDigits_append, List.length_map,
    List.length_reverse, Nat.add_comm]
  rfl

theorem number_lt (bits : List Bool) : number bits < 2 ^ bits.length := by
  have hdigits : ∀ d ∈ bits.reverse.map Bool.toNat, d < 2 := by
    intro d hd
    obtain ⟨bit, -, rfl⟩ := List.mem_map.mp hd
    exact Bool.toNat_lt bit
  have hlt := Nat.ofDigits_lt_base_pow_length (by omega) hdigits
  rwa [List.length_map, List.length_reverse] at hlt

theorem number_slice {bits : List Bool} {offset width : Nat} (h : offset + width ≤ bits.length) :
    number (slice bits offset width) =
      number bits / 2 ^ (bits.length - offset - width) % 2 ^ width := by
  have hsplit : bits = (bits.take offset ++ slice bits offset width) ++ bits.drop (offset + width) := by
    rw [slice, List.append_assoc, ← List.drop_drop, List.take_append_drop, List.take_append_drop]
  have hslice : (slice bits offset width).length = width := by
    rw [slice, List.length_take, List.length_drop]
    omega
  have htail : (bits.drop (offset + width)).length = bits.length - offset - width := by
    rw [List.length_drop]
    omega
  have hnumber := number_lt (slice bits offset width)
  have hbehind := number_lt (bits.drop (offset + width))
  have hwhole := congrArg number hsplit
  rw [number_append, number_append, hslice, htail] at hwhole
  rw [hslice] at hnumber
  rw [htail] at hbehind
  rw [hwhole, Nat.mul_add_div (by positivity), Nat.div_eq_of_lt hbehind, Nat.add_zero,
    Nat.mul_add_mod, Nat.mod_eq_of_lt hnumber]

theorem length_ofBytes (b : Bytes) : (ofBytes b).length = 8 * b.length := by
  induction b with
  | nil => rfl
  | cons x b ih =>
    have hbyte : (ofByte x).length = 8 := rfl
    rw [ofBytes, List.flatMap_cons, List.length_append, hbyte, ← ofBytes, ih, List.length_cons]
    omega

theorem number_ofByte (x : UInt8) : number (ofByte x) = x.toNat := by
  have hbytes : ∀ n < 256, number ((List.range 8).map fun i => n.testBit (7 - i)) = n := by
    decide +kernel
  exact hbytes x.toNat x.toNat_lt

theorem number_ofBytes (b : Bytes) : number (ofBytes b) = b.toNatBE := by
  induction b with
  | nil => rfl
  | cons x b ih =>
    have hbyte : Bytes.toNatBE [x] = x.toNat := by simp [Bytes.toNatBE]
    have hpow : 2 ^ (8 * b.length) = 256 ^ b.length := by rw [Nat.pow_mul]
    have happend := Bytes.toNatBE_append [x] b
    rw [hbyte] at happend
    rw [← List.singleton_append, happend, ofBytes, List.flatMap_append, List.flatMap_singleton,
      ← ofBytes, number_append, ih, number_ofByte, length_ofBytes, hpow, Nat.mul_comm]

theorem load_eq_number {b : Bytes} {offset width : Nat} (hpos : 0 < width)
    (hmax : width ≤ maxWidth) (hinside : offset + width ≤ 8 * b.length) :
    load b offset width = number (slice (ofBytes b) offset width) := by
  rw [load_eq hpos hmax hinside, number_slice (by rwa [length_ofBytes]), number_ofBytes,
    length_ofBytes]

/-! ## All fields of a byte string -/

theorem load_eq_zero {b : Bytes} {offset width : Nat}
    (h : ¬ (1 ≤ width ∧ width ≤ maxWidth ∧ offset + width ≤ 8 * b.length)) :
    load b offset width = 0 := by
  rw [load, if_pos (by omega)]

theorem loadFromEnd_eq_zero {b : Bytes} {offset width : Nat}
    (h : ¬ (1 ≤ width ∧ width ≤ maxWidth ∧ offset + width ≤ 8 * b.length)) :
    loadFromEnd b offset width = 0 := by
  rw [loadFromEnd]
  split
  · rfl
  · exact load_eq_zero (by omega)

theorem loadFromEnd_eq_load {b : Bytes} {offset width : Nat} (h : offset + width ≤ 8 * b.length) :
    loadFromEnd b offset width = load b (8 * b.length - offset - width) width := by
  rw [loadFromEnd, if_neg (by omega)]

theorem load_congr {b b' : Bytes} {offset width : Nat} (hlength : b'.length = b.length)
    (h : slice (ofBytes b') offset width = slice (ofBytes b) offset width) :
    load b' offset width = load b offset width := by
  by_cases hfield : 1 ≤ width ∧ width ≤ maxWidth ∧ offset + width ≤ 8 * b.length
  · obtain ⟨hpos, hmax, hinside⟩ := hfield
    rw [load_eq_number hpos hmax hinside, load_eq_number hpos hmax (by omega), h]
  · rw [load_eq_zero hfield, load_eq_zero (by omega)]

theorem loadFromEnd_congr {b b' : Bytes} {offset width : Nat} (hlength : b'.length = b.length)
    (h : slice (ofBytes b') (8 * b.length - offset - width) width =
      slice (ofBytes b) (8 * b.length - offset - width) width) :
    loadFromEnd b' offset width = loadFromEnd b offset width := by
  by_cases hinside : offset + width ≤ 8 * b.length
  · rw [loadFromEnd_eq_load hinside, loadFromEnd_eq_load (by omega), hlength]
    exact load_congr hlength h
  · rw [loadFromEnd_eq_zero (by omega), loadFromEnd_eq_zero (by omega)]

theorem loadFromEnd_add {b : Bytes} {offset width width' : Nat} (hmax : width + width' ≤ maxWidth)
    (hinside : offset + (width + width') ≤ 8 * b.length) :
    loadFromEnd b offset (width + width') =
      loadFromEnd b (offset + width) width' * 2 ^ width + loadFromEnd b offset width := by
  -- a field without width reads as zero like the remainder by one
  have hquotient : ∀ {offset width : Nat}, width ≤ maxWidth → offset + width ≤ 8 * b.length →
      loadFromEnd b offset width = b.toNatBE / 2 ^ offset % 2 ^ width := by
    intro offset width hmax hinside
    cases width with
    | zero => rw [loadFromEnd_eq_zero (by omega), Nat.pow_zero, Nat.mod_one]
    | succ width => exact loadFromEnd_eq (by omega) hmax hinside
  rw [hquotient hmax hinside, hquotient (by omega) (by omega), hquotient (by omega) (by omega),
    Nat.pow_add, Nat.mod_mul, Nat.pow_add, Nat.div_div_eq_div_mul]
  ring

end Bits

/-- How the fields of a byte string read, counted from its first bit and, as an item, from its last
bit: as quotients and remainders of the number that it writes. -/
structure ReadsFields (b : Bytes) : Prop where
  load_eq : ∀ offset width, Bits.load b offset width =
    if 1 ≤ width ∧ width ≤ 64 ∧ offset + width ≤ 8 * b.length then
      b.toNatBE / 2 ^ (8 * b.length - offset - width) % 2 ^ width
    else 0
  field_eq : ∀ offset width, (Item.mk b).field offset width =
    if 1 ≤ width ∧ width ≤ 64 ∧ offset + width ≤ 8 * b.length then
      b.toNatBE / 2 ^ offset % 2 ^ width
    else 0
  load_lt : ∀ offset width, Bits.load b offset width < 2 ^ width
  field_lt : ∀ offset width, (Item.mk b).field offset width < 2 ^ width
  /-- Bits outside a field have no say in it. -/
  load_congr : ∀ {b' : Bytes} {offset width : Nat}, b'.length = b.length →
    Bits.slice (Bits.ofBytes b') offset width = Bits.slice (Bits.ofBytes b) offset width →
    Bits.load b' offset width = Bits.load b offset width
  field_congr : ∀ {b' : Bytes} {offset width : Nat}, b'.length = b.length →
    Bits.slice (Bits.ofBytes b') (8 * b.length - offset - width) width =
      Bits.slice (Bits.ofBytes b) (8 * b.length - offset - width) width →
    (Item.mk b').field offset width = (Item.mk b).field offset width
  field_add : ∀ {offset width width' : Nat}, width + width' ≤ 64 →
    offset + (width + width') ≤ 8 * b.length →
    (Item.mk b).field offset (width + width') =
      (Item.mk b).field (offset + width) width' * 2 ^ width + (Item.mk b).field offset width

/-- **Bit fields.** Every field of every byte string is a quotient and a remainder of the number that
the string writes, or zero if there is no such field. -/
theorem readsFields (b : Bytes) : ReadsFields b where
  load_eq := by
    intro offset width
    split
    · next h => exact Bits.load_eq h.1 h.2.1 h.2.2
    · next h => exact Bits.load_eq_zero h
  field_eq := by
    intro offset width
    split
    · next h => exact Bits.loadFromEnd_eq h.1 h.2.1 h.2.2
    · next h => exact Bits.loadFromEnd_eq_zero h
  load_lt := by
    intro offset width
    rw [← Nat.one_shiftLeft]
    exact Bits.load_lt b offset width
  field_lt := by
    intro offset width
    rw [← Nat.one_shiftLeft]
    exact (Item.mk b).field_lt offset width
  load_congr := Bits.load_congr
  field_congr := Bits.loadFromEnd_congr
  field_add := Bits.loadFromEnd_add

/-- The fields of a word of a partial readout, over the bounds of its bytes. -/
theorem readsFields_partialWord :
    let b : Bytes := [0x82, 0x99, 0x0a, 0xbc]
    let i := Item.mk b
    7 + 2 ≤ 64 ∧ 23 + (7 + 2) ≤ 8 * b.length ∧ i.field 30 2 = 2 ∧ i.field 23 7 = 5 ∧
      i.field 23 (7 + 2) = 2 * 2 ^ 7 + 5 := by
  intro b i
  have haget : i.field 30 2 = 2 := by decide
  have hchannel : i.field 23 7 = 5 := by decide
  refine ⟨by decide, by decide, haget, hchannel, ?_⟩
  have hadd := (readsFields b).field_add (show 7 + 2 ≤ 64 by decide)
    (show 23 + (7 + 2) ≤ 8 * b.length by decide)
  rw [hadd]
  exact congrArg₂ (fun aget channel => aget * 2 ^ 7 + channel) haget hchannel

end PulseHits
