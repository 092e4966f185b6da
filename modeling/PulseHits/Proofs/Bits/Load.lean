import Mathlib.Data.List.Induction
import Mathlib.Tactic.Positivity
import Mathlib.Tactic.Ring
import PulseHits.Frame.View
import PulseHits.Proofs.Bytes.Field

/-!
# Bit fields as quotients and remainders

A field that lies inside a byte string is a quotient and a remainder of the number that the whole
string writes (`load_eq`, `loadFromEnd_eq`), so only that number and the place of the field matter
and not the bytes that the field touches.
-/

namespace PulseHits

namespace Bytes

theorem toNatBE_append (a b : Bytes) : toNatBE (a ++ b) = a.toNatBE * 256 ^ b.length + b.toNatBE := by
  induction b using List.reverseRecOn with
  | nil => simp [toNatBE]
  | append_singleton b x ih =>
    have hconcat : ∀ c : Bytes, toNatBE (c ++ [x]) = 256 * c.toNatBE + x.toNat := fun c => by
      simp [toNatBE, List.foldl_append]
    rw [← List.append_assoc, hconcat, ih, hconcat, List.length_append, List.length_singleton,
      Nat.pow_succ]
    ring

theorem toNatBE_middle (a b c : Bytes) :
    toNatBE (a ++ b ++ c) / 256 ^ c.length % 256 ^ b.length = b.toNatBE := by
  rw [toNatBE_append, toNatBE_append, Nat.mul_comm _ (256 ^ c.length),
    Nat.mul_add_div (by positivity), Nat.div_eq_of_lt (toNatBE_lt c), Nat.add_zero,
    Nat.mul_comm, Nat.mul_add_mod, Nat.mod_eq_of_lt (toNatBE_lt b)]

theorem fieldBE_eq {b : Bytes} {start width : Nat} (h : start + width ≤ b.length) :
    b.fieldBE start width =
      b.toNatBE / 256 ^ (b.length - start - width) % 256 ^ width := by
  have hsplit : b.take start ++ b.slice start width ++ b.drop (start + width) = b := by
    rw [slice, List.append_assoc, ← List.drop_drop, List.take_append_drop, List.take_append_drop]
  have hslice : (b.slice start width).length = width := by
    rw [slice, List.length_take, List.length_drop]
    omega
  have htail : (b.drop (start + width)).length = b.length - start - width := by
    rw [List.length_drop]
    omega
  have hmiddle := toNatBE_middle (b.take start) (b.slice start width) (b.drop (start + width))
  rw [hsplit, hslice, htail] at hmiddle
  rw [fieldBE, hmiddle]

end Bytes

namespace Bits

theorem mod_two_pow_div_mod {n above offset width : Nat} (h : offset + width ≤ above) :
    n % 2 ^ above / 2 ^ offset % 2 ^ width = n / 2 ^ offset % 2 ^ width := by
  refine Nat.eq_of_testBit_eq fun i => ?_
  simp only [Nat.testBit_mod_two_pow, Nat.testBit_div_two_pow]
  by_cases hi : i < width
  · have habove : i + offset < above := by omega
    simp [hi, habove]
  · simp [hi]

theorem load_eq {b : Bytes} {offset width : Nat} (hpos : 0 < width) (hmax : width ≤ maxWidth)
    (hinside : offset + width ≤ 8 * b.length) :
    load b offset width = b.toNatBE / 2 ^ (8 * b.length - offset - width) % 2 ^ width := by
  have hnot : ¬ (width = 0 ∨ maxWidth < width ∨ 8 * b.length < offset + width) := by omega
  rw [load, if_neg hnot]
  -- the bytes that the field touches, from `first` on and up to `last`
  obtain ⟨first, hfirst⟩ : ∃ first, first = offset / 8 := ⟨_, rfl⟩
  obtain ⟨last, hlast⟩ : ∃ last, last = (offset + width + 7) / 8 := ⟨_, rfl⟩
  have hend : 8 * (b.length - last) + (8 * last - (offset + width)) =
      8 * b.length - offset - width := by omega
  simp only [← hfirst, ← hlast]
  have hpow : ∀ n, 256 ^ n = 2 ^ (8 * n) := fun n => by rw [Nat.pow_mul]
  rw [Bytes.fieldBE_eq (by omega), Nat.shiftRight_eq_div_pow, Nat.one_shiftLeft, hpow, hpow,
    mod_two_pow_div_mod (by omega), Nat.div_div_eq_div_mul, ← Nat.pow_add,
    show b.length - first - (last - first) = b.length - last by omega, hend]

theorem loadFromEnd_eq {b : Bytes} {offset width : Nat} (hpos : 0 < width)
    (hmax : width ≤ maxWidth) (hinside : offset + width ≤ 8 * b.length) :
    loadFromEnd b offset width = b.toNatBE / 2 ^ offset % 2 ^ width := by
  have hplace : 8 * b.length - (8 * b.length - offset - width) - width = offset := by omega
  rw [loadFromEnd, if_neg (by omega), load_eq hpos hmax (by omega), hplace]

theorem load_bytes {b : Bytes} {start size : Nat} (hpos : 0 < size) (hmax : 8 * size ≤ maxWidth)
    (hinside : start + size ≤ b.length) :
    load b (8 * start) (8 * size) = b.fieldBE start size := by
  have hpow : ∀ n, 256 ^ n = 2 ^ (8 * n) := fun n => by rw [Nat.pow_mul]
  have hbehind : 8 * b.length - 8 * start - 8 * size = 8 * (b.length - start - size) := by omega
  rw [load_eq (by omega) hmax (by omega), Bytes.fieldBE_eq hinside, hbehind, hpow, hpow]

end Bits

theorem Item.field_ofNatBE {size offset width : Nat} (n : Nat) (hpos : 0 < width)
    (hmax : width ≤ Bits.maxWidth) (hinside : offset + width ≤ 8 * size) :
    (Item.mk (.ofNatBE size n)).field offset width = n / 2 ^ offset % 2 ^ width := by
  have hlength : (Item.mk (.ofNatBE size n)).bytes.length = size := Bytes.length_ofNatBE size n
  rw [Item.field, Bits.loadFromEnd_eq hpos hmax (by omega), Bytes.toNatBE_ofNatBE,
    show 256 ^ size = 2 ^ (8 * size) by rw [Nat.pow_mul], Bits.mod_two_pow_div_mod hinside]

end PulseHits
