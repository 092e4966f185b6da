import Mathlib.Algebra.Ring.Nat
import PulseHits.Bytes

/-!
# Writing and reading numbers

Writing `n` in `w` bytes and reading it back gives `n % 256 ^ w`, in either order of the bytes, and
reading a byte string and writing the number in as many bytes gives the same string.
-/

namespace PulseHits.Bytes

theorem toNatLE_lt (b : Bytes) : b.toNatLE < 256 ^ b.length := by
  induction b with
  | nil => simp [toNatLE]
  | cons x r ih =>
    have := x.toNat_lt
    simp only [toNatLE, List.length_cons, Nat.pow_succ]
    omega

theorem toNatLE_ofNatLE (w n : Nat) : (ofNatLE w n).toNatLE = n % 256 ^ w := by
  induction w generalizing n with
  | zero => simp [ofNatLE, toNatLE, Nat.mod_one]
  | succ w ih =>
    have h : (UInt8.ofNat n).toNat = n % 256 := by simp
    rw [ofNatLE, toNatLE, ih, h, Nat.pow_succ', Nat.mod_mul]

theorem ofNatLE_toNatLE (b : Bytes) : ofNatLE b.length b.toNatLE = b := by
  induction b with
  | nil => rfl
  | cons x r ih =>
    have hx := x.toNat_lt
    have hdiv : (x.toNat + 256 * toNatLE r) / 256 = toNatLE r := by omega
    have hhead : UInt8.ofNat (x.toNat + 256 * toNatLE r) = x := by
      apply UInt8.toNat_inj.mp
      simp
    simp [ofNatLE, toNatLE, hdiv, hhead, ih]

theorem toNatBE_eq_toNatLE_reverse (b : Bytes) : b.toNatBE = toNatLE b.reverse := by
  induction h : b.reverse generalizing b with
  | nil => simp_all [toNatBE, toNatLE]
  | cons x r ih =>
    have hb : b = r.reverse ++ [x] := by simpa using congrArg List.reverse h
    have := ih r.reverse (by simp)
    simp only [toNatBE] at this ⊢
    simp only [hb, List.foldl_append, this, List.foldl_cons, List.foldl_nil, toNatLE]
    omega

theorem toNatBE_ofNatBE (w n : Nat) : (ofNatBE w n).toNatBE = n % 256 ^ w := by
  rw [toNatBE_eq_toNatLE_reverse, ofNatBE, List.reverse_reverse, toNatLE_ofNatLE]

end PulseHits.Bytes
