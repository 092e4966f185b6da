import PulseHits.Bytes.RoundTrip

/-!
# Fields of byte strings

A field lies in one of the parts that a byte string is put together from, and is read there as if
the part stood alone. With `fieldLE_ofNatLE` a stored number is read back wherever it stands, and a
field of `w` bytes is below `256 ^ w`.
-/

namespace PulseHits.Bytes

/-! ## Slices of appended strings -/

theorem slice_append_left {a b : Bytes} {start width : Nat} (h : start + width ≤ a.length) :
    slice (a ++ b) start width = a.slice start width := by
  rw [slice, slice, List.drop_append_of_le_length (by omega),
    List.take_append_of_le_length (by rw [List.length_drop]; omega)]

theorem slice_append_right {a b : Bytes} {start width : Nat} (h : a.length ≤ start) :
    slice (a ++ b) start width = b.slice (start - a.length) width := by
  rw [slice, slice, List.drop_append, List.drop_eq_nil_of_le h, List.nil_append]

theorem slice_zero_length (a : Bytes) : a.slice 0 a.length = a := by
  rw [slice, List.drop_zero, List.take_length]

theorem length_slice {b : Bytes} {start width : Nat} (h : start + width ≤ b.length) :
    (b.slice start width).length = width := by
  rw [slice, List.length_take, List.length_drop]
  omega

theorem slice_flatMap {α : Type} {g : α → Bytes} {size : Nat} {xs : List α}
    (h : ∀ x ∈ xs, (g x).length = size) {i : Nat} (hi : i < xs.length) :
    slice (xs.flatMap g) (i * size) size = g xs[i] := by
  induction xs generalizing i with
  | nil => exact absurd hi (Nat.not_lt_zero i)
  | cons x xs ih =>
    obtain ⟨hx, hxs⟩ := List.forall_mem_cons.mp h
    rw [List.flatMap_cons]
    cases i with
    | zero =>
      rw [Nat.zero_mul, slice_append_left (by omega), ← hx, slice_zero_length]
      rfl
    | succ i =>
      rw [slice_append_right (by rw [hx, Nat.succ_mul]; omega), hx, Nat.succ_mul,
        Nat.add_sub_cancel, ih hxs (Nat.lt_of_succ_lt_succ hi)]
      rfl

theorem length_slice_le (b : Bytes) (start width : Nat) : (b.slice start width).length ≤ width := by
  rw [slice, List.length_take]
  exact Nat.min_le_left _ _

theorem slice_append_slice {start width next : Nat} (h : start + width = next) (b : Bytes)
    (width' : Nat) : b.slice start width ++ b.slice next width' = b.slice start (width + width') := by
  rw [slice, slice, slice, List.take_add, List.drop_drop, h]

/-! ## Least significant byte first -/

theorem fieldLE_append_left {a b : Bytes} {start width : Nat} (h : start + width ≤ a.length) :
    fieldLE (a ++ b) start width = a.fieldLE start width := by
  rw [fieldLE, slice_append_left h, fieldLE]

theorem fieldLE_append_right {a b : Bytes} {start width : Nat} (h : a.length ≤ start) :
    fieldLE (a ++ b) start width = b.fieldLE (start - a.length) width := by
  rw [fieldLE, slice_append_right h, fieldLE]

theorem fieldLE_take {b : Bytes} {start width count : Nat} (h : start + width ≤ count) :
    fieldLE (b.take count) start width = b.fieldLE start width := by
  rw [fieldLE, slice_take h, fieldLE]

theorem fieldLE_ofNatLE (w n : Nat) : (ofNatLE w n).fieldLE 0 w = n % 256 ^ w := by
  have hslice : (ofNatLE w n).slice 0 w = ofNatLE w n := by
    have h := slice_zero_length (ofNatLE w n)
    rwa [length_ofNatLE] at h
  rw [fieldLE, hslice, toNatLE_ofNatLE]

theorem fieldLE_ofNatLE_append (w n : Nat) (b : Bytes) :
    fieldLE (ofNatLE w n ++ b) 0 w = n % 256 ^ w := by
  rw [fieldLE_append_left (by simp), fieldLE_ofNatLE]

theorem fieldLE_ofNatLE_append_of_le {v start : Nat} (h : v ≤ start) (n : Nat) (b : Bytes)
    (width : Nat) : fieldLE (ofNatLE v n ++ b) start width = b.fieldLE (start - v) width := by
  rw [fieldLE_append_right (by rwa [length_ofNatLE]), length_ofNatLE]

theorem fieldLE_lt (b : Bytes) (start width : Nat) : b.fieldLE start width < 256 ^ width :=
  Nat.lt_of_lt_of_le (toNatLE_lt _)
    (Nat.pow_le_pow_right (by decide) (length_slice_le b start width))

theorem ofNatLE_fieldLE {b : Bytes} {start width : Nat} (h : start + width ≤ b.length) :
    ofNatLE width (b.fieldLE start width) = b.slice start width := by
  have hwritten := ofNatLE_toNatLE (b.slice start width)
  rwa [length_slice h] at hwritten

theorem ofNatLE_toUInt32_fieldLE {b : Bytes} {start : Nat} (h : start + 4 ≤ b.length) :
    ofNatLE 4 (b.fieldLE start 4).toUInt32.toNat = b.slice start 4 := by
  have hlt : b.fieldLE start 4 < 2 ^ 32 := fieldLE_lt b start 4
  rw [← ofNatLE_fieldLE h]
  exact congrArg _ (Nat.mod_eq_of_lt hlt)

theorem ofNatLE_toUInt64_fieldLE {b : Bytes} {start : Nat} (h : start + 8 ≤ b.length) :
    ofNatLE 8 (b.fieldLE start 8).toUInt64.toNat = b.slice start 8 := by
  have hlt : b.fieldLE start 8 < 2 ^ 64 := fieldLE_lt b start 8
  rw [← ofNatLE_fieldLE h]
  exact congrArg _ (Nat.mod_eq_of_lt hlt)

theorem toUInt32_mod (x : UInt32) : (x.toNat % 256 ^ 4).toUInt32 = x := by
  rw [Nat.mod_eq_of_lt (show x.toNat < 256 ^ 4 from x.toNat_lt)]
  exact UInt32.ofNat_toNat

theorem toUInt64_mod (x : UInt64) : (x.toNat % 256 ^ 8).toUInt64 = x := by
  rw [Nat.mod_eq_of_lt (show x.toNat < 256 ^ 8 from x.toNat_lt)]
  exact UInt64.ofNat_toNat

/-! ## Most significant byte first -/

theorem fieldBE_append_left {a b : Bytes} {start width : Nat} (h : start + width ≤ a.length) :
    fieldBE (a ++ b) start width = a.fieldBE start width := by
  rw [fieldBE, slice_append_left h, fieldBE]

theorem fieldBE_append_right {a b : Bytes} {start width : Nat} (h : a.length ≤ start) :
    fieldBE (a ++ b) start width = b.fieldBE (start - a.length) width := by
  rw [fieldBE, slice_append_right h, fieldBE]

theorem fieldBE_ofNatBE (w n : Nat) : (ofNatBE w n).fieldBE 0 w = n % 256 ^ w := by
  have hslice : (ofNatBE w n).slice 0 w = ofNatBE w n := by
    have h := slice_zero_length (ofNatBE w n)
    rwa [length_ofNatBE] at h
  rw [fieldBE, hslice, toNatBE_ofNatBE]

theorem fieldBE_ofNatBE_append (w n : Nat) (b : Bytes) :
    fieldBE (ofNatBE w n ++ b) 0 w = n % 256 ^ w := by
  rw [fieldBE_append_left (by simp), fieldBE_ofNatBE]

theorem fieldBE_ofNatBE_append_of_le {v start : Nat} (h : v ≤ start) (n : Nat) (b : Bytes)
    (width : Nat) : fieldBE (ofNatBE v n ++ b) start width = b.fieldBE (start - v) width := by
  rw [fieldBE_append_right (by rwa [length_ofNatBE]), length_ofNatBE]

theorem fieldBE_cons (x : UInt8) (b : Bytes) (start width : Nat) :
    fieldBE (x :: b) (start + 1) width = b.fieldBE start width := by
  rw [fieldBE, fieldBE, slice, slice, List.drop_succ_cons]

theorem fieldBE_zero_one (x : UInt8) (b : Bytes) : fieldBE (x :: b) 0 1 = x.toNat := by
  simp [fieldBE, slice, toNatBE]

theorem toNatBE_lt (b : Bytes) : b.toNatBE < 256 ^ b.length := by
  rw [toNatBE_eq_toNatLE_reverse, ← List.length_reverse]
  exact toNatLE_lt b.reverse

theorem fieldBE_lt (b : Bytes) (start width : Nat) : b.fieldBE start width < 256 ^ width :=
  Nat.lt_of_lt_of_le (toNatBE_lt _)
    (Nat.pow_le_pow_right (by decide) (length_slice_le b start width))

end PulseHits.Bytes
