import Mathlib.Data.String.Basic
import Mathlib.Tactic.SplitIfs
import PulseHits.Text.Utf8

/-!
# The order of texts by their bytes

UTF-8 keeps the order of code points: of two characters the smaller one has the smaller code, and
no code starts another. So texts sorted by their characters are sorted by their bytes
(`encode_le_encode`).
-/

namespace PulseHits.Text.Utf8

/-! ## The bytes of a text -/

theorem toList_loop_eq (b : ByteArray) (i : Nat) (r : Bytes) :
    ByteArray.toList.loop b i r = r.reverse ++ b.data.toList.drop i := by
  induction i, r using ByteArray.toList.loop.induct b with
  | case1 i r hlt ih =>
    have hget : b.get! i = b.data.toList[i] := by
      show b.data[i]! = _
      rw [getElem!_pos b.data i hlt, Array.getElem_toList]
    rw [ByteArray.toList.loop, if_pos hlt, ih, hget, List.reverse_cons, List.append_assoc,
      List.singleton_append, ← List.drop_eq_getElem_cons]
  | case2 i r hge =>
    have hdrop : b.data.toList.drop i = [] := List.drop_eq_nil_of_le (Nat.le_of_not_lt hge)
    rw [ByteArray.toList.loop, if_neg hge, hdrop, List.append_nil]

theorem encode_eq_flatMap (s : String) : encode s = s.toList.flatMap String.utf8EncodeChar := by
  rw [encode, String.toUTF8_eq_toByteArray, ← String.utf8Encode_toList, ByteArray.toList,
    toList_loop_eq, List.utf8Encode]
  exact List.toList_data_toByteArray

/-! ## The order -/

theorem utf8EncodeChar_append_lt {c d : Char} (h : c < d) (a b : Bytes) :
    String.utf8EncodeChar c ++ a < String.utf8EncodeChar d ++ b := by
  have hval : c.val.toNat < d.val.toNat := h
  have hbound : ∀ x : Char, x.val.toNat < 0x110000 := fun x => by
    have := x.valid
    simp only [UInt32.isValidChar, Nat.isValidChar] at this
    omega
  have hc := hbound c
  have hd := hbound d
  simp only [String.utf8EncodeChar]
  generalize c.val.toNat = m at *
  generalize d.val.toNat = n at *
  split_ifs <;>
    simp (disch := omega) only [List.cons_append, List.nil_append, List.cons_lt_cons_iff,
      UInt8.lt_iff_toNat_lt, ← UInt8.toNat_inj, UInt8.toNat_ofNat', Nat.mod_eq_of_lt] <;>
    omega

theorem append_lt_append_iff (a : Bytes) {b c : Bytes} : a ++ b < a ++ c ↔ b < c := by
  induction a with
  | nil => rfl
  | cons x a ih => rw [List.cons_append, List.cons_append, List.cons_lt_cons_self, ih]

theorem flatMap_utf8EncodeChar_lt {s t : List Char} (h : s < t) :
    s.flatMap String.utf8EncodeChar < t.flatMap String.utf8EncodeChar := by
  induction s generalizing t with
  | nil =>
    cases t with
    | nil => exact absurd h (List.not_lt_nil _)
    | cons d t =>
      rw [List.flatMap_nil, List.flatMap_cons]
      have hpos : 0 < (String.utf8EncodeChar d).length := by
        rw [String.length_utf8EncodeChar]
        exact d.utf8Size_pos
      cases hd : String.utf8EncodeChar d with
      | nil => simp [hd] at hpos
      | cons x xs => exact List.nil_lt_cons _ _
  | cons c s ih =>
    cases t with
    | nil => exact absurd h (List.not_lt_nil _)
    | cons d t =>
      rw [List.flatMap_cons, List.flatMap_cons]
      rcases List.cons_lt_cons_iff.mp h with hlt | ⟨rfl, hrest⟩
      · exact utf8EncodeChar_append_lt hlt _ _
      · exact (append_lt_append_iff _).mpr (ih hrest)

theorem encode_lt_encode {s t : String} (h : s < t) : encode s < encode t := by
  rw [encode_eq_flatMap, encode_eq_flatMap]
  exact flatMap_utf8EncodeChar_lt h

theorem encode_le_encode {s t : String} : encode s ≤ encode t ↔ s ≤ t := by
  constructor
  · intro h
    by_contra hgt
    exact h (encode_lt_encode (not_le.mp hgt))
  · intro h
    rcases lt_or_eq_of_le h with hlt | rfl
    · exact List.le_of_lt (encode_lt_encode hlt)
    · exact List.le_refl _

end PulseHits.Text.Utf8
