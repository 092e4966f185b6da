import PulseHits.Readout.Class

/-!
# The items of a view

A view whose items are those of a list gives that list, as far as its count goes. `View.ofItems` is
such a view, with a header that holds nothing but the class of the frame.
-/

namespace PulseHits.View

theorem collect_eq_append_take {v : View} {items : List Item} (h : ∀ i, v.itemAt i = items[i]?)
    (index count : Nat) (seen : Array Item) :
    (v.collect index count seen).toList = seen.toList ++ (items.drop index).take count := by
  induction count generalizing index seen with
  | zero => simp [collect]
  | succ count ih =>
    rw [collect, h]
    cases hitem : items[index]? with
    | none =>
      have hdrop : items.drop index = [] :=
        List.drop_eq_nil_of_le (List.getElem?_eq_none_iff.mp hitem)
      simp [hdrop]
    | some item =>
      obtain ⟨hindex, rfl⟩ := List.getElem?_eq_some_iff.mp hitem
      simp only
      rw [ih, List.drop_eq_getElem_cons hindex, List.take_succ_cons, Array.toList_push,
        List.append_assoc]
      rfl

theorem items_eq_take {v : View} {items : List Item} (h : ∀ i, v.itemAt i = items[i]?) :
    v.items = items.take v.itemCount := by
  rw [View.items, collect_eq_append_take h, List.drop_zero]
  rfl

/-- The frame of a type and two boards that has the given items. -/
def ofItems (type cobo asad : Nat) (items : List Item) : View where
  itemCount := items.length
  itemAt i := items[i]?
  headerField offset _ :=
    if offset = Readout.typeOffset then type
    else if offset = Readout.coboOffset then cobo
    else if offset = Readout.asadOffset then asad
    else 0

@[simp] theorem items_ofItems (type cobo asad : Nat) (items : List Item) :
    (ofItems type cobo asad items).items = items := by
  have htake : (ofItems type cobo asad items).items = items.take items.length :=
    items_eq_take fun _ => rfl
  rw [htake, List.take_length]

@[simp] theorem classify_ofItems (type cobo asad : Nat) (items : List Item) :
    Readout.classify (ofItems type cobo asad items) =
      ⟨.ofCode type.toUInt16, cobo.toUInt8, asad.toUInt8⟩ := rfl

end PulseHits.View
