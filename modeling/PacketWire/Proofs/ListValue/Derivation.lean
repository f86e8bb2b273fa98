import PacketWire.Proofs.Element.Derivation
import PacketWire.Proofs.ListValue.Units

namespace PacketWire.ListValue

open Element

/-!
# Derivations of lists

A derivation of a list is its default type and a derivation of each element in its place
(`derivedBy_spelled`).
-/

/-- A way to write an element of a list: types stand behind a `=`, and what is told no length holds
    no `|`. -/
abbrev Item : Type := Element.Derivation false (some Byte.pipe)

/-- What is written for an element in its place. -/
def Item.text (w : Item) : Bytes := Byte.pipe :: Element.Derivation.text w

/-- A way to write a list. -/
structure Derivation where
  /-- The default type; empty where none is written. -/
  type : Bytes
  /-- A type that is written is a keyword. -/
  isType : type = [] ∨ isKeyword type
  /-- The elements in order. -/
  items : List Item

namespace Derivation

/-- What is written. -/
def text (w : Derivation) : Bytes := w.type ++ w.items.flatMap Item.text

/-- The list. -/
def list (w : Derivation) : ListValue := ⟨w.type, w.items.map Element.Derivation.element⟩

end Derivation

variable {rest rest' : Bytes} {w w' : Item}

/-! ### Elements -/

theorem derivedBy_itemSpelled : DerivedBy ItemSpelled Item.text Element.Derivation.element := by
  have helement : DerivedBy (Element.Spelled form.delimiter)
      (Element.Derivation.text : Item → Bytes) Element.Derivation.element :=
    (@derivedBy_spells _ form).congr (spells_iff_spelled rfl)
  constructor
  · intro element line
    constructor
    · intro h
      cases h with
      | mk hspelled =>
        obtain ⟨w, rfl, rfl⟩ := helement.spelled_iff.1 hspelled
        exact ⟨w, rfl, rfl⟩
    · rintro ⟨w, rfl, rfl⟩
      exact .mk (helement.spelled w)
  · intro w w' htext hthing
    exact helement.eq_of_eq (List.cons.inj htext).2 hthing

/-- An element in its place ends in front of the next one, or of the end. -/
theorem Item.rest_eq (hends : EndsBefore (some Byte.pipe) rest)
    (hends' : EndsBefore (some Byte.pipe) rest') (hi : w.text ++ rest = w'.text ++ rest') :
    rest = rest' :=
  Element.Derivation.rest_eq slot.separates_form hends hends' (List.cons.inj hi).2

/-- Elements start with a `|`. -/
theorem Item.endsBefore (ws : List Item) : EndsBefore (some Byte.pipe) (ws.flatMap Item.text) :=
  endsBefore_of_series (Series.flatMap fun w _ => derivedBy_itemSpelled.spelled w)

/-! ### Lists -/

theorem derivedBy_spelled : DerivedBy Spelled Derivation.text Derivation.list where
  spelled_iff := by
    intro list line
    constructor
    · intro h
      cases h with
      | mk htype hitems =>
        obtain ⟨ws, rfl, rfl⟩ := derivedBy_itemSpelled.series_iff.1 hitems
        exact ⟨⟨_, htype, ws⟩, rfl, rfl⟩
    · rintro ⟨w, rfl, rfl⟩
      exact .mk w.isType (derivedBy_itemSpelled.series_iff.2 ⟨w.items, rfl, rfl⟩)
  eq_of_eq := by
    rintro ⟨type, htype, ws⟩ ⟨type', htype', ws'⟩ htext hthing
    obtain ⟨htypes, hitems⟩ := ListValue.mk.inj hthing
    obtain rfl : type = type' := htypes
    obtain rfl := derivedBy_itemSpelled.eq_of_flatMap_eq (fun _ => Item.rest_eq)
      Item.endsBefore hitems (List.append_cancel_left htext)
    rfl

end PacketWire.ListValue
