import PacketWire.Proofs.DictValue.Units
import PacketWire.Proofs.Element.Derivation
import PacketWire.Proofs.Key.Derivation

namespace PacketWire.DictValue

open Element

/-!
# Derivations of dicts

A derivation of a dict is its default type and, for each entry, a derivation of the key and one of
the value (`derivedBy_spelled`).
-/

/-- A way to write an entry. -/
structure Entry.Derivation where
  /-- The key in its braces. -/
  key : Key.Derivation
  /-- The value: types stand behind a `=`, and what is told no length holds no opening brace. -/
  value : Element.Derivation false (some Byte.openBrace)

namespace Entry.Derivation

/-- What is written. -/
def text (w : Entry.Derivation) : Bytes := w.key.text ++ w.value.text

/-- The entry. -/
def entry (w : Entry.Derivation) : Entry := ⟨w.key.key, w.value.element⟩

end Entry.Derivation

/-- A way to write a dict. -/
structure Derivation where
  /-- The default type; empty where none is written. -/
  type : Bytes
  /-- A type that is written is a keyword. -/
  isType : type = [] ∨ isKeyword type
  /-- The entries in order. -/
  entries : List Entry.Derivation

namespace Derivation

/-- What is written. -/
def text (w : Derivation) : Bytes := w.type ++ w.entries.flatMap Entry.Derivation.text

/-- The dict. -/
def dict (w : Derivation) : DictValue := ⟨w.type, w.entries.map Entry.Derivation.entry⟩

end Derivation

variable {rest rest' : Bytes} {w w' : Entry.Derivation}

/-! ### Entries -/

theorem derivedBy_entrySpelled :
    DerivedBy EntrySpelled Entry.Derivation.text Entry.Derivation.entry := by
  have hvalue : DerivedBy (Element.Spelled form.delimiter)
      (Element.Derivation.text : Element.Derivation false (some Byte.openBrace) → Bytes)
      Element.Derivation.element :=
    (@derivedBy_spells _ form).congr (spells_iff_spelled rfl)
  constructor
  · intro entry line
    constructor
    · intro h
      cases h with
      | mk hkeySpelled hvalueSpelled =>
        obtain ⟨key, rfl, rfl⟩ := Key.derivedBy_spelled.spelled_iff.1 hkeySpelled
        obtain ⟨value, rfl, rfl⟩ := hvalue.spelled_iff.1 hvalueSpelled
        exact ⟨⟨key, value⟩, rfl, rfl⟩
    · rintro ⟨w, rfl, rfl⟩
      exact .mk (Key.derivedBy_spelled.spelled w.key) (hvalue.spelled w.value)
  · intro w w' htext hthing
    obtain ⟨key, value⟩ := w
    obtain ⟨key', value'⟩ := w'
    obtain ⟨hkey, hvalues⟩ := Entry.mk.inj hthing
    -- what stands behind the key is the same, and so is then the key
    obtain ⟨-, hbehind⟩ := (Key.derivedBy_spelled.spelled key).unique
      (Key.derivedBy_spelled.spelled key') htext
    change key.text ++ value.text = key'.text ++ value'.text at htext
    rw [hbehind] at htext
    obtain rfl := Key.derivedBy_spelled.eq_of_eq (List.append_cancel_right htext) hkey
    obtain rfl := hvalue.eq_of_eq hbehind hvalues
    rfl

/-- An entry ends in front of the next one, or of the end. -/
theorem Entry.Derivation.rest_eq (hends : EndsBefore (some Byte.openBrace) rest)
    (hends' : EndsBefore (some Byte.openBrace) rest') (hi : w.text ++ rest = w'.text ++ rest') :
    rest = rest' := by
  rw [text, text, List.append_assoc, List.append_assoc] at hi
  obtain ⟨-, hbehind⟩ := (Key.derivedBy_spelled.spelled w.key).unique
    (Key.derivedBy_spelled.spelled w'.key) hi
  exact Element.Derivation.rest_eq slot.separates_form hends hends' hbehind

/-- Entries start with an opening brace. -/
theorem Entry.Derivation.endsBefore (ws : List Entry.Derivation) :
    EndsBefore (some Byte.openBrace) (ws.flatMap text) :=
  endsBefore_of_series (Series.flatMap fun w _ => derivedBy_entrySpelled.spelled w)

/-! ### Dicts -/

theorem derivedBy_spelled : DerivedBy Spelled Derivation.text Derivation.dict where
  spelled_iff := by
    intro dict line
    constructor
    · intro h
      cases h with
      | mk htype hentries =>
        obtain ⟨ws, rfl, rfl⟩ := derivedBy_entrySpelled.series_iff.1 hentries
        exact ⟨⟨_, htype, ws⟩, rfl, rfl⟩
    · rintro ⟨w, rfl, rfl⟩
      exact .mk w.isType (derivedBy_entrySpelled.series_iff.2 ⟨w.entries, rfl, rfl⟩)
  eq_of_eq := by
    rintro ⟨type, htype, ws⟩ ⟨type', htype', ws'⟩ htext hthing
    obtain ⟨htypes, hentries⟩ := DictValue.mk.inj hthing
    obtain rfl : type = type' := htypes
    obtain rfl := derivedBy_entrySpelled.eq_of_flatMap_eq (fun _ => Entry.Derivation.rest_eq)
      Entry.Derivation.endsBefore hentries (List.append_cancel_left htext)
    rfl

end PacketWire.DictValue
