import PacketWire.Proofs.Derivation
import PacketWire.Proofs.Element.Wire

namespace PacketWire.Element

/-!
# Derivations of elements

A derivation of an element is its type and a derivation of its value, which tells apart a value that
is not written, one behind a space, and one behind its length. The digits of the length are part of
it, since zeros may stand in front of them.
-/

variable {bareType : Bool} {delimiter : Option UInt8}

/-! ### Ways to write -/

/-- A way to write a value. -/
inductive ValueDerivation (delimiter : Option UInt8) where
  /-- Nothing is written. -/
  | absent
  /-- Behind a space the value, which does not hold the delimiter. -/
  | delimited (value : Bytes) (notMem : ∀ d, delimiter = some d → d ∉ value)
  /-- A length of zero, and nothing behind it. -/
  | zero (digits : Bytes) (numeral : Numeral 0 digits)
  /-- The length, and behind a space so many bytes. -/
  | counted (value digits : Bytes) (numeral : Numeral value.length digits)

namespace ValueDerivation

/-- What is written. -/
def text : ValueDerivation delimiter → Bytes
  | absent => []
  | delimited value _ => Byte.space :: value
  | zero digits _ => Byte.colon :: digits
  | counted value digits _ => Byte.colon :: digits ++ Byte.space :: value

/-- The value. -/
def value : ValueDerivation delimiter → Bytes
  | absent => []
  | delimited value _ => value
  | zero _ _ => []
  | counted value _ _ => value

/-- The length is told. -/
def isCounted : ValueDerivation delimiter → Bool
  | absent => false
  | delimited _ _ => false
  | zero _ _ => true
  | counted _ _ _ => true

end ValueDerivation

/-- A way to write an element, where types stand bare or behind a `=`. -/
structure Derivation (bareType : Bool) (delimiter : Option UInt8) where
  /-- The type; empty where none is written. -/
  type : Bytes
  /-- A type that is written is a keyword. -/
  isType : type = [] ∨ isKeyword type
  /-- What stands behind the type. -/
  value : ValueDerivation delimiter

/-- What is written of a type. -/
def typeText (bareType : Bool) (type : Bytes) : Bytes :=
  if bareType then type else typeWire type

namespace Derivation

/-- What is written. -/
def text (w : Derivation bareType delimiter) : Bytes := typeText bareType w.type ++ w.value.text

/-- The element. -/
def element (w : Derivation bareType delimiter) : Element :=
  ⟨w.type, w.value.value, w.value.isCounted⟩

end Derivation

variable {type value text rest rest' : Bytes} {counted : Bool} {κ : Type} {form : Form κ}

/-! ### Values -/

theorem valueSpelling_iff :
    ValueSpelling delimiter value counted text ↔
      ∃ w : ValueDerivation delimiter, w.text = text ∧ w.value = value ∧ w.isCounted = counted := by
  constructor
  · intro h
    cases h with
    | absent => exact ⟨.absent, rfl, rfl, rfl⟩
    | delimited hnot => exact ⟨.delimited _ hnot, rfl, rfl, rfl⟩
    | zero hnum => exact ⟨.zero _ hnum, rfl, rfl, rfl⟩
    | counted hnum => exact ⟨.counted _ _ hnum, rfl, rfl, rfl⟩
  · rintro ⟨w, rfl, rfl, rfl⟩
    cases w with
    | absent => exact .absent
    | delimited value hnot => exact .delimited hnot
    | zero digits hnum => exact .zero hnum
    | counted value digits hnum => exact .counted hnum

/-- A derivation of a value is known by its text, its value and whether the length is told. -/
theorem ValueDerivation.eq_of_eq {w w' : ValueDerivation delimiter} (htext : w.text = w'.text)
    (hvalue : w.value = w'.value) (hcounted : w.isCounted = w'.isCounted) : w = w' := by
  -- A zero is followed by no space, so it is not the length in front of a value.
  have hspace : ∀ {digits digits' value' : Bytes}, Numeral 0 digits →
      digits ≠ digits' ++ Byte.space :: value' := fun hnum he =>
    Decimal.notMem_of_numeral hnum (by decide) (he ▸ List.mem_append_right _ List.mem_cons_self)
  cases w with
  | absent =>
    cases w' with
    | absent => rfl
    | delimited => cases htext
    | zero => cases hcounted
    | counted => cases hcounted
  | delimited value hnot =>
    cases w' with
    | absent => cases htext
    | delimited value' hnot' =>
      obtain rfl : value = value' := hvalue
      rfl
    | zero => cases hcounted
    | counted => cases hcounted
  | zero digits hnum =>
    cases w' with
    | absent => cases hcounted
    | delimited => cases hcounted
    | zero digits' hnum' =>
      obtain rfl := (List.cons.inj htext).2
      rfl
    | counted value' digits' hnum' => exact absurd (List.cons.inj htext).2 (hspace hnum)
  | counted value digits hnum =>
    cases w' with
    | absent => cases hcounted
    | delimited => cases hcounted
    | zero digits' hnum' => exact absurd (List.cons.inj htext).2.symm (hspace hnum')
    | counted value' digits' hnum' =>
      obtain rfl : value = value' := hvalue
      obtain rfl := List.append_cancel_right (List.cons.inj htext).2
      rfl

/-! ### Elements -/

theorem typeSpelled_iff :
    TypeSpelled bareType type text ↔
      (type = [] ∨ isKeyword type) ∧ typeText bareType type = text := by
  constructor
  · intro h
    cases h with
    | absent =>
      refine ⟨.inl rfl, ?_⟩
      rw [typeText]
      split <;> rfl
    | bare htype => exact ⟨.inr htype, rfl⟩
    | marked htype => exact ⟨.inr htype, typeWire_of_isKeyword htype⟩
  · rintro ⟨htype, rfl⟩
    cases bareType with
    | true =>
      obtain rfl | htype := htype
      · exact .absent
      · exact .bare htype
    | false =>
      show TypeSpelled false type (typeWire type)
      obtain rfl | htype := htype
      · exact .absent
      · rw [typeWire_of_isKeyword htype]
        exact .marked htype

/-- What is written of an element in one kind of value is what there is a derivation of. -/
theorem derivedBy_spells :
    DerivedBy form.Spells (@Derivation.text form.bareType form.delimiter) Derivation.element where
  spelled_iff := by
    intro element line
    constructor
    · intro h
      cases h with
      | mk htype hvalue =>
        obtain ⟨hkey, rfl⟩ := typeSpelled_iff.1 htype
        obtain ⟨w, rfl, rfl, rfl⟩ := valueSpelling_iff.1 hvalue
        exact ⟨⟨_, hkey, w⟩, rfl, rfl⟩
    · rintro ⟨w, rfl, rfl⟩
      exact .mk (typeSpelled_iff.2 ⟨w.isType, rfl⟩) (valueSpelling_iff.2 ⟨w.value, rfl, rfl, rfl⟩)
  eq_of_eq := by
    rintro ⟨type, hkey, w⟩ ⟨type', hkey', w'⟩ htext helement
    obtain ⟨rfl, hvalue, hcounted⟩ := Element.mk.inj helement
    have hbehind : w.text = w'.text := List.append_cancel_left htext
    obtain rfl := ValueDerivation.eq_of_eq hbehind hvalue hcounted
    rfl

/-- An element ends at one place, in front of a delimiter or of the end of the input. -/
theorem Derivation.rest_eq (hform : form.Separates)
    {w w' : Derivation form.bareType form.delimiter} (hends : EndsBefore form.delimiter rest)
    (hends' : EndsBefore form.delimiter rest') (hi : w.text ++ rest = w'.text ++ rest') :
    rest = rest' :=
  ((derivedBy_spells.spelled w).unique hform (derivedBy_spells.spelled w') hends hends' hi).2

end PacketWire.Element
