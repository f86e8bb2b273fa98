import PacketWire.Proofs.Checks
import PacketWire.Proofs.Element.Whole
import PacketWire.WireForm

namespace PacketWire.Element

/-!
# The wire form of an element

What an element is written as is a way to write it (`spelled_wire`), if it has its length told
wherever its value holds the delimiter. An element that breaks this rule is not read back, whatever
stands behind it (`isSafe_of_spelled`). The length of an empty value is told by no writer, so what
is read back is the element as it was written (`Element.written`).
-/

variable {e e' : Element} {d : Draft} {t : Thresholds} {delimiter : Option UInt8} {b : UInt8}
  {type text rest rest' : Bytes} {κ : Type} {form : Form κ}

/-- The element as its wire form tells it: the length of an empty value is not told. -/
def written (e : Element) : Element := { e with counted := e.writesLength }

/-- The type and the value, whether or not the length is told. -/
def content (e : Element) : Bytes × Bytes := (e.type, e.value)

/-- The mark of an empty value is no part of what an element says. -/
@[simp] theorem content_written : e.written.content = e.content := rfl

/-- A value that is written without its length does not hold the delimiter. -/
def IsSafe (delimiter : Option UInt8) (e : Element) : Prop :=
  e.counted = false → ∀ d, delimiter = some d → d ∉ e.value

/-- With a delimiter, a value without a length must not hold it. -/
theorem isSafe_some_iff : e.IsSafe (some b) ↔ (e.counted = false → b ∉ e.value) := by
  simp [IsSafe]

/-- The type of an element that is built is a keyword, if there is one. -/
theorem type_of_build (h : d.build t delimiter = .ok e) : e.type = [] ∨ isKeyword e.type := by
  obtain ⟨_, hcheck, hmade⟩ := Except.bind_eq_ok_iff.1 h
  cases hmade
  exact checkOptionalKeyword_eq_ok_iff.1 hcheck

/-- A value is no longer than what is written of it. -/
theorem length_value_le_valueWireSize : e.value.length ≤ e.valueWireSize := by
  have hvalue : e.value.length ≤ if e.value.isEmpty then 0 else 1 + e.value.length := by
    cases e.value with
    | nil => exact Nat.le_refl 0
    | cons b value => exact Nat.le_add_left _ 1
  rw [valueWireSize]
  omega

/-- An element is at least as long as its value. -/
theorem length_value_le : e.value.length ≤ e.wireSize :=
  Nat.le_trans length_value_le_valueWireSize (Nat.le_add_left ..)

/-! ### Types -/

/-- A type is marked, if there is one. -/
def typeWire (type : Bytes) : Bytes := if type.isEmpty then [] else Byte.equalSign :: type

/-- An element is written as its type and its value. -/
theorem wire_eq : e.wire = typeWire e.type ++ e.valueWire := rfl

/-- A type that is there is written behind a `=`. -/
theorem typeWire_of_isKeyword (htype : isKeyword type) :
    typeWire type = Byte.equalSign :: type :=
  if_neg (by simpa using (isKeyword_iff.1 htype).1)

/-! ### Values -/

/-- A value is written in one of the ways to write it. -/
theorem valueSpelling_wire (hlength : e.value.length < Decimal.bound) (hsafe : e.IsSafe delimiter) :
    ValueSpelling delimiter e.value e.writesLength e.valueWire := by
  obtain ⟨type, value, counted⟩ := e
  rw [valueWire, writesLength]
  cases value with
  | nil =>
    rw [List.isEmpty_nil, Bool.not_true, Bool.and_false]
    exact .absent
  | cons b value =>
    rw [List.isEmpty_cons, Bool.not_false, Bool.and_true]
    cases counted with
    | true => exact .counted (Decimal.numeral_digits hlength)
    | false => exact .delimited (hsafe rfl)

/-! ### Elements -/

/-- A safe element is written in one of the ways to write it. -/
theorem spelled_wire (htype : e.type = [] ∨ isKeyword e.type)
    (hlength : e.value.length < Decimal.bound) (hsafe : e.IsSafe delimiter) :
    e.written.Spelled delimiter e.wire := by
  have hvalue := valueSpelling_wire hlength hsafe
  rcases htype with hnil | htype
  · have huntyped := Spelled.untyped hvalue
    rw [← hnil] at huntyped
    rw [wire_eq, typeWire, hnil]
    exact huntyped
  · rw [wire_eq, typeWire_of_isKeyword htype]
    exact .typed htype hvalue

/-- What is written for an element of the same type is told apart in its value. -/
theorem Spelled.exists_valueSpelling (h : e'.Spelled delimiter text) :
    ∃ valueText, ValueSpelling delimiter e'.value e'.counted valueText ∧
      text = typeWire e'.type ++ valueText := by
  cases h with
  | untyped hvalue => exact ⟨_, hvalue, rfl⟩
  | typed htype hvalue =>
    refine ⟨_, hvalue, ?_⟩
    rw [typeWire_of_isKeyword htype]

/-- An element of the same type and value is found at the start of a wire form only if it is the
    wire form of a safe element. -/
theorem isSafe_of_spelled (h : e'.Spelled delimiter text) (hcontent : e'.content = e.content)
    (hi : text ++ rest = e.wire ++ rest') : e.IsSafe delimiter := by
  intro hcounted d hd hmem
  obtain ⟨type, value, counted⟩ := e
  obtain ⟨type', value', counted'⟩ := e'
  cases hcontent
  cases hcounted
  change d ∈ value at hmem
  obtain ⟨valueText, hvalue, rfl⟩ := h.exists_valueSpelling
  rw [wire_eq, List.append_assoc, List.append_assoc] at hi
  have hbehind := List.append_cancel_left hi
  -- the value is there without its length, so a space comes first
  have hwire : valueWire ⟨type, value, false⟩ = Byte.space :: value :=
    if_neg (by simpa using List.ne_nil_of_mem hmem)
  rw [hwire] at hbehind
  cases hvalue with
  | absent => cases hmem
  | delimited hnot => exact hnot d hd hmem
  | zero => cases hmem
  | counted => exact absurd (List.cons.inj hbehind).1 (by decide)

/-- An element of the same type and value at the start of a wire form is all of it, if both end in
    front of a delimiter. -/
theorem eq_of_spelled (hform : form.Separates) (hmarked : form.bareType = false)
    (htype : e.type = [] ∨ isKeyword e.type) (hlength : e.value.length < Decimal.bound)
    (h : e'.Spelled form.delimiter text) (hcontent : e'.content = e.content)
    (hends : EndsBefore form.delimiter rest) (hends' : EndsBefore form.delimiter rest')
    (hi : text ++ rest = e.wire ++ rest') :
    e.IsSafe form.delimiter ∧ e' = e.written ∧ rest = rest' := by
  have hsafe := isSafe_of_spelled h hcontent hi
  have hwire := spelled_wire htype hlength hsafe
  rw [← spells_iff_spelled hmarked] at h hwire
  obtain ⟨helement, hrest⟩ := h.unique hform hwire hends hends' hi
  exact ⟨hsafe, helement, hrest⟩

end PacketWire.Element
