import PacketWire.ListValue.Parser
import PacketWire.Spelling.Values
import PacketWire.Proofs.Element.Slot
import PacketWire.Proofs.Resumable.Typed

namespace PacketWire.ListValue

open Scan Machine

/-!
# The units of a list

What is read behind the default type (`startsTyped`) is an element in its place (`slot`) or the end
(`step_elements_eq_emit_iff`). A list that comes whole makes one unit for each element (`units`);
the parts of a value that does not are joined (`joined`).
-/

variable {input text : Bytes} {elements : List Element} {e : Event} {t : State} {missing n : Nat}

/-! ### Parts -/

/-- A unit in front of others, where the parts of a value make one element, and no mark is kept
    whether the buffer ends behind it. -/
def Event.prepend : Event → List Event → List Event
  | element item _, es => element item false :: es
  | opening ty front length, piece value isLast :: es =>
    if isLast then element ⟨ty, front ++ value, true⟩ false :: es
    else opening ty (front ++ value) length :: es
  | piece front false, piece value isLast :: es => piece (front ++ value) isLast :: es
  | e, es => e :: es

/-- Units with the parts of each value joined. -/
def joined (es : List Event) : List Event := es.foldr Event.prepend []

/-- The units of a list, in front of its end. -/
def units (l : ListValue) : List Event :=
  typeUnits Event.type l.type ++ l.elements.map (.element · false)

/-- A default type is never in parts. -/
theorem joined_typeUnits {type : Bytes} {es : List Event} :
    joined (typeUnits Event.type type ++ es) = typeUnits Event.type type ++ joined es := by
  cases type <;> rfl

/-- The last part of a value is joined with nothing behind it. -/
theorem prepend_lastPiece {value : Bytes} {es : List Event} :
    Event.prepend (.piece value true) es = .piece value true :: es := by
  cases es <;> rfl

/-! ### Steps -/

/-- Elements stand behind a `|` each. -/
def slot : Element.Slot State Event Cause where
  form := form
  mark := Byte.pipe
  noMark := .noDelimiter
  stop := Byte.pipe
  whole := .element
  opening := .opening
  piece := .piece
  next := .elements
  within := .within
  delimiter_form := rfl
  bareType_form := rfl
  separates_form := by
    rintro d hd
    cases hd
    decide

/-- A list starts with a default type, or with what comes without it. -/
theorem startsTyped : machine.StartsTyped .type .elements .type scanElement where
  step_start _ := rfl
  step_next _ := rfl
  isFinal_unit _ := rfl

/-- Where there is a byte, an element is looked for in its place. -/
theorem scanElement_cons {b : UInt8} : scanElement (b :: input) = slot.scan (b :: input) := by
  rw [scanElement, peek?_bind]
  rfl

/-- The place of an element takes an element, or what there is of it, or the end. -/
theorem scanElement_eq_done_iff :
    scanElement input = .done (e, t) n ↔
      (input = [] ∧ e = .finish ∧ t = .elements ∧ n = 0) ∨
        ∃ text rest, slot.Unit text rest e t ∧ input = text ++ rest ∧ n = text.length := by
  constructor
  · intro h
    cases input with
    | nil =>
      cases h
      exact .inl ⟨rfl, rfl, rfl, rfl⟩
    | cons b input =>
      rw [scanElement_cons] at h
      exact .inr (Element.Slot.scan_eq_done_iff.1 h)
  · rintro (⟨rfl, rfl, rfl, rfl⟩ | ⟨text, rest, hunit, rfl, rfl⟩)
    · rfl
    · obtain ⟨tail, rfl⟩ := hunit.exists_mark
      rw [List.cons_append, scanElement_cons]
      exact Element.Slot.scan_eq_done_iff.2 ⟨_, rest, hunit, rfl, rfl⟩

/-- Where an element may come a unit is read just where one is spelled. -/
theorem step_elements_eq_emit_iff :
    machine.step .elements input = .emit e t n ↔
      (input = [] ∧ e = .finish ∧ t = .elements ∧ n = 0) ∨
        ∃ text rest, slot.Unit text rest e t ∧ input = text ++ rest ∧ n = text.length :=
  Step.ofScan_eq_emit_iff.trans scanElement_eq_done_iff

/-- A list has places of elements. -/
theorem hasSlot : machine.HasSlot slot .elements where
  step_here b input := by
    show Step.ofScan scanElement .elements (b :: input) = _
    rw [Step.ofScan, Step.ofScan, Step.andThen, Step.andThen, scanElement_cons]
  step_within _ _ := rfl
  isFinal_whole _ _ := rfl
  isFinal_opening _ _ _ := rfl
  isFinal_piece _ _ := rfl
  endsAt_next := ⟨.finish, .elements, 0, rfl, rfl⟩

/-- The parts of an element are joined to the element. -/
theorem joins_slot : slot.Joins Event.prepend where
  parts value value' es := by
    show Event.prepend (.piece value false) (Event.prepend (.piece value' true) es) = _
    rw [prepend_lastPiece]
    exact prepend_lastPiece.symm
  whole type value value' length isLast es := by
    show Event.prepend (.opening type value length) (Event.prepend (.piece value' true) es) = _
    rw [prepend_lastPiece]
    rfl

/-- An element ends where the next one starts. -/
theorem endsBefore_of_series (h : Series ItemSpelled elements text) :
    Element.EndsBefore (some Byte.pipe) text := by
  cases h with
  | nil => exact Element.endsBefore_nil
  | cons hitem =>
    cases hitem with
    | mk => exact Element.endsBefore_cons_iff.2 rfl

/-! ### What is taken -/

/-- An element takes no more than there is. -/
theorem isBounded_scanElement : scanElement.IsBounded where
  used_le h := by
    obtain ⟨rfl, -, -, rfl⟩ | ⟨text, rest, -, rfl, rfl⟩ := scanElement_eq_done_iff.1 h
    · exact Nat.le_refl 0
    · simp

/-- No step of a list takes more than there is. -/
theorem isBounded_machine : machine.IsBounded := by
  refine Machine.isBounded_of_used_le fun s input => ?_
  cases s with
  | type => exact Step.used_ofScan_le (isBounded_keywordOr isBounded_scanElement)
  | elements => exact Step.used_ofScan_le isBounded_scanElement
  | within missing => exact hasSlot.readsRest.used_le

end PacketWire.ListValue
