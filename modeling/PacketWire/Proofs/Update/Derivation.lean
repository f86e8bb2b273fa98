import PacketWire.Proofs.Element.Derivation
import PacketWire.Proofs.Path.Derivation
import PacketWire.Proofs.Update.Accepts

namespace PacketWire.Update

open Scan

/-!
# Derivations of updates

A derivation of an update is one of its path, its operator, with a space in front or without, and a
derivation of its operand (`derivedBy_spelled`).
-/

/-- A way to write an update. -/
structure Derivation where
  /-- The path. -/
  path : Path.Derivation
  /-- A space stands in front of the operator. -/
  spaced : Bool
  /-- The operator. -/
  oper : Operator
  /-- The operand: its type stands bare, and nothing ends it but the end of the update. -/
  operand : Element.Derivation true none

/-- What is written between the path and the operator. -/
def gapText (spaced : Bool) : Bytes := if spaced then [Byte.space] else []

namespace Derivation

/-- What is written. -/
def text (w : Derivation) : Bytes :=
  w.path.text ++ gapText w.spaced ++ w.oper.glyph :: w.operand.text

/-- The update. -/
def update (w : Derivation) : Update := ⟨w.path.path, w.oper, w.operand.element⟩

end Derivation

variable {w : Derivation}

theorem isGap_gapText {spaced : Bool} : IsGap (gapText spaced) := by
  cases spaced with
  | false => exact .inl rfl
  | true => exact .inr rfl

/-- The operator stands where no name or number goes on, behind any steps. -/
theorem Derivation.stops (ws : List Path.Segment.Derivation) :
    Stops Byte.isKeyword
      (ws.flatMap Path.Segment.Derivation.text ++
        (gapText w.spaced ++ w.oper.glyph :: w.operand.text)) :=
  (Path.Segment.Derivation.stops ws).append (keywordStops_of_isGap isGap_gapText)

/-- A space is no operator. -/
theorem gapText_inj {spaced spaced' : Bool} {text text' : Bytes} {oper : Operator}
    (h : gapText spaced ++ oper.glyph :: text = gapText spaced' ++ oper.glyph :: text') :
    spaced = spaced' ∧ text = text' := by
  have hspace : oper.glyph ≠ Byte.space := by cases oper <;> decide
  cases spaced with
  | false =>
    cases spaced' with
    | false => exact ⟨rfl, (List.cons.inj h).2⟩
    | true => exact absurd (List.cons.inj h).1 hspace
  | true =>
    cases spaced' with
    | false => exact absurd (List.cons.inj h).1.symm hspace
    | true => exact ⟨rfl, (List.cons.inj (List.cons.inj h).2).2⟩

theorem derivedBy_spelled : DerivedBy Spelled Derivation.text Derivation.update := by
  have hoperand : DerivedBy Element.OperandSpelled
      (Element.Derivation.text : Element.Derivation true none → Bytes)
      Element.Derivation.element :=
    (@Element.derivedBy_spells _ form).congr (Element.spells_iff_operandSpelled rfl rfl)
  constructor
  · intro update line
    constructor
    · intro h
      cases h with
      | @mk path oper operand pathText gap operandText hpath hgap htext =>
        obtain ⟨path, rfl, rfl⟩ := Path.derivedBy_spelled.spelled_iff.1 hpath
        obtain ⟨operand, rfl, rfl⟩ := hoperand.spelled_iff.1 htext
        obtain rfl | rfl := hgap
        · exact ⟨⟨path, false, oper, operand⟩, rfl, rfl⟩
        · exact ⟨⟨path, true, oper, operand⟩, rfl, rfl⟩
    · rintro ⟨w, rfl, rfl⟩
      exact .mk (Path.derivedBy_spelled.spelled w.path) isGap_gapText
        (hoperand.spelled w.operand)
  · rintro ⟨path, spaced, oper, operand⟩ ⟨path', spaced', oper', operand'⟩ htext hupdate
    obtain ⟨hpath, hopers, hoperands⟩ := Update.mk.inj hupdate
    obtain rfl : oper = oper' := hopers
    rw [Derivation.text, Derivation.text, List.append_assoc, List.append_assoc] at htext
    -- the paths are the same, and so is what stands behind them
    obtain ⟨hsegments, hbehind⟩ := Path.derivedBy_segmentSpelled.eq_of_flatMap
      (fun _ => Path.Segment.Derivation.rest_eq) Derivation.stops Derivation.stops
      (Path.mk.inj hpath) htext
    obtain rfl : path = path' := congrArg Path.Derivation.mk hsegments
    obtain ⟨rfl, htexts⟩ := gapText_inj hbehind
    obtain rfl := hoperand.eq_of_eq htexts hoperands
    rfl

end PacketWire.Update
