import PacketWire.BuildError
import PacketWire.Decimal
import PacketWire.Thresholds
import PacketWire.Writer

namespace PacketWire

/-!
# Elements

Lists, dicts and updates are made of elements, values with an optional type. An element is
written as `=type:length value`, where each of the three may be missing; the operand of an update
is an element whose type stands bare, without the `=`.
-/

/-- A value with its type, as it is sent or was received. -/
structure Element where
  /-- The type, a keyword; empty for the default type. -/
  type : Bytes
  /-- The value. -/
  value : Bytes
  /-- Its length is told. -/
  counted : Bool
deriving DecidableEq, Repr

namespace Element

/-! ### Building -/

/-- An element to be built. -/
structure Draft where
  /-- The type; empty for the default type. -/
  type : Bytes := []
  /-- The value. -/
  value : Bytes
  /-- How its extent is to be told. -/
  framing : Framing := .automatic
deriving DecidableEq, Repr

/-- Checks the type, and decides whether the length is told; `delimiter` is what ends the
    element where it is not. -/
def Draft.build (d : Draft) (thresholds : Thresholds) (delimiter : Option UInt8) :
    Except BuildError Element := do
  checkOptionalKeyword d.type
  let need := wantsLength d.value thresholds.element delimiter
  return ⟨d.type, d.value, d.framing.isCounted need⟩

/-! ### Writing -/

/-- The length is written. That of an empty value never is. -/
def writesLength (e : Element) : Bool := e.counted && !e.value.isEmpty

/-- The size of the length and the value. -/
def valueWireSize (e : Element) : Nat :=
  (if e.writesLength then 1 + Decimal.width e.value.length else 0) +
    if e.value.isEmpty then 0 else 1 + e.value.length

/-- The size of an element of a list or dict. -/
def wireSize (e : Element) : Nat :=
  (if e.type.isEmpty then 0 else 1 + e.type.length) + e.valueWireSize

/-- The size of the operand of an update. -/
def operandWireSize (e : Element) : Nat := e.type.length + e.valueWireSize

/-- Writes an element, its type behind the mark, if there is one. -/
def write (e : Element) (mark : Option UInt8) : Write := do
  Write.onlyIf (!e.type.isEmpty) do
    mark.forM Write.byte
    Write.put e.type
  Write.onlyIf e.writesLength do
    Write.byte Byte.colon
    Write.number e.value.length
  Write.onlyIf (!e.value.isEmpty) do
    Write.byte Byte.space
    Write.put e.value

end Element

end PacketWire
