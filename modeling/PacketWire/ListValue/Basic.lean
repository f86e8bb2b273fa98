import PacketWire.Element.Basic
import PacketWire.Sendable

namespace PacketWire

/-!
# List values

A list is written as its default type, if it has one, and its elements with a `|` in front
of each.
-/

/-- A list, as it is sent or was received. -/
structure ListValue where
  /-- The type of the elements that have none of their own; empty where there is none. -/
  type : Bytes
  /-- The elements in order. -/
  elements : List Element
deriving DecidableEq, Repr

namespace ListValue

/-- Checks the types, and decides for each element whether its length is told. -/
def build (type : Bytes) (elements : List Element.Draft) (thresholds : Thresholds) :
    Except BuildError ListValue := do
  checkOptionalKeyword type
  return ⟨type, ← elements.mapM fun e => e.build thresholds (some Byte.pipe)⟩

/-- The size of the wire form. -/
def wireSize (l : ListValue) : Nat :=
  l.type.length + totalSize (fun e => 1 + e.wireSize) l.elements

/-- Writes a list. -/
def write (l : ListValue) : Write := do
  Write.put l.type
  l.elements.forM fun e => do
    Write.byte Byte.pipe
    e.write (some Byte.equalSign)

instance : Sendable ListValue := ⟨wireSize, write⟩

end ListValue

end PacketWire
