import PacketWire.Operator
import PacketWire.Path.Basic

namespace PacketWire

/-!
# Updates

An update changes a structured value at the end of a path. It is written as the path, an
operator, and an operand; a space stands between path and operator, and the type of the
operand has no `=` in front.
-/

/-- An update, as it is sent or was received. -/
structure Update where
  /-- Where the value is changed. -/
  path : Path
  /-- What is done there. -/
  oper : Operator
  /-- With what. -/
  operand : Element
deriving DecidableEq, Repr

namespace Update

/-- Checks the type of the operand, and decides whether its length is told. Nothing can follow
    an operand, so it needs its length only if it is long. -/
def build (path : Path) (oper : Operator) (operand : Element.Draft)
    (thresholds : Thresholds) : Except BuildError Update := do
  return ⟨path, oper, ← operand.build thresholds none⟩

/-- The size of the wire form. -/
def wireSize (u : Update) : Nat :=
  u.path.wireSize + (if u.path.isEmpty then 0 else 1) + 1 + u.operand.operandWireSize

/-- Writes an update. -/
def write (u : Update) : Write := do
  u.path.write
  Write.onlyIf (!u.path.isEmpty) (Write.byte Byte.space)
  Write.byte u.oper.glyph
  u.operand.write none

instance : Sendable Update := ⟨wireSize, write⟩

end Update

end PacketWire
