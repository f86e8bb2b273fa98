import PacketWire.BuildError
import PacketWire.Decimal
import PacketWire.Operator
import PacketWire.Thresholds
import PacketWire.Writer

namespace PacketWire

/-!
# Modifiers

A modifier is a line that does something to a variable. Its value ends with the line; if its
length is told after the name, the value may hold any bytes. Routing modifiers come in the
header of a packet and never have a length; entity modifiers come in the content.
-/

/-- An operator, a variable, and a value for it. -/
structure Modifier where
  /-- What is done. -/
  oper : Operator
  /-- The name of the variable, a keyword. -/
  name : Bytes
  /-- The value. -/
  value : Bytes
deriving DecidableEq, Repr

namespace Modifier

/-- A modifier, with the decision whether its length is told. -/
structure Framed where
  /-- The modifier. -/
  modifier : Modifier
  /-- Its length is told. -/
  counted : Bool
deriving DecidableEq, Repr

/-- The part of a packet that a modifier is meant for. -/
inductive Kind where
  /-- The routing header. -/
  | routing
  /-- The content, with the sender's choice on the length. -/
  | entity (framing : Framing)
deriving DecidableEq, Repr

/-- A modifier to be built into a packet. -/
structure Draft where
  /-- The modifier. -/
  modifier : Modifier
  /-- What it is meant for. -/
  kind : Kind
deriving DecidableEq, Repr

/-! ### Writing -/

/-- Writes a modifier. -/
def write (m : Modifier) (counted : Bool) : Write := do
  Write.byte m.oper.glyph
  Write.put m.name
  Write.onlyIf counted do
    Write.byte Byte.space
    Write.number m.value.length
  Write.byte Byte.tab
  Write.put m.value
  Write.byte Byte.lineFeed

/-- The size of the wire form. -/
def wireSize (m : Modifier) (counted : Bool) : Nat :=
  m.name.length + m.value.length + 3 +
    if counted then 1 + Decimal.width m.value.length else 0

/-- Writes a modifier whose length has been decided on. -/
def Framed.write (f : Framed) : Write := f.modifier.write f.counted

/-- The size of the wire form. -/
def Framed.wireSize (f : Framed) : Nat := f.modifier.wireSize f.counted

/-! ### Building -/

/-- The length is told already, before anything is decided. -/
def Draft.isCounted (d : Draft) : Bool := d.kind == .entity .counted

/-- The size that the wire form has if nothing else is decided. -/
def Draft.wireSize (d : Draft) : Nat := d.modifier.wireSize d.isCounted

/-- The name is there, and is a keyword. -/
def checkName (m : Modifier) : Except BuildError Unit :=
  if m.name.isEmpty then .error .namelessModifier else checkKeyword m.name

/-- Checks a modifier for the routing header. -/
def Draft.buildRouting (d : Draft) : Except BuildError Modifier := do
  d.modifier.checkName
  if d.modifier.value.contains Byte.lineFeed then .error (.lineFeedInRouting d.modifier.name)
  else return d.modifier

/-- The choice on the length that a modifier brings into the content; one that was meant for
    the routing header brings none. -/
def Kind.framing : Kind → Framing
  | routing => .automatic
  | entity framing => framing

/-- Checks a modifier for the content, and decides whether its length is told. -/
def Draft.buildEntity (d : Draft) (thresholds : Thresholds) : Except BuildError Framed := do
  d.modifier.checkName
  let need := wantsLength d.modifier.value thresholds.modifier (some Byte.lineFeed)
  return ⟨d.modifier, d.kind.framing.isCounted need⟩

end Modifier

end PacketWire
