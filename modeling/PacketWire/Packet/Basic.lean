import PacketWire.Modifier
import PacketWire.Sendable

namespace PacketWire

/-!
# Packets

A packet consists of routing modifiers, a line with the length of the content, the content,
and a line that is just `|`. The length may be left out, and then the content ends at the first
line that is just `|`. The content is given by its fields, or raw, as a relay passes it on. A
packet without content and without length has no length line either.
-/

/-- The fields that content is made of. -/
structure Packet.Fields where
  /-- What is done to the entity state. -/
  state : StateAction := .none
  /-- The entity modifiers. -/
  entity : List Modifier.Framed := []
  /-- The method, a keyword; empty where there is none. -/
  method : Bytes := []
  /-- The data; empty without a method. -/
  data : Bytes := []
deriving DecidableEq, Repr

/-- The content of a packet. -/
inductive Packet.Content where
  /-- Content given by its fields. -/
  | fields (fields : Fields)
  /-- Content given by its bytes. -/
  | raw (bytes : Bytes)
deriving DecidableEq, Repr

/-- A packet that can be sent. -/
structure Packet where
  /-- The routing modifiers. -/
  routing : List Modifier
  /-- The content. -/
  content : Packet.Content
  /-- The length of the content is told. -/
  counted : Bool
deriving DecidableEq, Repr

namespace Packet

/-! ### Writing -/

/-- The line that closes a packet. -/
def closingLine : Bytes := [Byte.pipe, Byte.lineFeed]

/-- The size of the content, as told in the length line. -/
def Content.wireSize : Content → Nat
  | fields f =>
    totalSize Modifier.Framed.wireSize f.entity + (if f.state = .none then 0 else 2) +
      (if f.method.isEmpty then 0 else f.method.length + 1) +
      if f.data.isEmpty then 0 else f.data.length + 1
  | raw bytes => bytes.length

/-- The size of the routing header. -/
def routingSize (p : Packet) : Nat := totalSize (fun m => m.wireSize false) p.routing

/-- The size of the content. -/
def contentSize (p : Packet) : Nat := p.content.wireSize

/-- The packet has a length line. -/
def hasLengthLine (p : Packet) : Bool := p.counted || 0 < p.contentSize

/-- The size of the wire form. -/
def wireSize (p : Packet) : Nat :=
  p.routingSize + p.contentSize + 2 +
    (if p.counted then Decimal.width p.contentSize else 0) +
    if p.hasLengthLine then 1 else 0

/-- Writes the fields of content. -/
def Fields.write (f : Fields) : Write := do
  f.state.glyph?.forM fun glyph => do
    Write.byte glyph
    Write.byte Byte.lineFeed
  f.entity.forM Modifier.Framed.write
  Write.onlyIf (!f.method.isEmpty) do
    Write.put f.method
    Write.byte Byte.lineFeed
    Write.onlyIf (!f.data.isEmpty) do
      Write.put f.data
      Write.byte Byte.lineFeed

/-- Writes content. -/
def Content.write : Content → Write
  | fields f => f.write
  | raw bytes => Write.put bytes

/-- Writes a packet. -/
def write (p : Packet) : Write := do
  p.routing.forM fun m => m.write false
  Write.onlyIf p.counted (Write.number p.contentSize)
  Write.onlyIf p.hasLengthLine (Write.byte Byte.lineFeed)
  p.content.write
  Write.put closingLine

instance : Sendable Packet := ⟨wireSize, write⟩

end Packet

end PacketWire
