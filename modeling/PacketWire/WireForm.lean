import PacketWire.DictValue.Basic
import PacketWire.ListValue.Basic
import PacketWire.Packet.Basic
import PacketWire.Update.Basic

namespace PacketWire

/-!
# Wire forms

The bytes that a thing is sent as, told at once: what stands behind what, without regard to how it
is written piece by piece, or to the sizes that are computed for it. Nothing that runs makes use of
the wire forms; they say what rendering is to come to (`Sendable.RendersExactly`).
-/

/-! ### Modifiers -/

namespace Modifier

/-- The wire form of a modifier with or without its length. -/
def wire (m : Modifier) (counted : Bool) : Bytes :=
  m.oper.glyph :: m.name ++
    (if counted then Byte.space :: Decimal.digits m.value.length else []) ++
    Byte.tab :: m.value ++ [Byte.lineFeed]

/-- The wire form of a modifier whose length has been decided on. -/
def Framed.wire (f : Framed) : Bytes := f.modifier.wire f.counted

end Modifier

/-! ### Elements and keys -/

namespace Element

/-- The length and the value, `:length value`. -/
def valueWire (e : Element) : Bytes :=
  (if e.writesLength then Byte.colon :: Decimal.digits e.value.length else []) ++
    if e.value.isEmpty then [] else Byte.space :: e.value

/-- An element of a list or dict, its type after `=`. -/
def wire (e : Element) : Bytes :=
  (if e.type.isEmpty then [] else Byte.equalSign :: e.type) ++ e.valueWire

/-- The operand of an update, its type bare. -/
def operandWire (e : Element) : Bytes := e.type ++ e.valueWire

end Element

/-- A key in its braces. -/
def Key.wire (k : Key) : Bytes :=
  Byte.openBrace ::
    (if k.writesLength then Decimal.digits k.value.length ++ [Byte.space] else []) ++
      k.value ++ [Byte.closeBrace]

/-! ### Values -/

/-- The wire form of a list. -/
def ListValue.wire (l : ListValue) : Bytes :=
  l.type ++ l.elements.flatMap fun e => Byte.pipe :: e.wire

/-- The wire form of an entry. -/
def DictValue.Entry.wire (e : Entry) : Bytes := e.key.wire ++ e.value.wire

/-- The wire form of a dict. -/
def DictValue.wire (d : DictValue) : Bytes := d.type ++ d.entries.flatMap Entry.wire

/-- The wire form of a step. -/
def Path.Segment.wire : Segment → Bytes
  | index n => Byte.hash :: Decimal.digits n.toNat
  | field name => Byte.dot :: Byte.underscore :: name
  | key k => k.wire

/-- The wire form of a path. -/
def Path.wire (p : Path) : Bytes := p.segments.flatMap Segment.wire

/-- The wire form of an update. -/
def Update.wire (u : Update) : Bytes :=
  u.path.wire ++ (if u.path.isEmpty then [] else [Byte.space]) ++ [u.oper.glyph] ++
    u.operand.operandWire

/-! ### Packets -/

namespace Packet

/-- The line of a state action. -/
def stateWire (state : StateAction) : Bytes :=
  match state.glyph? with
  | some glyph => [glyph, Byte.lineFeed]
  | none => []

/-- The method on a line of its own, and the data, which a line feed ends. -/
def bodyWire (method data : Bytes) : Bytes :=
  if method.isEmpty then []
  else method ++ Byte.lineFeed :: if data.isEmpty then [] else data ++ [Byte.lineFeed]

/-- The bytes that fields are sent as. -/
def Fields.wire (f : Fields) : Bytes :=
  stateWire f.state ++ f.entity.flatMap Modifier.Framed.wire ++ bodyWire f.method f.data

/-- The bytes that content is sent as. -/
def Content.wire : Content → Bytes
  | fields f => f.wire
  | raw bytes => bytes

/-- The wire form of a packet. -/
def wire (p : Packet) : Bytes :=
  p.routing.flatMap (fun m => m.wire false) ++
    (if p.counted then Decimal.digits p.contentSize else []) ++
    (if p.hasLengthLine then [Byte.lineFeed] else []) ++
    p.content.wire ++ closingLine

end Packet

/-! ### What a sender sees -/

namespace Sendable

variable {α : Type} [Sendable α]

/-- What becomes of a buffer to whose start `bytes` are written, and the number of bytes written. A
    buffer that is too short stays as it is. -/
def writtenTo (bytes buffer : Bytes) : Except ShortBuffer Nat × Bytes :=
  if buffer.length < bytes.length then (.error ⟨bytes.length, buffer.length⟩, buffer)
  else (.ok bytes.length, bytes ++ buffer.drop bytes.length)

/-- Rendering goes as a sender sees it who is to send `bytes`. -/
structure RendersExactly (a : α) (bytes : Bytes) : Prop where
  /-- The computed size is the number of bytes. -/
  length : bytes.length = wireSize a
  /-- A slice of this size is filled to its end, and no byte is written beyond. -/
  fills : ∀ slice : Bytes, slice.length = wireSize a →
    (write a).run ⟨slice, 0⟩ = some ((), ⟨bytes, wireSize a⟩)
  /-- A buffer is refused, and stays as it is, if and only if it is too short. -/
  refuses : ∀ buffer : Bytes,
    render a buffer = some (.error ⟨wireSize a, buffer.length⟩, buffer) ↔
      buffer.length < wireSize a
  /-- Any other buffer starts with the bytes afterwards, and is the same behind them. -/
  renders : ∀ buffer : Bytes, render a buffer = some (writtenTo bytes buffer)
  /-- The bytes are appended to what is there. -/
  encodes : ∀ sent : Bytes, encode a sent = some (sent ++ bytes)
  /-- The bytes are what comes into a buffer of its own. -/
  toBytes : toBytes a = some bytes

end Sendable

end PacketWire
