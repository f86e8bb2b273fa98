import PacketWire.Element.Basic

namespace PacketWire

/-!
# Keys

Dicts and paths are addressed by keys. A key is written in braces, and with its length as
`{length key}`.
-/

/-- A key, as it is sent or was received. -/
structure Key where
  /-- The key. -/
  value : Bytes
  /-- Its length is told. -/
  counted : Bool
deriving DecidableEq, Repr

namespace Key

/-! ### Building -/

/-- A key to be built. -/
structure Draft where
  /-- The key. -/
  value : Bytes
  /-- How its extent is to be told. -/
  framing : Framing := .automatic
deriving DecidableEq, Repr

/-- An element that is used as a key; a key has no type. -/
def Draft.ofElement (e : Element.Draft) : Draft := ⟨e.value, e.framing⟩

/-- The key has need of its length: as any value has, or because its first digits would be read
    as a length. -/
def wantsLength (key : Bytes) (thresholds : Thresholds) : Bool :=
  PacketWire.wantsLength key thresholds.element (some Byte.closeBrace) ||
    key.head?.any Byte.isDigit

/-- Decides whether the length is told. -/
def Draft.build (d : Draft) (thresholds : Thresholds) : Key :=
  ⟨d.value, d.framing.isCounted (wantsLength d.value thresholds)⟩

/-! ### Writing -/

/-- The length is written. That of an empty key never is. -/
def writesLength (k : Key) : Bool := k.counted && !k.value.isEmpty

/-- Writes a key in its braces. -/
def write (k : Key) : Write := do
  Write.byte Byte.openBrace
  Write.onlyIf k.writesLength do
    Write.number k.value.length
    Write.byte Byte.space
  Write.put k.value
  Write.byte Byte.closeBrace

/-- The size of a key in its braces. -/
def wireSize (k : Key) : Nat :=
  2 + (if k.writesLength then Decimal.width k.value.length + 1 else 0) + k.value.length

end Key

end PacketWire
