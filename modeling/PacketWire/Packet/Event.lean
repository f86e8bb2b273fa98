import PacketWire.Fault
import PacketWire.Modifier

namespace PacketWire.Packet

/-!
# Units of packets

What a packet parser reports. Values with a length are reported in parts where the buffer ends
inside them.
-/

/-- What is wrong with a packet. -/
inductive Cause where
  /-- There is no name after an operator. -/
  | namelessModifier
  /-- The length line holds something else than digits. -/
  | badLengthLine
  /-- The length of a modifier is no number. -/
  | badValueLength
  /-- The name of a modifier is followed by neither tab, line feed nor length. -/
  | noTab
  /-- A modifier with a length does not end with a line feed. -/
  | unendedModifier
  /-- The method does not end with a line feed. -/
  | unendedMethod
  /-- Data with a length does not end with a line feed. -/
  | unendedData
  /-- The first line of the content is an operator that is no state action. -/
  | noStateAction (glyph : UInt8)
  /-- The content has another length than was told. -/
  | lengthMismatch (announced actual : Nat)
  /-- The packet is not closed by `|` and a line feed. -/
  | badClosingLine
deriving DecidableEq, Repr

instance : Describe Cause where
  message
    | .namelessModifier => located "modifier without a name"
    | .badLengthLine => located "invalid content length"
    | .badValueLength => located "invalid modifier value length"
    | .noTab => located "missing tab before modifier value"
    | .unendedModifier => located "missing newline after modifier"
    | .unendedMethod => located "missing newline after method"
    | .unendedData => located "missing newline after body data"
    | .noStateAction glyph =>
      located ("invalid state operation '" ++ (Char.ofNat glyph.toNat).toString ++ "'")
    | .lengthMismatch announced actual => fun _ =>
      "content length mismatch: announced " ++ toString announced ++ " bytes, parsed " ++
        toString actual
    | .badClosingLine => located "invalid packet delimiter"

/-- The values that may come in parts. -/
inductive Slot where
  /-- The value of an entity modifier. -/
  | entity
  /-- The data. -/
  | body
  /-- Raw content. -/
  | content
deriving DecidableEq, Repr

/-- A unit of a packet. -/
inductive Event where
  /-- A routing modifier. -/
  | routing (modifier : Modifier)
  /-- The entity state is forgotten. -/
  | stateReset
  /-- The entity state is asked for. -/
  | stateResync
  /-- An entity modifier. -/
  | entity (modifier : Modifier)
  /-- An entity modifier with the first part of its value, which has `length` bytes. -/
  | entityOpening (modifier : Modifier) (length : Nat)
  /-- The method and the data. -/
  | body (method data : Bytes)
  /-- The method and the first part of the data, which has `length` bytes. -/
  | bodyOpening (method data : Bytes) (length : Nat)
  /-- Raw content. -/
  | content (bytes : Bytes)
  /-- The first part of raw content of `length` bytes. -/
  | contentOpening (bytes : Bytes) (length : Nat)
  /-- A further part of a value; `isLast` tells that the value is complete. -/
  | piece (slot : Slot) (bytes : Bytes) (isLast : Bool)
  /-- The end of the packet. -/
  | complete
deriving DecidableEq, Repr

end PacketWire.Packet
