namespace PacketWire

/-!
# What a packet parser parses

A relay needs only the routing header and passes the content on as it came; an end point
parses everything; and content that a relay has passed on can be parsed by itself.
-/

/-- The bits by which a mode is asked for. -/
structure ModeBits where
  /-- The bits; bits beyond those named here mean nothing. -/
  bits : UInt8 := 0
deriving DecidableEq, Repr

namespace ModeBits

/-- Parse only the routing header. -/
abbrev routingOnlyBit : UInt8 := 1

/-- Start at the content; wins over `routingOnlyBit`. -/
abbrev startAtContentBit : UInt8 := 2

/-- The bits that have a meaning, of those given. -/
def ofNat (bits : Nat) : ModeBits := ⟨bits.toUInt8 &&& 3⟩

/-- Parsing starts at the content. -/
def startAtContent (m : ModeBits) : Bool := m.bits &&& startAtContentBit == startAtContentBit

/-- Only the routing header is parsed. -/
def routingOnly (m : ModeBits) : Bool :=
  m.bits &&& routingOnlyBit == routingOnlyBit && !m.startAtContent

end ModeBits

/-- What a packet parser parses. -/
inductive Mode where
  /-- Whole packets. -/
  | whole
  /-- Whole packets, the content of which is passed on raw. -/
  | routingOnly
  /-- Content of a known length, without header, length line and closing line. -/
  | contentOnly (length : Nat)
deriving DecidableEq, Repr

namespace Mode

/-- The mode of a parser for whole packets. Such a parser does not start at the content,
    whatever the bits say, because only `contentOnly` knows the length of the content. -/
def ofBits (m : ModeBits) : Mode :=
  if m.bits &&& ModeBits.routingOnlyBit == ModeBits.routingOnlyBit then .routingOnly else .whole

/-- The bits that describe a mode. -/
def toBits : Mode → ModeBits
  | whole => ⟨0⟩
  | routingOnly => ⟨ModeBits.routingOnlyBit⟩
  | contentOnly _ => ⟨ModeBits.startAtContentBit⟩

/-- The length of the content where the mode fixes it. -/
def fixedLength? : Mode → Option Nat
  | contentOnly length => some length
  | _ => none

end Mode

end PacketWire
