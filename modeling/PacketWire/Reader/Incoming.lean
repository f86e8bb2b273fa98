import PacketWire.Received

namespace PacketWire

/-!
# Packets that are coming in

A packet is put together from the units that the parser reports. A value that comes in parts is
collected until it is complete, and then takes the place that was kept for it.
-/

/-- A value that is coming in parts. -/
structure OpenValue where
  /-- Where it belongs. -/
  slot : Packet.Slot
  /-- How long it will be. -/
  length : Nat
  /-- What has come of it. -/
  bytes : Bytes
deriving DecidableEq, Repr

/-- A packet that is coming in. -/
structure Incoming where
  /-- What is known of it. -/
  packet : Received := {}
  /-- The value that is coming in parts, if there is one. -/
  value : Option OpenValue := none
deriving DecidableEq, Repr

namespace Incoming

/-- Notes more of the value that is coming in parts, and puts it into its place when it is
    complete. -/
def extend (a : Incoming) (bytes : Bytes) (isLast : Bool) : Incoming :=
  match a.value with
  | none => a
  | some v =>
    let v := { v with bytes := v.bytes ++ bytes }
    if isLast then ⟨a.packet.fill v.slot v.bytes, none⟩ else { a with value := some v }

/-- Notes a unit of the packet. -/
def apply (a : Incoming) : Packet.Event → Incoming
  | .routing m => { a with packet.routing := a.packet.routing ++ [m] }
  | .stateReset => { a with packet.state := .reset }
  | .stateResync => { a with packet.state := .resync }
  | .entity m => { a with packet.entity := a.packet.entity ++ [m] }
  | .entityOpening m length =>
    { packet := { a.packet with entity := a.packet.entity ++ [{ m with value := [] }] }
      value := some ⟨.entity, length, m.value⟩ }
  | .body method data => { a with packet.method := method, packet.data := data }
  | .bodyOpening method data length =>
    { packet := { a.packet with method }, value := some ⟨.body, length, data⟩ }
  | .content bytes => { a with packet.content := bytes }
  | .contentOpening bytes length => { a with value := some ⟨.content, length, bytes⟩ }
  | .piece _ bytes isLast => a.extend bytes isLast
  | .complete => a

end Incoming

end PacketWire
