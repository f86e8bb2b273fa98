import PacketWire.Packet.Draft
import PacketWire.Packet.Event

namespace PacketWire

/-!
# Received packets

What a reader makes of a packet. It can be looked into, and it can be sent on: then all decisions
on lengths are made anew.
-/

/-- A packet that was received. A reader that reads only the routing header fills in `content`
    instead of the fields from `state` to `data`. -/
structure Received where
  /-- The routing modifiers in order. -/
  routing : List Modifier := []
  /-- What is done to the entity state. -/
  state : StateAction := .none
  /-- The entity modifiers in order. -/
  entity : List Modifier := []
  /-- The method; empty where there is none. -/
  method : Bytes := []
  /-- The data. -/
  data : Bytes := []
  /-- The raw content. -/
  content : Bytes := []
deriving DecidableEq, Repr

/-- The packet as its receiver sees it. -/
def Packet.received (p : Packet) : Received :=
  match p.content with
  | .fields f =>
    { routing := p.routing, state := f.state, entity := f.entity.map Modifier.Framed.modifier,
      method := f.method, data := f.data }
  | .raw bytes => { routing := p.routing, content := bytes }

namespace Received

/-- The value of the first modifier with a given name. -/
def valueOf? (modifiers : List Modifier) (name : Bytes) : Option Bytes :=
  (modifiers.find? fun m => m.name == name).map Modifier.value

/-- The value of a variable in the routing header. -/
def routingValue? (p : Received) (name : Bytes) : Option Bytes := valueOf? p.routing name

/-- The value of an entity variable. -/
def entityValue? (p : Received) (name : Bytes) : Option Bytes := valueOf? p.entity name

/-- The unit that reports a state action. -/
def stateUnits : StateAction → List Packet.Event
  | .none => []
  | .reset => [.stateReset]
  | .resync => [.stateResync]

/-- The units that the packet is reported in before its end, if no value comes in parts. -/
def units (p : Received) : List Packet.Event :=
  p.routing.map .routing ++ stateUnits p.state ++ p.entity.map .entity ++
    (if p.method.isEmpty then [] else [.body p.method p.data]) ++
    if p.content.isEmpty then [] else [.content p.content]

/-- A draft of the same packet, with every decision on lengths left open. -/
def toDraft (p : Received) : Packet.Draft where
  routing := p.routing.map fun m => ⟨m, .routing⟩
  entity := p.entity.map fun m => ⟨m, .entity .automatic⟩
  state := p.state
  method := p.method
  data := p.data
  content := if p.content.isEmpty then none else some p.content

/-- The same packet, to be sent on. -/
def rebuild (p : Received) (thresholds : Thresholds) : Except BuildError Packet :=
  p.toDraft.build thresholds

/-- What is said of a packet that cannot be sent on. -/
def rebuildMessage (e : BuildError) : String := "cannot rebuild packet: " ++ e.message

/-- Gives the last entity modifier its value. -/
def setLastValue (p : Received) (value : Bytes) : Received :=
  match p.entity.getLast? with
  | some m => { p with entity := p.entity.dropLast ++ [{ m with value }] }
  | none => p

/-- Puts a value into its place. -/
def fill (p : Received) (slot : Packet.Slot) (value : Bytes) : Received :=
  match slot with
  | .entity => p.setLastValue value
  | .body => { p with data := value }
  | .content => { p with content := value }

end Received

end PacketWire
