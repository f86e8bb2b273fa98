import PacketWire.Packet.Basic

namespace PacketWire.Packet

/-!
# Building packets

A packet is built from a draft, which is checked first. Where the draft leaves it open, the
length of the content is told if the content is long, if an entity modifier needs its length,
or if the receiver could take a part of the content for the closing line.
-/

/-- A packet to be built. -/
structure Draft where
  /-- The routing modifiers. -/
  routing : List Modifier.Draft := []
  /-- The entity modifiers. -/
  entity : List Modifier.Draft := []
  /-- What is done to the entity state. -/
  state : StateAction := .none
  /-- The method; empty where there is none. -/
  method : Bytes := []
  /-- The data. -/
  data : Bytes := []
  /-- Raw content, to be sent in place of the fields above from `entity` on. -/
  content : Option Bytes := none
  /-- How the extent of the content is to be told. -/
  framing : Framing := .automatic
deriving DecidableEq, Repr

/-- The last line of a body, or one before it, could be taken for the closing line. -/
def mimicsClosingLine (body : Bytes) : Bool :=
  body == [Byte.pipe] || [Byte.lineFeed, Byte.pipe].isSuffixOf body ||
    Bytes.holds closingLine body

/-- The content has need of its length. -/
def Content.wantsLength (thresholds : Thresholds) : Content → Bool
  | fields f =>
    f.entity.any Modifier.Framed.counted || thresholds.content < f.data.length ||
      mimicsClosingLine f.data
  | raw bytes =>
    thresholds.content < bytes.length || mimicsClosingLine bytes ||
      bytes.getLast? != some Byte.lineFeed

namespace Draft

/-- Some field of the content is given. -/
def hasFields (d : Draft) : Bool :=
  !d.entity.isEmpty || d.state != .none || !d.method.isEmpty || !d.data.isEmpty

/-- Content is given in one way only. -/
def checkContent (d : Draft) : Except BuildError Unit :=
  if d.content.isSome && d.hasFields then .error .mixedContent else .ok ()

/-- The method is a keyword if there is one, and it is there if there is data. -/
def checkBody (d : Draft) : Except BuildError Unit :=
  if d.method.isEmpty && !d.data.isEmpty then .error .dataWithoutMethod
  else checkOptionalKeyword d.method

/-- The content, from the entity modifiers once they are built. Raw content of no bytes is the
    same as no content. -/
def buildContent (d : Draft) (entity : List Modifier.Framed) : Content :=
  match d.content with
  | some (b :: bytes) => .raw (b :: bytes)
  | _ => .fields { state := d.state, entity, method := d.method, data := d.data }

/-- Checks a packet, and decides which lengths are told. -/
def build (d : Draft) (thresholds : Thresholds) : Except BuildError Packet := do
  d.checkContent
  d.checkBody
  let routing ← d.routing.mapM Modifier.Draft.buildRouting
  let entity ← d.entity.mapM fun m => m.buildEntity thresholds
  let content := d.buildContent entity
  return { routing, content, counted := d.framing.isCounted (content.wantsLength thresholds) }

end Draft

end PacketWire.Packet
