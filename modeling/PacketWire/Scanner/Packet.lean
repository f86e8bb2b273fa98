import PacketWire.Packet.Parser
import PacketWire.Scanner

namespace PacketWire.Packet

open Walk

/-!
# Going over packets

The parser of packets, as it goes over whole buffers. A unit starts where a part of the packet does,
and behind the line feed of a value; so what is not there in one part is looked for anew in the next
one, and if the buffer ends, the parser comes back to this part and not to an earlier one. How many
bytes of the content a unit takes is told by the places where it starts and ends.
-/

variable {σ : Type}

/-! ### Lines -/

/-- The operator of a modifier has been looked at; goes past it, and past the name behind it. -/
def walkName : Walk σ Cause Bytes :=
  expect (do advance; keyword) Scan.nonEmpty? .namelessModifier

/-- The rest of a line that holds a value without a length; a line that ends after the name has
    an empty value. -/
def walkLineValue : Walk σ Cause Bytes := do
  let b ← byte
  if b = Byte.tab then
    skip 1
    let value ← upTo Byte.lineFeed
    skip 1
    return value
  else if b = Byte.lineFeed then
    skip 1
    return []
  else
    fail .noTab

/-- The length of a value that has one, and the space and the tab around it. -/
def walkValueLength : Walk σ Cause Nat := do
  skip 1
  let length ← expect number Decimal.Reading.number? .badValueLength
  expectByte Byte.tab .noTab
  return length

/-- The name of an entity modifier, and its length where it is told. -/
def walkEntityHead : Walk σ Cause (Bytes × Option Nat) := do
  let name ← walkName
  if (← byte) = Byte.space then return (name, some (← walkValueLength))
  else return (name, none)

/-- The lines in front of the first line that is just `|`. -/
def walkLines : Walk σ Cause Bytes := do
  if closingLine.isPrefixOf (← rest) then return []
  else
    match ← find? (Byte.lineFeed :: closingLine) with
    | some offset =>
      let lines := (← rest).take (offset + 1)
      skip (offset + 1)
      return lines
    | none => needMore

/-- The length line, unless the closing line comes in its place. -/
def walkLengthLine : Walk σ Cause LengthLine := do
  match ← expect number Decimal.Reading.optional? .badLengthLine with
  | some length =>
    expectByte Byte.lineFeed .badLengthLine
    return .told length
  | none =>
    if (← byte) = Byte.pipe then return .absent
    else
      expectByte Byte.lineFeed .badLengthLine
      return .untold

/-! ### Units -/

/-- A routing modifier. -/
def walkRouting : Walk σ Cause (Option Event) := do
  match Operator.ofGlyph? (← byte) with
  | none => return none
  | some oper =>
    let name ← walkName
    return some (.routing ⟨oper, name, ← walkLineValue⟩)

/-- The first line of the content is just one byte, which has been looked at. -/
def walkIsAlone (s : State) : Walk σ Cause Bool := do
  -- Further inside the content such a line is no state action, and no byte behind it is asked for.
  if s.consumed = 0 then return (← byteAt 1) == Byte.lineFeed else return false

/-- The line of a state action. -/
def walkStateAction (glyph : UInt8) : Walk σ Cause Event := do
  match StateAction.ofGlyph? glyph with
  | some .reset =>
    skip 2
    return .stateReset
  | some .resync =>
    skip 2
    return .stateResync
  | _ => fail (.noStateAction glyph)

/-- A value of `length` bytes and its line feed fit into the content, of which the value's line
    has taken `head` bytes already. -/
def walkRoom (s : State) (head length : Nat) : Walk σ Cause Unit := do
  match s.announced with
  | none => return ()
  | some announced =>
    let actual := Decimal.cappedAdd (Decimal.cappedAdd (s.consumed + head) length) 1
    if announced < actual then fail (.lengthMismatch announced actual) else return ()

/-- An entity modifier. -/
def walkEntity (s : State) (oper : Operator) : Walk σ Cause (Event × Owed) := do
  let ((name, length), used) ← measured walkEntityHead
  match length with
  | none => return (.entity ⟨oper, name, ← walkLineValue⟩, .nothing)
  | some length =>
    walkRoom s used length
    match ← take length with
    | .whole value => return (.entity ⟨oper, name, value⟩, .lineFeed .modifier)
    | .part value =>
      return (.entityOpening ⟨oper, name, value⟩ length,
        .value .entity (length - value.length))

/-- A state action or an entity modifier. -/
def walkContent (s : State) : Walk σ Cause (Option (Event × Owed)) := do
  let glyph ← byte
  match Operator.ofGlyph? glyph with
  | none => return none
  | some oper =>
    if ← walkIsAlone s then return some (← walkStateAction glyph, .nothing)
    else return some (← walkEntity s oper)

/-- The data behind a method, when `consumed` bytes of the content have been read. -/
def walkBodyData (s : State) (method : Bytes) (consumed : Nat) : Walk σ Cause (Event × Owed) := do
  match s.announced with
  | none => return (.body method (← walkLines).dropLast, .nothing)
  | some announced =>
    if announced < consumed then fail (.lengthMismatch announced consumed)
    else if announced = consumed then return (.body method [], .nothing)
    else
      -- The last byte of the content is the line feed behind the data.
      let length := announced - consumed - 1
      match ← take length with
      | .whole data => return (.body method data, .lineFeed .body)
      | .part data =>
        return (.bodyOpening method data length, .value .body (length - data.length))

/-- The method and the data. -/
def walkBody (s : State) : Walk σ Cause (Option (Event × Owed)) := do
  let (method, used) ← measured keyword
  if method.isEmpty then return none
  else
    expectByte Byte.lineFeed .unendedMethod
    return some (← walkBodyData s method (s.consumed + used + 1))

/-- Raw content. -/
def walkData (s : State) : Walk σ Cause (Option (Event × Owed)) := do
  match s.announced with
  | none =>
    let lines ← walkLines
    if lines.isEmpty then return none else return some (.content lines, .nothing)
  | some announced =>
    let length := announced - s.consumed
    if length = 0 then return none
    else
      match ← takeOn length with
      | .whole bytes => return some (.content bytes, .nothing)
      | .part bytes =>
        return some (.contentOpening bytes length, .value .content (length - bytes.length))

/-- More of a value of which `missing` bytes are missing. -/
def walkPiece (s : State) (slot : Slot) (missing : Nat) : Walk σ Cause (Event × State) := do
  match ← takeOn missing with
  | .part bytes =>
    return (.piece slot bytes false,
      { s.consume bytes.length with owed := .value slot (missing - bytes.length) })
  | .whole bytes =>
    return (.piece slot bytes true, { s.consume bytes.length with owed := slot.behind })

/-- The content has the length that was told. -/
def walkLengthCheck (s : State) : Walk σ Cause Unit := do
  match s.announced with
  | none => return ()
  | some announced =>
    if s.consumed = announced then return ()
    else fail (.lengthMismatch announced s.consumed)

/-- The line that closes a packet. Both of its bytes are looked at before it is taken. -/
def walkClosingLine : Walk σ Cause Unit := do
  let start ← pos
  if (← byte) = Byte.pipe then
    if (← byteAt 1) = Byte.lineFeed then skip 2 else failAt .badClosingLine (start + 1)
  else failAt .badClosingLine start

/-- The end of the packet. Content that comes by itself has no closing line. -/
def walkClosing (s : State) : Walk σ Cause (Event × State) := do
  walkLengthCheck s
  match s.mode with
  | .contentOnly _ => return (.complete, .initial s.mode)
  | _ =>
    walkClosingLine
    return (.complete, .initial s.mode)

/-- Counts the bytes of a unit as bytes of the content, and goes on to a part. -/
def recorded (s : State) (part : Part) (unit : Walk σ Cause (Option (Event × Owed))) :
    Walk σ Cause (Option (Event × State)) := do
  let (found, used) ← measured unit
  return found.map fun (event, owed) => (event, { s.consume used with part, owed })

/-! ### Parts -/

/-- A part of the packet starts here. -/
def enterPart (s : State) : Walk State Cause Unit := do
  enter s
  setMark

/-- Reads the end of the packet. -/
def closingOn (s : State) : Walk State Cause Event := do
  enterPart { s with part := .closing }
  report (walkClosing s)

/-- Reads from the method on. -/
def methodOn (s : State) : Walk State Cause Event := do
  enterPart { s with part := .method }
  reportOr (recorded s .closing (walkBody s)) (closingOn s)

/-- Reads from the state action or an entity modifier on. -/
def contentOn (s : State) : Walk State Cause Event := do
  enterPart { s with part := .content }
  if s.isFull then closingOn s
  else reportOr (recorded s .content (walkContent s)) (methodOn s)

/-- Reads from the raw content on. -/
def dataOn (s : State) : Walk State Cause Event := do
  enterPart { s with part := .data }
  reportOr (recorded s .closing (walkData s)) (closingOn s)

/-- Reads the content, in the way that the mode asks for. -/
def anyContentOn (s : State) : Walk State Cause Event :=
  match s.mode with
  | .routingOnly => dataOn s
  | _ => contentOn s

/-- Reads from the length line on. -/
def lengthOn (s : State) : Walk State Cause Event := do
  enterPart { s with part := .length }
  match ← walkLengthLine with
  | .absent => closingOn s
  | .untold => anyContentOn { s with announced := none }
  | .told length => anyContentOn { s with announced := some length }

/-- Reads from a routing modifier on. -/
def routingOn (s : State) : Walk State Cause Event := do
  enterPart s
  reportOr (do return (← walkRouting).map fun event => (event, s)) (lengthOn s)

/-- Reads from the part that comes next on. -/
def partOn (s : State) : Walk State Cause Event :=
  match s.part with
  | .routing => routingOn s
  | .length => lengthOn s
  | .content => contentOn s
  | .method => methodOn s
  | .data => dataOn s
  | .closing => closingOn s

/-- Reads the next unit of a packet, after what is owed. -/
def walk : Walk State Cause Event := do
  setMark
  let s := (← get).state
  match s.owed with
  | .nothing => partOn s
  | .value slot missing => report (walkPiece s slot missing)
  | .lineFeed line =>
    expectByte Byte.lineFeed line.cause
    -- The part starts behind the line feed, which is not read again if the buffer ends here.
    partOn { s.consume 1 with owed := .nothing }

/-- The parser of packets. -/
def engine : Engine State Event Cause where
  walk := walk
  restart s := .initial s.mode
  isFinal e := e == .complete

end PacketWire.Packet
