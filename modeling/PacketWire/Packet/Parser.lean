import PacketWire.Mode
import PacketWire.Packet.Basic
import PacketWire.Packet.Event
import PacketWire.Resumable

namespace PacketWire.Packet

/-!
# Reading packets

The parts of a packet follow one another in a fixed order, and each tells by its first byte
that it is not there: routing modifiers, the length line, entity modifiers, the method, the
closing line. Where the length of the content is told, the bytes of the content are counted,
and no value may reach beyond it; where it is not, the data reaches up to the first line that is
just `|`. A value with a length is delivered in parts where the buffer ends inside it, and the
line feed behind it is read with the next unit.
-/

/-- The part of a packet that comes next. -/
inductive Part where
  /-- A routing modifier, or the length line. -/
  | routing
  /-- The length line, or the closing line of a packet without content. -/
  | length
  /-- A state action or an entity modifier, or the method. -/
  | content
  /-- The method and the data, or the closing line. -/
  | method
  /-- Raw content. -/
  | data
  /-- The closing line. -/
  | closing
deriving DecidableEq, Repr

/-- The lines that a value with a length stands on. -/
inductive LineEnd where
  /-- The line of an entity modifier. -/
  | modifier
  /-- The last line of the data. -/
  | body
deriving DecidableEq, Repr

/-- What is left of a value that has been reported. -/
inductive Owed where
  /-- Nothing. -/
  | nothing
  /-- So many bytes of the value; never zero. -/
  | value (slot : Slot) (missing : Nat)
  /-- The line feed behind it. -/
  | lineFeed (line : LineEnd)
deriving DecidableEq, Repr

/-- What a parser has to know of the packet so far. -/
structure State where
  /-- What is parsed. -/
  mode : Mode
  /-- What comes next. -/
  part : Part
  /-- The length of the content, where it is told. -/
  announced : Option Nat
  /-- How many bytes of the content have been read. -/
  consumed : Nat
  /-- What comes before the next part. -/
  owed : Owed
deriving DecidableEq, Repr

namespace State

/-- The start of a packet. -/
def initial (mode : Mode) : State where
  mode := mode
  part := if mode.fixedLength?.isSome then .content else .routing
  announced := mode.fixedLength?
  consumed := 0
  owed := .nothing

/-- The content has been read up to its announced length. -/
def isFull (s : State) : Bool := s.announced.any (· ≤ s.consumed)

/-- So many more bytes of the content have been read. -/
def consume (s : State) (n : Nat) : State := { s with consumed := s.consumed + n }

end State

/-- What is owed behind the last byte of a value. -/
def Slot.behind : Slot → Owed
  | entity => .lineFeed .modifier
  | body => .lineFeed .body
  | content => .nothing

/-- What is wrong where a line does not end. -/
def LineEnd.cause : LineEnd → Cause
  | modifier => .unendedModifier
  | body => .unendedData

/-! ### Lines -/

/-- The operator of a modifier has been looked at; takes it, and the name behind it. -/
def scanName : Scan Cause Bytes :=
  Scan.expect (do Scan.skip 1; Scan.keyword) Scan.nonEmpty? .namelessModifier

/-- The rest of a line that holds a value without a length; a line that ends after the name has
    an empty value. -/
def scanLineValue : Scan Cause Bytes := do
  let b ← Scan.peek
  if b = Byte.tab then
    Scan.skip 1
    Scan.line
  else if b = Byte.lineFeed then
    Scan.skip 1
    return []
  else
    Scan.fault .noTab

/-- The length of a value that has one, and the space and the tab around it. -/
def scanValueLength : Scan Cause Nat := do
  Scan.skip 1
  let length ← Scan.expect Scan.number Decimal.Reading.number? .badValueLength
  Scan.byte Byte.tab .noTab
  return length

/-- The name of an entity modifier, and its length where it is told. -/
def scanEntityHead : Scan Cause (Bytes × Option Nat) := do
  let name ← scanName
  if (← Scan.peek) = Byte.space then return (name, some (← scanValueLength))
  else return (name, none)

/-- The lines in front of the first line that is just `|`. -/
def scanLines : Scan Cause Bytes := fun input =>
  if closingLine.isPrefixOf input then .done [] 0
  else
    match Bytes.before (Byte.lineFeed :: closingLine) input with
    | some front => .done (front ++ [Byte.lineFeed]) (front.length + 1)
    | none => .more

/-- What the length line tells. -/
inductive LengthLine where
  /-- There is no such line, and no content. -/
  | absent
  /-- There is content, up to the first line that is just `|`. -/
  | untold
  /-- There is content of so many bytes. -/
  | told (length : Nat)
deriving DecidableEq, Repr

/-- The length line, unless the closing line comes in its place. -/
def scanLengthLine : Scan Cause LengthLine := do
  match ← Scan.expect Scan.number Decimal.Reading.optional? .badLengthLine with
  | some length =>
    Scan.byte Byte.lineFeed .badLengthLine
    return .told length
  | none =>
    if (← Scan.peek) = Byte.pipe then return .absent
    else
      Scan.byte Byte.lineFeed .badLengthLine
      return .untold

/-! ### Units

A scan for a unit of the content gives nothing where the next byte starts no unit of its kind.
Otherwise it gives the unit, and what is owed behind it. -/

/-- A routing modifier. -/
def scanRouting : Scan Cause (Option Event) := do
  match Operator.ofGlyph? (← Scan.peek) with
  | none => return none
  | some oper =>
    let name ← scanName
    return some (.routing ⟨oper, name, ← scanLineValue⟩)

/-- The first line of the content is just one byte, which has been looked at. -/
def scanIsAlone (s : State) : Scan Cause Bool := do
  -- Further inside the content such a line is no state action, and no byte behind it is asked for.
  if s.consumed = 0 then return (← Scan.peekSecond) == Byte.lineFeed else return false

/-- The line of a state action. -/
def scanStateAction (glyph : UInt8) : Scan Cause Event := do
  match StateAction.ofGlyph? glyph with
  | some .reset =>
    Scan.skip 2
    return .stateReset
  | some .resync =>
    Scan.skip 2
    return .stateResync
  | _ => Scan.fault (.noStateAction glyph)

/-- A value of `length` bytes and its line feed fit into the content, of which the value's line
    has taken `head` bytes already. The sum cannot grow beyond 64 bits, whatever the lengths
    are. -/
def scanRoom (s : State) (head length : Nat) : Scan Cause Unit := do
  match s.announced with
  | none => return ()
  | some announced =>
    let actual := Decimal.cappedAdd (Decimal.cappedAdd (s.consumed + head) length) 1
    if announced < actual then Scan.fault (.lengthMismatch announced actual) else return ()

/-- An entity modifier. -/
def scanEntity (s : State) (oper : Operator) : Scan Cause (Event × Owed) := do
  let ((name, length), used) ← scanEntityHead.measured
  match length with
  | none => return (.entity ⟨oper, name, ← scanLineValue⟩, .nothing)
  | some length =>
    scanRoom s used length
    match ← Scan.take length with
    | .whole value => return (.entity ⟨oper, name, value⟩, .lineFeed .modifier)
    | .part value =>
      return (.entityOpening ⟨oper, name, value⟩ length,
        .value .entity (length - value.length))

/-- A state action or an entity modifier. -/
def scanContent (s : State) : Scan Cause (Option (Event × Owed)) := do
  let glyph ← Scan.peek
  match Operator.ofGlyph? glyph with
  | none => return none
  | some oper =>
    if ← scanIsAlone s then return some (← scanStateAction glyph, .nothing)
    else return some (← scanEntity s oper)

/-- The data behind a method, when `consumed` bytes of the content have been read. -/
def scanBodyData (s : State) (method : Bytes) (consumed : Nat) : Scan Cause (Event × Owed) := do
  match s.announced with
  -- The line feed of the last line is not part of the data.
  | none => return (.body method (← scanLines).dropLast, .nothing)
  | some announced =>
    if announced < consumed then Scan.fault (.lengthMismatch announced consumed)
    else if announced = consumed then return (.body method [], .nothing)
    else
      -- The last byte of the content is the line feed behind the data.
      let length := announced - consumed - 1
      match ← Scan.take length with
      | .whole data => return (.body method data, .lineFeed .body)
      | .part data =>
        return (.bodyOpening method data length, .value .body (length - data.length))

/-- The method and the data. -/
def scanBody (s : State) : Scan Cause (Option (Event × Owed)) := do
  let (method, used) ← Scan.keyword.measured
  if method.isEmpty then return none
  else
    Scan.byte Byte.lineFeed .unendedMethod
    return some (← scanBodyData s method (s.consumed + used + 1))

/-- Raw content. -/
def scanData (s : State) : Scan Cause (Option (Event × Owed)) := do
  match s.announced with
  | none =>
    let lines ← scanLines
    if lines.isEmpty then return none else return some (.content lines, .nothing)
  | some announced =>
    let length := announced - s.consumed
    if length = 0 then return none
    else
      match ← Scan.takeOn length with
      | .whole bytes => return some (.content bytes, .nothing)
      | .part bytes =>
        return some (.contentOpening bytes length, .value .content (length - bytes.length))

/-- More of a value of which `missing` bytes are missing. -/
def scanPiece (s : State) (slot : Slot) (missing : Nat) : Scan Cause (Event × State) := do
  match ← Scan.takeOn missing with
  | .part bytes =>
    return (.piece slot bytes false,
      { s.consume bytes.length with owed := .value slot (missing - bytes.length) })
  | .whole bytes =>
    return (.piece slot bytes true, { s.consume bytes.length with owed := slot.behind })

/-- The content has the length that was told. -/
def scanLengthCheck (s : State) : Scan Cause Unit := do
  match s.announced with
  | none => return ()
  | some announced =>
    if s.consumed = announced then return ()
    else Scan.fault (.lengthMismatch announced s.consumed)

/-- The line that closes a packet. -/
def scanClosingLine : Scan Cause Unit := do
  Scan.byte Byte.pipe .badClosingLine
  Scan.byte Byte.lineFeed .badClosingLine

/-- The end of the packet. Content that comes by itself has no closing line. -/
def scanClosing (s : State) : Scan Cause (Event × State) := do
  scanLengthCheck s
  match s.mode with
  | .contentOnly _ => return (.complete, .initial s.mode)
  | _ =>
    scanClosingLine
    return (.complete, .initial s.mode)

/-- Counts the bytes of a unit as bytes of the content, and goes on to a part. -/
def record (s : State) (part : Part) (scan : Scan Cause (Option (Event × Owed))) :
    Scan Cause (Option (Event × State)) := do
  let (found, used) ← scan.measured
  return found.map fun (event, owed) => (event, { s.consume used with part, owed })

/-! ### Parts

Each part goes on to the next one, from the same byte, where its own unit is not there. -/

/-- Reads the end of the packet. -/
def readClosing (s : State) : Bytes → Step State Event Cause :=
  Step.ofScan (scanClosing s) { s with part := .closing }

/-- Reads from the method on. -/
def readMethod (s : State) : Bytes → Step State Event Cause :=
  Step.ofScan? (record s .closing (scanBody s)) { s with part := .method } (readClosing s)

/-- Reads from the state action or an entity modifier on. -/
def readContent (s : State) : Bytes → Step State Event Cause :=
  if s.isFull then readClosing s
  else
    Step.ofScan? (record s .content (scanContent s)) { s with part := .content } (readMethod s)

/-- Reads from the raw content on. -/
def readData (s : State) : Bytes → Step State Event Cause :=
  Step.ofScan? (record s .closing (scanData s)) { s with part := .data } (readClosing s)

/-- Reads the content, in the way that the mode asks for. -/
def readAnyContent (s : State) : Bytes → Step State Event Cause :=
  match s.mode with
  | .routingOnly => readData s
  | _ => readContent s

/-- Reads from the length line on. -/
def readLength (s : State) : Bytes → Step State Event Cause :=
  Step.andThen scanLengthLine { s with part := .length } fun line =>
    match line with
    | .absent => readClosing s
    | .untold => readAnyContent { s with announced := none }
    | .told length => readAnyContent { s with announced := some length }

/-- Reads from a routing modifier on. -/
def readRouting (s : State) : Bytes → Step State Event Cause :=
  Step.ofScan? (do return (← scanRouting).map fun event => (event, s)) s (readLength s)

/-- Reads from the part that comes next on. -/
def readPart (s : State) : Bytes → Step State Event Cause :=
  match s.part with
  | .routing => readRouting s
  | .length => readLength s
  | .content => readContent s
  | .method => readMethod s
  | .data => readData s
  | .closing => readClosing s

/-- Reads the next unit of a packet, after what is owed. -/
def step (s : State) : Bytes → Step State Event Cause :=
  match s.owed with
  | .nothing => readPart s
  | .value slot missing => Step.ofScan (scanPiece s slot missing) s
  | .lineFeed line =>
    Step.andThen (Scan.byte Byte.lineFeed line.cause) s fun _ =>
      -- The line feed of a value counts as content.
      readPart { s.consume 1 with owed := .nothing }

/-- The resumable parser of packets. -/
def machine : Machine State Event Cause where
  step := step
  restart s := .initial s.mode
  isFinal e := e == .complete

/-- A parser at the start of a packet. -/
def parser (mode : Mode) : Parser machine := ⟨.initial mode, 0⟩

end PacketWire.Packet
