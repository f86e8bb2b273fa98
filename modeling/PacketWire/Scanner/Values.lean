import PacketWire.DictValue.Parser
import PacketWire.ListValue.Parser
import PacketWire.Scanner
import PacketWire.Update.Parser

namespace PacketWire

open Walk

/-!
# Going over values

The parsers of lists, dicts, paths and updates, as they go over whole buffers. The parser of updates
has a parser of paths inside, which keeps a cursor of its own but goes over the buffer with the
scanner of the update.
-/

variable {σ κ : Type}

/-! ### Elements and keys -/

namespace Element

/-- The type, if there is one. -/
def walkType (form : Form κ) : Walk σ κ Bytes := do
  if form.bareType then
    keywordOrEnd
  else if (← peek?) = some Byte.equalSign then
    skip 1
    let type ← keywordOrEnd
    if type.isEmpty then fail form.badType else return type
  else
    return []

/-- The length, if there is one. -/
def walkLength (form : Form κ) : Walk σ κ (Option Nat) := do
  if (← peek?) = some Byte.colon then
    skip 1
    match ← numberOrEnd with
    | .number n => return some n
    | _ => fail form.badLength
  else
    return none

/-- What stands in front of the value, and the space behind it. -/
def walkHead (form : Form κ) : Walk σ κ Head := do
  let type ← walkType form
  let length ← walkLength form
  -- A length of zero announces nothing: the element may end right behind it.
  let announced := length.any (0 < ·)
  match ← peek? with
  | none => if announced then needMore else return ⟨type, length⟩
  | some b =>
    if b = Byte.space then
      skip 1
      return ⟨type, length⟩
    else if some b = form.delimiter ∧ announced = false then return ⟨type, length⟩
    else if form.bareType ∧ length = none then fail form.badType
    else fail form.badLength

/-- The value of an element, after its head. -/
def walkValue (form : Form κ) (head : Head) : Walk σ κ Portion := do
  match head.length with
  | none =>
    let (value, delimited) ← upToOrEnd form.delimiter
    return .whole ⟨head.type, value, false⟩ (!delimited)
  | some n =>
    match ← take n with
    | .part value => return .opening head.type value n
    | .whole value =>
      match ← peek? with
      | none => return .whole ⟨head.type, value, true⟩ true
      | some b =>
        if some b = form.delimiter then return .whole ⟨head.type, value, true⟩ false
        else fail form.trailingBytes

/-- An element, or what there is of it. -/
def walk (form : Form κ) : Walk σ κ Portion := do walkValue form (← walkHead form)

end Element

/-- A key after its opening brace, or what there is of it. -/
def Key.walk (badLength : κ) : Walk σ κ Portion := do
  match ← expect numberOrEnd Decimal.Reading.optional? badLength with
  | none => return .whole ⟨← upTo Byte.closeBrace, false⟩
  | some n =>
    expectByte Byte.space badLength
    match ← take n with
    | .whole value => return .whole ⟨value, true⟩
    | .part value => return .opening value n

/-! ### Lists -/

namespace ListValue

/-- An element, or the end. -/
def walkElement : Walk σ Cause (Event × State) := do
  match ← peek? with
  | none => return (.finish, .elements)
  | some _ =>
    expectByte Byte.pipe .noDelimiter
    match ← Element.walk form with
    | .whole element isLast => return (.element element isLast, .elements)
    | .opening type value length =>
      return (.opening type value length, .within (length - value.length))

/-- The default type; where there is none, an element or the end. -/
def walkType : Walk σ Cause (Event × State) := do
  let type ← keywordOrEnd
  if type.isEmpty then walkElement else return (.type type, .elements)

/-- More of a value of which `missing` bytes are missing. -/
def walkPiece (missing : Nat) : Walk σ Cause (Event × State) := do
  match ← takeOn missing with
  | .part value => return (.piece value false, .within (missing - value.length))
  | .whole value =>
    match ← peek? with
    | none => return (.piece value true, .elements)
    | some b =>
      if b = Byte.pipe then return (.piece value true, .elements) else fail .trailingBytes

/-- Reads the next unit of a list. -/
def walk : Walk State Cause Event := do
  setMark
  match (← get).state with
  | .type =>
    -- The type is looked for once. If the buffer ends then, elements are next.
    enter .elements
    report walkType
  | .elements => report walkElement
  | .within missing => report (walkPiece missing)

/-- The parser of lists. -/
def engine : Engine State Event Cause where
  walk := walk
  restart _ := .type
  isFinal e := e == .finish

end ListValue

/-! ### Dicts -/

namespace DictValue

/-- A key, or the end. -/
def walkKey : Walk σ Cause (Event × State) := do
  match ← peek? with
  | none => return (.finish, .key)
  | some _ =>
    expectByte Byte.openBrace .noKey
    match ← Key.walk .badKeyLength with
    | .whole key => return (.key key, .value)
    | .opening value length =>
      return (.keyOpening value length, .keyWithin (length - value.length))

/-- The default type; where there is none, a key or the end. -/
def walkType : Walk σ Cause (Event × State) := do
  let type ← keywordOrEnd
  if type.isEmpty then walkKey else return (.type type, .key)

/-- More of a key of which `missing` bytes are missing. -/
def walkKeyPiece (missing : Nat) : Walk σ Cause (Event × State) := do
  match ← takeOn missing with
  | .part value => return (.keyPiece value false, .keyWithin (missing - value.length))
  | .whole value => return (.keyPiece value true, .value)

/-- The closing brace of a key, and the value. -/
def walkValue : Walk σ Cause (Event × State) := do
  expectByte Byte.closeBrace .unclosedKey
  match ← Element.walk form with
  | .whole element isLast => return (.value element isLast, .key)
  | .opening type value length =>
    return (.valueOpening type value length, .valueWithin (length - value.length))

/-- More of a value of which `missing` bytes are missing. -/
def walkValuePiece (missing : Nat) : Walk σ Cause (Event × State) := do
  match ← takeOn missing with
  | .part value => return (.valuePiece value false, .valueWithin (missing - value.length))
  | .whole value =>
    match ← peek? with
    | none => return (.valuePiece value true, .key)
    | some b =>
      if b = Byte.openBrace then return (.valuePiece value true, .key) else fail .trailingBytes

/-- Reads the next unit of a dict. -/
def walk : Walk State Cause Event := do
  setMark
  match (← get).state with
  | .type =>
    enter .key
    report walkType
  | .key => report walkKey
  | .keyWithin missing => report (walkKeyPiece missing)
  | .value => report walkValue
  | .valueWithin missing => report (walkValuePiece missing)

/-- The parser of dicts. -/
def engine : Engine State Event Cause where
  walk := walk
  restart _ := .type
  isFinal e := e == .finish

end DictValue

/-! ### Paths -/

namespace Path

/-- The closing brace of a key. -/
def walkKeyEnd : Walk σ Cause PUnit := expectByte Byte.closeBrace .unclosedKey

/-- The step to an element of a list, after the `#`. -/
def walkIndex : Walk σ Cause Segment := do
  match ← numberOrEnd with
  | .number n => return .index n.toUInt64
  | _ => fail .badIndex

/-- The step to a field of a struct, after the `.`. -/
def walkField : Walk σ Cause Segment := do
  return .field (← expect (fieldName <$> keywordOrEnd) Scan.nonEmpty? .badField)

/-- The step to an entry of a dict, after the opening brace. -/
def walkKey : Walk σ Cause (Event × State) := do
  match ← Key.walk .badKeyLength with
  | .whole key =>
    walkKeyEnd
    return (.piece (.segment (.key key)), .segment)
  | .opening value length =>
    return (.piece (.keyOpening value length), .keyWithin (length - value.length))

/-- A step, or the end; `embedded` tells that something else may follow the path. -/
def walkSegment (embedded : Bool) : Walk σ Cause (Event × State) := do
  match ← peek? with
  | none => return (.finish, .segment)
  | some b =>
    if b = Byte.hash then
      skip 1
      return (.piece (.segment (← walkIndex)), .segment)
    else if b = Byte.dot then
      skip 1
      return (.piece (.segment (← walkField)), .segment)
    else if b = Byte.openBrace then
      skip 1
      walkKey
    else if embedded then return (.finish, .segment)
    else fail .noSegment

/-- More of a key of which `missing` bytes are missing. -/
def walkKeyPiece (missing : Nat) : Walk σ Cause (Event × State) := do
  match ← takeOn missing with
  | .part value => return (.piece (.keyPiece value false), .keyWithin (missing - value.length))
  | .whole value => return (.piece (.keyPiece value true), .keyEnd)

/-- Reads the next unit of a path. A unit starts behind the brace of a key that came in parts. -/
def walk (embedded : Bool) : Walk State Cause Event := do
  setMark
  match (← get).state with
  | .segment => report (walkSegment embedded)
  | .keyWithin missing => report (walkKeyPiece missing)
  | .keyEnd =>
    walkKeyEnd
    enter .segment
    setMark
    report (walkSegment embedded)

/-- The parser of paths that stand by themselves. -/
def engine : Engine State Event Cause where
  walk := walk false
  restart _ := .segment
  isFinal e := e == .finish

end Path

/-! ### Updates -/

namespace Update

/-- What comes next in an update. -/
inductive Part where
  /-- The path, or what is left of it. -/
  | path
  /-- The operator. -/
  | operator
  /-- The operand. -/
  | operand
  /-- So many more bytes of the value of the operand. -/
  | within (missing : Nat)
  /-- Nothing. -/
  | done
deriving DecidableEq, Repr

/-- What a parser of updates knows. -/
structure Nested where
  /-- What comes next. -/
  part : Part
  /-- The parser of the path. Nobody calls it with a buffer, so its cursor stays where it is. -/
  path : Kept Path.State
deriving DecidableEq, Repr

/-- A parser that has read nothing. -/
def Nested.start : Nested := ⟨.path, .segment, 0⟩

/-- Another part comes next from now on. -/
def enterPart (part : Part) : Walk Nested Cause Unit := modify fun w =>
  { w with state := { w.state with part } }

/-- The parser of the path goes on with the scanner of the update. -/
def walkPath : Walk Nested Cause Path.Event := fun w =>
  let update := fun v : Walker Path.State =>
    (⟨v.toScanner, { w.state with path := { w.state.path with state := v.state } }⟩ : Walker Nested)
  match Path.walk true ⟨w.toScanner, w.state.path.state⟩ with
  | .ok event v => .ok event (update v)
  | .error .more v => .error .more (update v)
  | .error (.fault f) v => .error (.fault (f.map .path)) (update v)

/-- The glyph of the operator. -/
def walkGlyph : Walk σ Cause (Event × Part) := do
  match Operator.ofGlyph? (← byte) with
  | none => fail .noOperator
  | some oper =>
    skip 1
    return (.operator oper, .operand)

/-- The operator, after a space if there is one. -/
def walkOperator : Walk σ Cause (Event × Part) := do
  if (← peek?) = some Byte.space then
    skip 1
  walkGlyph

/-- The operand. -/
def walkOperand : Walk σ Cause (Event × Part) := do
  match ← Element.walk form with
  | .whole operand _ => return (.operand operand, .done)
  | .opening type value length =>
    return (.opening type value length, .within (length - value.length))

/-- More of a value of which `missing` bytes are missing. -/
def walkPiece (missing : Nat) : Walk σ Cause (Event × Part) := do
  match ← takeOn missing with
  | .part value => return (.piece value false, .within (missing - value.length))
  | .whole value => return (.piece value true, .done)

/-- The end of the update. -/
def walkEnd : Walk σ Cause (Event × Part) := do
  match ← peek? with
  | none => return (.finish, .done)
  | some _ => fail .trailingBytes

/-- Reads a unit behind the path. -/
def reportPart (unit : Walk Nested Cause (Event × Part)) : Walk Nested Cause Event := do
  let (event, part) ← unit
  enterPart part
  return event

/-- Reads the next unit of an update. A unit starts behind the path, where that has ended. -/
def walk : Walk Nested Cause Event := do
  setMark
  match (← get).state.part with
  | .path =>
    match ← walkPath with
    | .piece piece => return .path piece
    | .finish =>
      enterPart .operator
      setMark
      reportPart walkOperator
  | .operator => reportPart walkOperator
  | .operand => reportPart walkOperand
  | .within missing => reportPart (walkPiece missing)
  | .done => reportPart walkEnd

/-- The parser of updates. -/
def engine : Engine Nested Event Cause where
  walk := walk
  restart _ := .start
  isFinal e := e == .finish

end Update

end PacketWire
