import PacketWire.Element.Scan
import PacketWire.Path.Basic
import PacketWire.Resumable

namespace PacketWire.Path

/-!
# Reading index paths

A path stands by itself (`parse`, `machine`), or in front of something else, and then it ends
at the first byte that starts no step. In either case the end of the buffer ends it.
-/

/-- What is wrong with a path. -/
inductive Cause where
  /-- A byte starts no step. -/
  | noSegment
  /-- There is no number after `#`. -/
  | badIndex
  /-- There is no name after `.`. -/
  | badField
  /-- The length of a key is no number, or is not followed by a space. -/
  | badKeyLength
  /-- A key is not closed by a brace. -/
  | unclosedKey
deriving DecidableEq, Repr

instance : Describe Cause where
  message
    | .noSegment => located "invalid index segment"
    | .badIndex => located "invalid list index"
    | .badField => located "invalid struct field"
    | .badKeyLength => located "invalid dict key length"
    | .unclosedKey => located "expected dict key end"

/-- A part of a path. -/
inductive Piece where
  /-- A step. -/
  | segment (segment : Segment)
  /-- The first part of a key of `length` bytes. -/
  | keyOpening (value : Bytes) (length : Nat)
  /-- A further part of that key; `isLast` tells that it is complete. -/
  | keyPiece (value : Bytes) (isLast : Bool)
deriving DecidableEq, Repr

/-- A unit of a path. -/
inductive Event where
  /-- A part of it. -/
  | piece (piece : Piece)
  /-- The end of the path. -/
  | finish
deriving DecidableEq, Repr

/-- What a parser has to know of the path so far. -/
inductive State where
  /-- A step or the end comes next. -/
  | segment
  /-- So many bytes of a key are missing. -/
  | keyWithin (missing : Nat)
  /-- The closing brace of a key that came in parts comes next. -/
  | keyEnd
deriving DecidableEq, Repr

/-- The closing brace of a key. -/
def scanKeyEnd : Scan Cause Unit := Scan.byte Byte.closeBrace .unclosedKey

/-- The step to an element of a list, after the `#`. -/
def scanIndex : Scan Cause Segment := do
  match ← Scan.numberOrEnd with
  | .number n => return .index n.toUInt64
  | _ => Scan.fault .badIndex

/-- The name of a field without the one `_` that it is written with. -/
def fieldName : Bytes → Bytes
  | [] => []
  | b :: rest => if b = Byte.underscore then rest else b :: rest

/-- The step to a field of a struct, after the `.`. -/
def scanField : Scan Cause Segment := do
  return .field (← Scan.expect (fieldName <$> Scan.keywordOrEnd) Scan.nonEmpty? .badField)

/-- The step to an entry of a dict, after the opening brace. -/
def scanKey : Scan Cause (Event × State) := do
  match ← Key.scan .badKeyLength with
  | .whole key =>
    scanKeyEnd
    return (.piece (.segment (.key key)), .segment)
  | .opening value length =>
    return (.piece (.keyOpening value length), .keyWithin (length - value.length))

/-- A step, or the end; `embedded` tells that something else may follow the path. -/
def scanSegment (embedded : Bool) : Scan Cause (Event × State) := do
  match ← Scan.peek? with
  | none => return (.finish, .segment)
  | some b =>
    if b = Byte.hash then
      Scan.skip 1
      return (.piece (.segment (← scanIndex)), .segment)
    else if b = Byte.dot then
      Scan.skip 1
      return (.piece (.segment (← scanField)), .segment)
    else if b = Byte.openBrace then
      Scan.skip 1
      scanKey
    else if embedded then return (.finish, .segment)
    else Scan.fault .noSegment

/-- More of a key of which `missing` bytes are missing. -/
def scanKeyPiece (missing : Nat) : Scan Cause (Event × State) := do
  match ← Scan.takeOn missing with
  | .part value => return (.piece (.keyPiece value false), .keyWithin (missing - value.length))
  | .whole value => return (.piece (.keyPiece value true), .keyEnd)

/-- Reads the next unit of a path. The brace behind a key that came in parts makes no unit of
    its own. -/
def step (embedded : Bool) : State → Bytes → Step State Event Cause
  | .segment => Step.ofScan (scanSegment embedded) .segment
  | .keyWithin missing => Step.ofScan (scanKeyPiece missing) (.keyWithin missing)
  | .keyEnd =>
    Step.andThen scanKeyEnd .keyEnd fun _ => Step.ofScan (scanSegment embedded) .segment

/-- The resumable parser of paths that stand by themselves. -/
def machine : Machine State Event Cause where
  step := step false
  restart _ := .segment
  isFinal e := e == .finish

/-- A parser at the start of a path. -/
def parser : Parser machine := ⟨.segment, 0⟩

/-- The path that is read unit by unit, given what has been read of it. A key that comes in
    parts is longer than the buffer. -/
def ofAnswers (read : Path) : List (Answer Event Cause) → Except (ReadError Cause) Path
  | .event (.piece (.segment segment)) :: answers => ofAnswers ⟨read.segments ++ [segment]⟩ answers
  | .event .finish :: _ => .ok read
  | .fault f :: _ => .error (.malformed f)
  | _ => .error .truncated

/-- The path that a buffer holds. -/
def parse (buffer : Bytes) : Except (ReadError Cause) Path :=
  ofAnswers ⟨[]⟩ (parser.drain buffer)

/-- What is said of a buffer that holds no path. -/
def errorMessage : ReadError Cause → String
  | .malformed f => f.message
  | .truncated => "index path truncated"

end PacketWire.Path
