import PacketWire.Element.Scan
import PacketWire.ListValue.Basic
import PacketWire.Resumable

namespace PacketWire.ListValue

/-!
# Reading list values

The end of the buffer is the end of a list wherever an element may end, so a list that is cut
between two elements reads as a shorter list. A list is read whole (`parse`), or unit by unit
as its bytes come in (`machine`).
-/

/-- What is wrong with a list. -/
inductive Cause where
  /-- An element does not start with `|`. -/
  | noDelimiter
  /-- There is no keyword after `=`. -/
  | badType
  /-- A length is no number, or is not followed by a space. -/
  | badLength
  /-- An element with a length is followed by something else than `|`. -/
  | trailingBytes
deriving DecidableEq, Repr

instance : Describe Cause where
  message
    | .noDelimiter => located "expected element delimiter"
    | .badType => located "invalid element type"
    | .badLength => located "invalid element length"
    | .trailingBytes => located "trailing bytes after element"

/-- How elements are written in a list. -/
def form : Element.Form Cause where
  bareType := false
  delimiter := some Byte.pipe
  badType := .badType
  badLength := .badLength
  trailingBytes := .trailingBytes

/-- A unit of a list. -/
inductive Event where
  /-- The default type. -/
  | type (type : Bytes)
  /-- An element; `isLast` tells that the buffer ends behind it. -/
  | element (element : Element) (isLast : Bool)
  /-- The first part of an element whose value has `length` bytes. -/
  | opening (type value : Bytes) (length : Nat)
  /-- A further part of that value; `isLast` tells that it is complete. -/
  | piece (value : Bytes) (isLast : Bool)
  /-- The end of the list. -/
  | finish
deriving DecidableEq, Repr

/-- What a parser has to know of the list so far. -/
inductive State where
  /-- Nothing has been read. -/
  | type
  /-- An element or the end comes next. -/
  | elements
  /-- So many bytes of the value of an element are missing. -/
  | within (missing : Nat)
deriving DecidableEq, Repr

/-- An element, or the end. -/
def scanElement : Scan Cause (Event × State) := do
  match ← Scan.peek? with
  | none => return (.finish, .elements)
  | some _ =>
    Scan.byte Byte.pipe .noDelimiter
    match ← Element.scan form with
    | .whole element isLast => return (.element element isLast, .elements)
    | .opening type value length =>
      return (.opening type value length, .within (length - value.length))

/-- The default type; where there is none, an element or the end. -/
def scanType : Scan Cause (Event × State) := do
  let type ← Scan.keywordOrEnd
  if type.isEmpty then scanElement else return (.type type, .elements)

/-- More of a value of which `missing` bytes are missing. -/
def scanPiece (missing : Nat) : Scan Cause (Event × State) := do
  match ← Scan.takeOn missing with
  | .part value => return (.piece value false, .within (missing - value.length))
  | .whole value =>
    match ← Scan.peek? with
    | none => return (.piece value true, .elements)
    | some b =>
      if b = Byte.pipe then return (.piece value true, .elements)
      else Scan.fault .trailingBytes

/-- Reads the next unit of a list. -/
def step : State → Bytes → Step State Event Cause
  | .type => Step.ofScan scanType .elements
  | .elements => Step.ofScan scanElement .elements
  | .within missing => Step.ofScan (scanPiece missing) (.within missing)

/-- The resumable parser of lists. -/
def machine : Machine State Event Cause where
  step := step
  restart _ := .type
  isFinal e := e == .finish

/-- A parser at the start of a list. -/
def parser : Parser machine := ⟨.type, 0⟩

/-- The list that is read unit by unit, given what has been read of it. A value that comes in
    parts is longer than the buffer. -/
def ofAnswers (read : ListValue) :
    List (Answer Event Cause) → Except (ReadError Cause) ListValue
  | .event (.type type) :: answers => ofAnswers { read with type } answers
  | .event (.element element _) :: answers =>
    ofAnswers { read with elements := read.elements ++ [element] } answers
  | .event .finish :: _ => .ok read
  | .fault f :: _ => .error (.malformed f)
  | _ => .error .truncated

/-- The list that a buffer holds. -/
def parse (buffer : Bytes) : Except (ReadError Cause) ListValue :=
  ofAnswers ⟨[], []⟩ (parser.drain buffer)

/-- What is said of a buffer that holds no list. -/
def errorMessage : ReadError Cause → String
  | .malformed f => f.message
  | .truncated => "list value truncated"

end PacketWire.ListValue
