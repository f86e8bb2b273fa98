import PacketWire.DictValue.Basic
import PacketWire.Element.Scan
import PacketWire.Resumable

namespace PacketWire.DictValue

/-!
# Reading dict values

A key is read up to its closing brace; the brace is read along with the value, so a dict that
is cut behind a key is not taken for a shorter one. A dict is read whole (`parse`), or unit by
unit as its bytes come in (`machine`).
-/

/-- What is wrong with a dict. -/
inductive Cause where
  /-- An entry does not start with an opening brace. -/
  | noKey
  /-- The length of a key is no number, or is not followed by a space. -/
  | badKeyLength
  /-- A key is not closed by a brace. -/
  | unclosedKey
  /-- There is no keyword after `=`. -/
  | badType
  /-- The length of a value is no number, or is not followed by a space. -/
  | badLength
  /-- A value with a length is followed by something else than an opening brace. -/
  | trailingBytes
deriving DecidableEq, Repr

instance : Describe Cause where
  message
    | .noKey => located "expected key start"
    | .badKeyLength => located "invalid key length"
    | .unclosedKey => located "expected key end"
    | .badType => located "invalid value type"
    | .badLength => located "invalid value length"
    | .trailingBytes => located "trailing bytes after value"

/-- How values are written in a dict. -/
def form : Element.Form Cause where
  bareType := false
  delimiter := some Byte.openBrace
  badType := .badType
  badLength := .badLength
  trailingBytes := .trailingBytes

/-- A unit of a dict. -/
inductive Event where
  /-- The default type. -/
  | type (type : Bytes)
  /-- A key. -/
  | key (key : Key)
  /-- The first part of a key of `length` bytes. -/
  | keyOpening (value : Bytes) (length : Nat)
  /-- A further part of that key; `isLast` tells that it is complete. -/
  | keyPiece (value : Bytes) (isLast : Bool)
  /-- A value; `isLast` tells that the buffer ends behind it. -/
  | value (element : Element) (isLast : Bool)
  /-- The first part of a value of `length` bytes. -/
  | valueOpening (type value : Bytes) (length : Nat)
  /-- A further part of that value; `isLast` tells that it is complete. -/
  | valuePiece (value : Bytes) (isLast : Bool)
  /-- The end of the dict. -/
  | finish
deriving DecidableEq, Repr

/-- What a parser has to know of the dict so far. -/
inductive State where
  /-- Nothing has been read. -/
  | type
  /-- A key or the end comes next. -/
  | key
  /-- So many bytes of a key are missing. -/
  | keyWithin (missing : Nat)
  /-- The closing brace of a key and a value come next. -/
  | value
  /-- So many bytes of a value are missing. -/
  | valueWithin (missing : Nat)
deriving DecidableEq, Repr

/-- A key, or the end. -/
def scanKey : Scan Cause (Event × State) := do
  match ← Scan.peek? with
  | none => return (.finish, .key)
  | some _ =>
    Scan.byte Byte.openBrace .noKey
    match ← Key.scan .badKeyLength with
    | .whole key => return (.key key, .value)
    | .opening value length =>
      return (.keyOpening value length, .keyWithin (length - value.length))

/-- The default type; where there is none, a key or the end. -/
def scanType : Scan Cause (Event × State) := do
  let type ← Scan.keywordOrEnd
  if type.isEmpty then scanKey else return (.type type, .key)

/-- More of a key of which `missing` bytes are missing. -/
def scanKeyPiece (missing : Nat) : Scan Cause (Event × State) := do
  match ← Scan.takeOn missing with
  | .part value => return (.keyPiece value false, .keyWithin (missing - value.length))
  | .whole value => return (.keyPiece value true, .value)

/-- The closing brace of a key, and the value. -/
def scanValue : Scan Cause (Event × State) := do
  Scan.byte Byte.closeBrace .unclosedKey
  match ← Element.scan form with
  | .whole element isLast => return (.value element isLast, .key)
  | .opening type value length =>
    return (.valueOpening type value length, .valueWithin (length - value.length))

/-- More of a value of which `missing` bytes are missing. -/
def scanValuePiece (missing : Nat) : Scan Cause (Event × State) := do
  match ← Scan.takeOn missing with
  | .part value => return (.valuePiece value false, .valueWithin (missing - value.length))
  | .whole value =>
    match ← Scan.peek? with
    | none => return (.valuePiece value true, .key)
    | some b =>
      if b = Byte.openBrace then return (.valuePiece value true, .key)
      else Scan.fault .trailingBytes

/-- Reads the next unit of a dict. -/
def step : State → Bytes → Step State Event Cause
  | .type => Step.ofScan scanType .key
  | .key => Step.ofScan scanKey .key
  | .keyWithin missing => Step.ofScan (scanKeyPiece missing) (.keyWithin missing)
  | .value => Step.ofScan scanValue .value
  | .valueWithin missing => Step.ofScan (scanValuePiece missing) (.valueWithin missing)

/-- The resumable parser of dicts. -/
def machine : Machine State Event Cause where
  step := step
  restart _ := .type
  isFinal e := e == .finish

/-- A parser at the start of a dict. -/
def parser : Parser machine := ⟨.type, 0⟩

/-- The dict that is read unit by unit, given what has been read of it and the key that still
    has no value. A key or a value that comes in parts is longer than the buffer. -/
def ofAnswers (read : DictValue) (pending : Option Key) :
    List (Answer Event Cause) → Except (ReadError Cause) DictValue
  | .event (.type type) :: answers => ofAnswers { read with type } pending answers
  | .event (.key key) :: answers => ofAnswers read (some key) answers
  | .event (.value element _) :: answers =>
    match pending with
    | some key => ofAnswers { read with entries := read.entries ++ [⟨key, element⟩] } none answers
    | none => .error .truncated
  | .event .finish :: _ => if pending.isNone then .ok read else .error .truncated
  | .fault f :: _ => .error (.malformed f)
  | _ => .error .truncated

/-- The dict that a buffer holds. -/
def parse (buffer : Bytes) : Except (ReadError Cause) DictValue :=
  ofAnswers ⟨[], []⟩ none (parser.drain buffer)

/-- What is said of a buffer that holds no dict. -/
def errorMessage : ReadError Cause → String
  | .malformed f => f.message
  | .truncated => "dict value truncated"

end PacketWire.DictValue
