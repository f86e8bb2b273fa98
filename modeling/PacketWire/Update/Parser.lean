import PacketWire.Element.Scan
import PacketWire.Path.Parser
import PacketWire.Update.Basic

namespace PacketWire.Update

/-!
# Reading updates

The path of an update ends where the buffer does, or at the first byte that starts no step;
from then on the operator is looked for. An update is read whole (`parse`), or unit by unit as
its bytes come in (`machine`).
-/

/-- What is wrong with an update. -/
inductive Cause where
  /-- Something is wrong with its path. -/
  | path (cause : Path.Cause)
  /-- There is no operator after the path. -/
  | noOperator
  /-- The operator is followed by something that is neither keyword, length nor value. -/
  | badType
  /-- A length is no number, or is not followed by a space. -/
  | badLength
  /-- Something follows the operand. -/
  | trailingBytes
deriving DecidableEq, Repr

instance : Describe Cause where
  message
    | .path cause => Describe.message cause
    | .noOperator => located "invalid operator"
    | .badType => located "invalid type"
    | .badLength => located "invalid value length"
    | .trailingBytes => located "trailing bytes after value"

/-- How the operand is written. -/
def form : Element.Form Cause where
  bareType := true
  delimiter := none
  badType := .badType
  badLength := .badLength
  trailingBytes := .trailingBytes

/-- A unit of an update. -/
inductive Event where
  /-- A part of the path. -/
  | path (piece : Path.Piece)
  /-- The operator. -/
  | operator (oper : Operator)
  /-- The operand. -/
  | operand (operand : Element)
  /-- The first part of an operand whose value has `length` bytes. -/
  | opening (type value : Bytes) (length : Nat)
  /-- A further part of that value; `isLast` tells that it is complete. -/
  | piece (value : Bytes) (isLast : Bool)
  /-- The end of the update. -/
  | finish
deriving DecidableEq, Repr

/-- What a parser has to know of the update so far. -/
inductive State where
  /-- The path is being read. -/
  | path (state : Path.State)
  /-- The operator comes next. -/
  | operator
  /-- The operand comes next. -/
  | operand
  /-- So many bytes of the value of the operand are missing. -/
  | within (missing : Nat)
  /-- Nothing may follow. -/
  | done
deriving DecidableEq, Repr

/-- The operator, after a space if there is one. -/
def scanOperator : Scan Cause (Event × State) := do
  if (← Scan.peek?) = some Byte.space then
    Scan.skip 1
  match Operator.ofGlyph? (← Scan.peek) with
  | none => Scan.fault .noOperator
  | some oper =>
    Scan.skip 1
    return (.operator oper, .operand)

/-- The operand. -/
def scanOperand : Scan Cause (Event × State) := do
  match ← Element.scan form with
  | .whole operand _ => return (.operand operand, .done)
  | .opening type value length =>
    return (.opening type value length, .within (length - value.length))

/-- More of a value of which `missing` bytes are missing. -/
def scanPiece (missing : Nat) : Scan Cause (Event × State) := do
  match ← Scan.takeOn missing with
  | .part value => return (.piece value false, .within (missing - value.length))
  | .whole value => return (.piece value true, .done)

/-- The end of the update. -/
def scanEnd : Scan Cause (Event × State) := do
  match ← Scan.peek? with
  | none => return (.finish, .done)
  | some _ => Scan.fault .trailingBytes

/-- Reads the next unit of the path, or the operator if the path has ended. -/
def readPath (state : Path.State) (input : Bytes) : Step State Event Cause :=
  match Path.step true state input with
  | .emit (.piece piece) state used => .emit (.path piece) (.path state) used
  -- From here on the operator is looked for, also if it takes another buffer.
  | .emit .finish _ used => (Step.ofScan scanOperator .operator (input.drop used)).shift used
  | .wait state used => .wait (.path state) used
  | .fault f => .fault (f.map .path)

/-- Reads the next unit of an update. The end of the path makes no unit of its own. -/
def step : State → Bytes → Step State Event Cause
  | .path state => readPath state
  | .operator => Step.ofScan scanOperator .operator
  | .operand => Step.ofScan scanOperand .operand
  | .within missing => Step.ofScan (scanPiece missing) (.within missing)
  | .done => Step.ofScan scanEnd .done

/-- The resumable parser of updates. -/
def machine : Machine State Event Cause where
  step := step
  restart _ := .path .segment
  isFinal e := e == .finish

/-- A parser at the start of an update. -/
def parser : Parser machine := ⟨.path .segment, 0⟩

/-- What has been read of an update. -/
structure Draft where
  /-- The path so far. -/
  path : Path := ⟨[]⟩
  /-- The operator, once it is read. -/
  oper : Option Operator := none
  /-- The operand, once it is read. -/
  operand : Option Element := none
deriving DecidableEq, Repr

/-- The update, once all of it is read. -/
def Draft.complete? (d : Draft) : Option Update := do return ⟨d.path, ← d.oper, ← d.operand⟩

/-- The update that is read unit by unit, given what has been read of it. A key or a value that
    comes in parts is longer than the buffer. -/
def ofAnswers (read : Draft) : List (Answer Event Cause) → Except (ReadError Cause) Update
  | .event (.path (.segment segment)) :: answers =>
    ofAnswers { read with path := ⟨read.path.segments ++ [segment]⟩ } answers
  | .event (.operator oper) :: answers => ofAnswers { read with oper := some oper } answers
  | .event (.operand operand) :: answers =>
    ofAnswers { read with operand := some operand } answers
  | .event .finish :: _ =>
    match read.complete? with
    | some u => .ok u
    | none => .error .truncated
  | .fault f :: _ => .error (.malformed f)
  | _ => .error .truncated

/-- The update that a buffer holds. -/
def parse (buffer : Bytes) : Except (ReadError Cause) Update :=
  ofAnswers {} (parser.drain buffer)

/-- What is said of a buffer that holds no update. -/
def errorMessage : ReadError Cause → String
  | .malformed f => f.message
  | .truncated => "update value truncated"

end PacketWire.Update
