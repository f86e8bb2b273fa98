import PacketWire.Key.Basic
import PacketWire.Scan

namespace PacketWire

/-!
# Elements and keys in the input

An element without a length reaches up to a delimiter or to the end of the buffer; one with
a length may be longer than what there is of it, and then its first part is delivered. The
kinds of values differ in the delimiter, in whether a `=` stands in front of the type, and in
how their faults are called; this is what a `Form` tells.

A key without a length must be closed inside the buffer; one with a length may be longer than
what there is of it, and then its first part is delivered. Neither takes the closing brace.
-/

namespace Element

/-- How elements are written in one kind of value. -/
structure Form (κ : Type) where
  /-- The type stands bare, without a `=` in front. -/
  bareType : Bool
  /-- What ends an element without a length, other than the end of the buffer. -/
  delimiter : Option UInt8
  /-- A type is no keyword. -/
  badType : κ
  /-- A length is no number, or is not followed by a space. -/
  badLength : κ
  /-- An element with a length is followed by something else than the delimiter. -/
  trailingBytes : κ

/-- What stands in front of the value of an element. -/
structure Head where
  /-- The type, empty where there is none. -/
  type : Bytes
  /-- The length, where it is told. -/
  length : Option Nat
deriving DecidableEq, Repr

variable {κ : Type}

/-- The type, if there is one. -/
def scanType (form : Form κ) : Scan κ Bytes := do
  if form.bareType then
    Scan.keywordOrEnd
  else if (← Scan.peek?) = some Byte.equalSign then
    Scan.skip 1
    let type ← Scan.keywordOrEnd
    if type.isEmpty then Scan.fault form.badType else return type
  else
    return []

/-- The length, if there is one. -/
def scanLength (form : Form κ) : Scan κ (Option Nat) := do
  if (← Scan.peek?) = some Byte.colon then
    Scan.skip 1
    match ← Scan.numberOrEnd with
    | .number n => return some n
    | _ => Scan.fault form.badLength
  else
    return none

/-- What stands in front of the value, and the space behind it. A length other than zero that
    ends the input may go on, so it needs more; any other head may end the input. -/
def scanHead (form : Form κ) : Scan κ Head := do
  let type ← scanType form
  let length ← scanLength form
  let announced := length.any (0 < ·)
  match ← Scan.peek? with
  | none => if announced then Scan.more else return ⟨type, length⟩
  | some b =>
    if b = Byte.space then
      Scan.skip 1
      return ⟨type, length⟩
    else if some b = form.delimiter ∧ announced = false then return ⟨type, length⟩
    else if form.bareType ∧ length = none then Scan.fault form.badType
    else Scan.fault form.badLength

/-- What there is of an element. -/
inductive Portion where
  /-- All of it; `isLast` tells that the buffer ends behind it. -/
  | whole (element : Element) (isLast : Bool)
  /-- The first part of a value of `length` bytes. -/
  | opening (type value : Bytes) (length : Nat)
deriving DecidableEq, Repr

/-- The value of an element, after its head. -/
def scanValue (form : Form κ) (head : Head) : Scan κ Portion := do
  match head.length with
  | none =>
    let (value, delimited) ← Scan.upToOrEnd form.delimiter
    return .whole ⟨head.type, value, false⟩ (!delimited)
  | some n =>
    match ← Scan.take n with
    | .part value => return .opening head.type value n
    | .whole value =>
      match ← Scan.peek? with
      | none => return .whole ⟨head.type, value, true⟩ true
      | some b =>
        if some b = form.delimiter then return .whole ⟨head.type, value, true⟩ false
        else Scan.fault form.trailingBytes

/-- An element, or what there is of it. -/
def scan (form : Form κ) : Scan κ Portion := do scanValue form (← scanHead form)

end Element

namespace Key

/-- What there is of a key. -/
inductive Portion where
  /-- All of it. -/
  | whole (key : Key)
  /-- The first part of a key of `length` bytes. -/
  | opening (value : Bytes) (length : Nat)
deriving DecidableEq, Repr

variable {κ : Type}

/-- A key after its opening brace, or what there is of it. -/
def scan (badLength : κ) : Scan κ Portion := do
  match ← Scan.expect Scan.numberOrEnd Decimal.Reading.optional? badLength with
  | none => return .whole ⟨← Scan.upTo Byte.closeBrace, false⟩
  | some n =>
    Scan.byte Byte.space badLength
    match ← Scan.take n with
    | .whole value => return .whole ⟨value, true⟩
    | .part value => return .opening value n

end Key

end PacketWire
