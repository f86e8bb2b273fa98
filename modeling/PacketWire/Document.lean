import PacketWire.Decimal
import PacketWire.Mode.Names
import PacketWire.Operator
import PacketWire.Thresholds
import PacketWire.Variable

namespace PacketWire

/-!
# Settings as documents

Thresholds, modes and the like are kept in documents that tell of themselves what is in them. Each
setting has one form in which it is written; some are also read in others.
-/

/-- A self-describing value. -/
inductive Document where
  | null
  | bool (value : Bool)
  | integer (value : Int)
  /-- A number that is written with a fraction, an exponent, or a sign in front of zero. -/
  | fraction
  | text (value : String)
  | array (items : List Document)
  /-- Named values; no name occurs twice. -/
  | table (fields : List (String × Document))
deriving Inhabited

namespace Document

/-- A number that a length can have. -/
def size? : Document → Option Nat
  | integer n => if 0 ≤ n ∧ n < Decimal.bound then some n.toNat else none
  | _ => none

/-- The value with a given name in a table. -/
def field? (fields : List (String × Document)) (name : String) : Option Document :=
  (fields.find? fun (n, _) => n == name).map Prod.snd

/-- A length that may be left out, and then is `default`. -/
def sizeOr (default : Nat) : Option Document → Option Nat
  | none => some default
  | some d => d.size?

end Document

open Document

/-! ### Thresholds -/

/-- Thresholds from a table, or from an array in the order elements, modifiers, content. What is
    missing has its default; a table may hold other things besides. -/
def Thresholds.ofDocument? : Document → Option Thresholds
  | .table fields => do
    let defaults : Thresholds := {}
    return {
      element := ← sizeOr defaults.element (field? fields "elem_threshold")
      modifier := ← sizeOr defaults.modifier (field? fields "modifier_threshold")
      content := ← sizeOr defaults.content (field? fields "content_threshold") }
  | .array items => do
    let defaults : Thresholds := {}
    if 3 < items.length then none
    else
      return {
        element := ← sizeOr defaults.element items[0]?
        modifier := ← sizeOr defaults.modifier items[1]?
        content := ← sizeOr defaults.content items[2]? }
  | _ => none

/-- Thresholds as a table. -/
def Thresholds.toDocument (t : Thresholds) : Document :=
  .table [("elem_threshold", .integer t.element), ("modifier_threshold", .integer t.modifier),
    ("content_threshold", .integer t.content)]

/-! ### Operators -/

/-- A byte, given by its number. -/
def Document.byte? : Document → Option UInt8
  | .integer n => if 0 ≤ n ∧ n < 256 then some n.toNat.toUInt8 else none
  | _ => none

/-- An operator, given by its glyph. -/
def Operator.ofDocument? (d : Document) : Option Operator := d.byte?.bind Operator.ofGlyph?

/-- An operator, written by its glyph. -/
def Operator.toDocument (o : Operator) : Document := .integer o.glyph.toNat

/-- A state action, given by its glyph, or by zero where there is none. -/
def StateAction.ofDocument? (d : Document) : Option StateAction :=
  d.byte?.bind fun b => if b = 0 then some .none else StateAction.ofGlyph? b

/-- A state action, written by its glyph, or by zero where there is none. -/
def StateAction.toDocument (s : StateAction) : Document := .integer (s.glyph?.getD 0).toNat

/-! ### Kinds of variables -/

/-- The kind of a variable, given by its name, or by a table that holds just this name with
    nothing for it. -/
def Variable.Kind.ofDocument? : Document → Option Variable.Kind
  | .text name => Variable.Kind.ofName? name
  | .table [(name, .null)] => Variable.Kind.ofName? name
  | _ => none

/-- The kind of a variable, written by its name. -/
def Variable.Kind.toDocument (k : Variable.Kind) : Document := .text k.name

/-! ### Mode bits -/

/-- Mode bits, given by their names. -/
def ModeBits.ofDocument? : Document → Option ModeBits
  | .text names => ModeBits.ofText? names
  | _ => none

/-- Mode bits, written by their names. -/
def ModeBits.toDocument (m : ModeBits) : Document := .text m.toText

end PacketWire
