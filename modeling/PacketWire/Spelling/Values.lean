import PacketWire.DictValue.Basic
import PacketWire.ListValue.Basic
import PacketWire.Spelling
import PacketWire.Update.Basic

namespace PacketWire

/-!
# How values may be written

Lists, dicts, paths and updates are made of elements and keys. An element is written as its type and
its value, each of which may be missing. The value stands behind a space; a length, told behind a
`:`, lets it hold the delimiter. An empty value with a length may come with the space or without. A
key stands between braces. A length lets it hold the closing brace, and start with a digit.
-/

/-! ### Elements -/

namespace Element

/-- The ways to write a value, with the mark whether its length is told. Where it is not, the
    value ends at a delimiter, if there is one, and does not hold it. -/
inductive ValueSpelling (delimiter : Option UInt8) : Bytes → Bool → Bytes → Prop where
  /-- An empty value is not written. -/
  | absent : ValueSpelling delimiter [] false []
  /-- A value stands behind a space. -/
  | delimited {value : Bytes} :
      (∀ d, delimiter = some d → d ∉ value) →
        ValueSpelling delimiter value false (Byte.space :: value)
  /-- An empty value needs no space behind its length. -/
  | zero {digits : Bytes} :
      Numeral 0 digits → ValueSpelling delimiter [] true (Byte.colon :: digits)
  /-- A value stands behind its length and a space. -/
  | counted {value digits : Bytes} :
      Numeral value.length digits →
        ValueSpelling delimiter value true (Byte.colon :: digits ++ Byte.space :: value)

/-- The ways to write an element of a list or dict: its type stands behind a `=`. -/
inductive Spelled (delimiter : Option UInt8) : Spelling Element where
  /-- An element of the default type. -/
  | untyped {value text : Bytes} {counted : Bool} :
      ValueSpelling delimiter value counted text → Spelled delimiter ⟨[], value, counted⟩ text
  /-- An element of a type of its own. -/
  | typed {type value text : Bytes} {counted : Bool} :
      isKeyword type → ValueSpelling delimiter value counted text →
        Spelled delimiter ⟨type, value, counted⟩ (Byte.equalSign :: type ++ text)

/-- The ways to write the operand of an update: its type stands bare, and nothing ends it but the
    end of the update. -/
inductive OperandSpelled : Spelling Element where
  /-- The type is a keyword, or missing. -/
  | mk {type value text : Bytes} {counted : Bool} :
      type = [] ∨ isKeyword type → ValueSpelling none value counted text →
        OperandSpelled ⟨type, value, counted⟩ (type ++ text)

end Element

/-! ### Keys -/

/-- The ways to write a key in its braces. -/
inductive Key.Spelled : Spelling Key where
  /-- A key without its length. -/
  | delimited {value : Bytes} :
      Byte.closeBrace ∉ value → (∀ b, value.head? = some b → ¬ Byte.isDigit b) →
        Spelled ⟨value, false⟩ (Byte.openBrace :: value ++ [Byte.closeBrace])
  /-- A key behind its length and a space. -/
  | counted {value digits : Bytes} :
      Numeral value.length digits →
        Spelled ⟨value, true⟩
          (Byte.openBrace :: digits ++ Byte.space :: value ++ [Byte.closeBrace])

/-! ### Lists and dicts

A list is written as its default type, if it has one, and its elements behind a `|` each; a dict as
its default type, if it has one, and its entries, a key in braces and a value each.
-/

namespace ListValue

/-- The ways to write an element in its place in a list. -/
inductive ItemSpelled : Spelling Element where
  /-- A `|` and the element. -/
  | mk {element : Element} {text : Bytes} :
      element.Spelled (some Byte.pipe) text → ItemSpelled element (Byte.pipe :: text)

/-- The ways to write a list. -/
inductive Spelled : Spelling ListValue where
  /-- The default type is a keyword, or missing. -/
  | mk {type text : Bytes} {elements : List Element} :
      type = [] ∨ isKeyword type → Series ItemSpelled elements text →
        Spelled ⟨type, elements⟩ (type ++ text)

end ListValue

namespace DictValue

/-- The ways to write an entry. -/
inductive EntrySpelled : Spelling Entry where
  /-- The key and the value. -/
  | mk {key : Key} {value : Element} {keyText valueText : Bytes} :
      key.Spelled keyText → value.Spelled (some Byte.openBrace) valueText →
        EntrySpelled ⟨key, value⟩ (keyText ++ valueText)

/-- The ways to write a dict. -/
inductive Spelled : Spelling DictValue where
  /-- The default type is a keyword, or missing. -/
  | mk {type text : Bytes} {entries : List Entry} :
      type = [] ∨ isKeyword type → Series EntrySpelled entries text →
        Spelled ⟨type, entries⟩ (type ++ text)

end DictValue

/-! ### Paths and updates

The steps of a path stand one behind the other. The name of a field comes with one `_` in front,
which may be left out unless the name itself starts with one. An update is written as its path, its
operator and its operand, and a space may stand in front of the operator.
-/

namespace Path

/-- The ways to write a step. -/
inductive SegmentSpelled : Spelling Segment where
  /-- The index of an element behind a `#`. -/
  | index {n : UInt64} {digits : Bytes} :
      Numeral n.toNat digits → SegmentSpelled (.index n) (Byte.hash :: digits)
  /-- The name of a field behind a `.` and a `_`. -/
  | field {name : Bytes} :
      isKeyword name → SegmentSpelled (.field name) (Byte.dot :: Byte.underscore :: name)
  /-- The name of a field behind a `.` alone. -/
  | bareField {name : Bytes} :
      isKeyword name → name.head? ≠ some Byte.underscore →
        SegmentSpelled (.field name) (Byte.dot :: name)
  /-- A key in its braces. -/
  | key {key : Key} {text : Bytes} : key.Spelled text → SegmentSpelled (.key key) text

/-- The ways to write a path. -/
inductive Spelled : Spelling Path where
  /-- The steps one behind the other. -/
  | mk {segments : List Segment} {text : Bytes} :
      Series SegmentSpelled segments text → Spelled ⟨segments⟩ text

end Path

/-- The ways to write an update. -/
inductive Update.Spelled : Spelling Update where
  /-- Path, operator and operand. -/
  | mk {path : Path} {oper : Operator} {operand : Element} {pathText gap operandText : Bytes} :
      path.Spelled pathText → gap = [] ∨ gap = [Byte.space] →
        operand.OperandSpelled operandText →
        Spelled ⟨path, oper, operand⟩ (pathText ++ gap ++ oper.glyph :: operandText)

end PacketWire
