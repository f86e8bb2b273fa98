import PacketWire.Decimal

namespace PacketWire

/-!
# Spellings

How things may be written is told by relations between things and byte strings, without regard
to how the byte strings are read, or to which of them a writer chooses. `Numeral` is such a
relation for numbers, and `Series` makes one for sequences of things from one for the things.
-/

/-- The ways to write things of some type: of a thing and a byte string it tells whether the byte
    string is a way to write the thing. -/
abbrev Spelling (α : Type) : Type := α → Bytes → Prop

/-- A number of 64 bits is written as decimal digits, one at least, with any number of zeros in
    front. -/
structure Numeral (n : Nat) (text : Bytes) : Prop where
  /-- There is a digit. -/
  nonempty : text ≠ []
  /-- There are only digits. -/
  isDigit : ∀ b ∈ text, Byte.isDigit b
  /-- The digits stand for the number. -/
  value : Decimal.value text = n
  /-- The number fits into 64 bits. -/
  lt_bound : n < Decimal.bound

/-- A sequence of things is written as the things one behind the other. -/
inductive Series {α : Type} (spelling : Spelling α) : Spelling (List α) where
  /-- Nothing is written as nothing. -/
  | nil : Series spelling [] []
  /-- The first thing stands in front of the others. -/
  | cons {a : α} {as : List α} {text rest : Bytes} :
      spelling a text → Series spelling as rest → Series spelling (a :: as) (text ++ rest)

end PacketWire
