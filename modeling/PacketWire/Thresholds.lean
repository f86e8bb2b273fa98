import PacketWire.Bytes

namespace PacketWire

/-!
# When a value carries its length

The extent of a value is told in one of two ways: a length announced in front of it, or a
delimiter behind it. A value goes out with its length where it is longer than a threshold or
holds the delimiter, unless the sender has chosen for it.
-/

/-- The longest values that are sent without their length. -/
structure Thresholds where
  /-- For elements of lists and dicts, keys and operands. -/
  element : Nat := 404
  /-- For the values of modifiers. -/
  modifier : Nat := 444
  /-- For the data or the raw content of a packet. -/
  content : Nat := 444
deriving DecidableEq, Repr

/-- The sender's choice on how the extent of a value is told. -/
inductive Framing where
  /-- Decided when the value is built. -/
  | automatic
  /-- By its length. -/
  | counted
  /-- By the delimiter behind it. -/
  | delimited
deriving DecidableEq, Repr

/-- A length is announced: by choice, or where the choice was left open and there is need. -/
def Framing.isCounted (framing : Framing) (need : Bool) : Bool :=
  match framing with
  | automatic => need
  | counted => true
  | delimited => false

/-- The value has need of its length: it is longer than the threshold, or holds the delimiter. -/
def wantsLength (value : Bytes) (threshold : Nat) (delimiter : Option UInt8) : Bool :=
  threshold < value.length ||
    match delimiter with
    | some d => value.contains d
    | none => false

end PacketWire
