namespace PacketWire

/-!
# Byte strings and the bytes that frame them

Names, values and whole packets are byte strings; nothing in them is assumed to be text.
Framing is done by a handful of ASCII bytes, which are named here, and by two classes of
bytes: the decimal digits, and the letters, digits and `_` that keywords are made of.

`Bytes.before` finds what stands in front of a byte sequence; `eq_append_of_before` says
that it gives the bytes in front of an occurrence, and `before_eq_none_iff` that it fails
only where there is none.
-/

/-- A byte string. -/
abbrev Bytes := List UInt8

namespace Byte

/-- Ends a line. -/
abbrev lineFeed : UInt8 := 10

/-- Stands between the name and the value of a modifier. -/
abbrev tab : UInt8 := 9

/-- Stands between a length and what it measures. -/
abbrev space : UInt8 := 32

/-- Closes a packet, and starts each element of a list. -/
abbrev pipe : UInt8 := 124

/-- Introduces the length of an element. -/
abbrev colon : UInt8 := 58

/-- Introduces the type of an element. -/
abbrev equalSign : UInt8 := 61

/-- Introduces a list index in a path. -/
abbrev hash : UInt8 := 35

/-- Introduces a field name in a path. -/
abbrev dot : UInt8 := 46

/-- Opens a key. -/
abbrev openBrace : UInt8 := 123

/-- Closes a key. -/
abbrev closeBrace : UInt8 := 125

/-- Joins the parts of a keyword. -/
abbrev underscore : UInt8 := 95

/-- The digits `0` to `9`. -/
def isDigit (b : UInt8) : Bool := 48 ≤ b && b ≤ 57

/-- The letters `a` to `z` and `A` to `Z`. -/
def isLetter (b : UInt8) : Bool := (97 ≤ b && b ≤ 122) || (65 ≤ b && b ≤ 90)

/-- The bytes that a keyword may hold: letters, digits and `_`. -/
def isKeyword (b : UInt8) : Bool := isLetter b || isDigit b || b == underscore

end Byte

namespace Bytes

/-- The bytes of an ASCII text. -/
def ofText (text : String) : Bytes := text.toList.map Char.toUInt8

/-- What stands in front of the first occurrence of `needle`, if there is one. -/
def before (needle : Bytes) : Bytes → Option Bytes
  | [] => if needle.isEmpty then some [] else none
  | b :: rest =>
    if needle.isPrefixOf (b :: rest) then some [] else (before needle rest).map (b :: ·)

/-- `needle` occurs somewhere in `bytes`. -/
def holds (needle bytes : Bytes) : Bool := (before needle bytes).isSome

/-- The bytes split at every `separator`; as many pieces as separators, and one more. -/
def split (separator : UInt8) : Bytes → List Bytes
  | [] => [[]]
  | b :: rest =>
    if b = separator then [] :: split separator rest
    else
      match split separator rest with
      | [] => [[b]]
      | piece :: pieces => (b :: piece) :: pieces

/-- Byte strings in dictionary order of their byte values. -/
def compare : Bytes → Bytes → Ordering
  | [], [] => .eq
  | [], _ :: _ => .lt
  | _ :: _, [] => .gt
  | a :: as, b :: bs => (Ord.compare a b).then (compare as bs)

/-- What `before` gives is followed by the sequence looked for. -/
theorem eq_append_of_before {needle bytes front : Bytes} (h : before needle bytes = some front) :
    ∃ rest, bytes = front ++ needle ++ rest := by
  induction bytes generalizing front with
  | nil =>
    rw [before] at h
    split at h
    · next hn => exact ⟨[], by simp_all⟩
    · simp at h
  | cons b tail ih =>
    rw [before] at h
    split at h
    · next hn =>
      obtain ⟨rest, hrest⟩ := List.isPrefixOf_iff_prefix.1 hn
      exact ⟨rest, by simp_all⟩
    · obtain ⟨front', hfront, rfl⟩ := Option.map_eq_some_iff.1 h
      obtain ⟨rest, rfl⟩ := ih hfront
      exact ⟨rest, by simp⟩

/-- `before` fails exactly where the sequence does not occur. -/
theorem before_eq_none_iff {needle bytes : Bytes} :
    before needle bytes = none ↔ ¬ needle <:+: bytes := by
  induction bytes with
  | nil => cases needle <;> simp [before]
  | cons b tail ih =>
    rw [before, List.infix_cons_iff]
    split
    · next hn => simp [List.isPrefixOf_iff_prefix.1 hn]
    · next hn => simp [ih, mt List.isPrefixOf_iff_prefix.2 hn]

end Bytes

end PacketWire
