import PacketWire.Bytes

namespace PacketWire.Text

/-!
# Bytes read as UTF-8

A message about a byte string shows it as text, and byte strings need not be UTF-8. The
reader here never fails: every longest stretch of bytes that begins a character but is cut
short or contradicted, and every byte that begins none, becomes one U+FFFD.
-/

/-- A character of more than one byte, of which some bytes have been read. -/
structure PartialChar where
  /-- The bits collected so far. -/
  bits : Nat
  /-- How many bytes are still missing. -/
  missing : Nat
  /-- The least value that the next byte may have. -/
  low : UInt8
  /-- The greatest value that the next byte may have. -/
  high : UInt8

/-- The first byte of a character of several bytes. The bounds on its second byte shut out
    overlong forms, surrogates, and everything beyond the last code point. -/
def PartialChar.start? (b : UInt8) : Option PartialChar :=
  if 0xC2 ≤ b ∧ b ≤ 0xDF then some ⟨b.toNat - 0xC0, 1, 0x80, 0xBF⟩
  else if b = 0xE0 then some ⟨0, 2, 0xA0, 0xBF⟩
  else if b = 0xED then some ⟨13, 2, 0x80, 0x9F⟩
  else if 0xE1 ≤ b ∧ b ≤ 0xEF then some ⟨b.toNat - 0xE0, 2, 0x80, 0xBF⟩
  else if b = 0xF0 then some ⟨0, 3, 0x90, 0xBF⟩
  else if 0xF1 ≤ b ∧ b ≤ 0xF3 then some ⟨b.toNat - 0xF0, 3, 0x80, 0xBF⟩
  else if b = 0xF4 then some ⟨4, 3, 0x80, 0x8F⟩
  else none

/-- Shown in place of bytes that are no character. -/
def replacement : Char := '\uFFFD'

mutual

/-- Reads on in the middle of a character. -/
def decodeWithin (c : PartialChar) : Bytes → List Char
  | [] => [replacement]
  | b :: rest =>
    if c.low ≤ b ∧ b ≤ c.high then
      let bits := 64 * c.bits + (b.toNat - 0x80)
      if c.missing ≤ 1 then Char.ofNat bits :: decode rest
      else decodeWithin ⟨bits, c.missing - 1, 0x80, 0xBF⟩ rest
    else if b < 0x80 then replacement :: Char.ofNat b.toNat :: decode rest
    else
      match PartialChar.start? b with
      | some next => replacement :: decodeWithin next rest
      | none => replacement :: replacement :: decode rest

/-- The characters of a byte string, with U+FFFD for what is no UTF-8. -/
def decode : Bytes → List Char
  | [] => []
  | b :: rest =>
    if b < 0x80 then Char.ofNat b.toNat :: decode rest
    else
      match PartialChar.start? b with
      | some c => decodeWithin c rest
      | none => replacement :: decode rest

end

end PacketWire.Text
