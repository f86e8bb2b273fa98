import PacketWire.Text.Printable
import PacketWire.Text.Utf8

namespace PacketWire.Text

/-!
# Quoted text

How a message shows a byte string: in double quotes, with a backslash before quotes and
backslashes, the usual letters for line feed, return, tab and NUL, and the code point in
hexadecimal for every other character that is not printable.
-/

/-- Hexadecimal digits in lower case, without leading zeros. -/
def hexadecimal (n : Nat) : List Char := Nat.toDigits 16 n

/-- How one character is shown between quotes. -/
def quotedChar (c : Char) : List Char :=
  if c = '"' then ['\\', '"']
  else if c = '\\' then ['\\', '\\']
  else if c = '\n' then ['\\', 'n']
  else if c = '\r' then ['\\', 'r']
  else if c = '\t' then ['\\', 't']
  else if c = '\x00' then ['\\', '0']
  else if isPrintable c then [c]
  else ['\\', 'u', '\x7b'] ++ hexadecimal c.toNat ++ ['\x7d']

/-- A byte string as it is shown in a message. -/
def quoted (bytes : Bytes) : String :=
  String.ofList ('"' :: (decode bytes).flatMap quotedChar ++ ['"'])

end PacketWire.Text
