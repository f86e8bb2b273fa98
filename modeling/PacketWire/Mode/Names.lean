import PacketWire.Mode
import PacketWire.Text.Quoted

namespace PacketWire

/-!
# Mode bits by name

Mode bits are written as their names with `|` between them. Bits without a name are written in
hexadecimal after `0x`, and taken over when they are read. Blanks, the characters with the Unicode
property `White_Space`, may stand around a name without meaning.
-/

namespace Text

/-- The character may stand around a word without meaning. -/
def isBlank (c : Char) : Bool :=
  let n := c.toNat
  (0x09 ≤ n && n ≤ 0x0D) || n == 0x20 || n == 0x85 || n == 0xA0 || n == 0x1680 ||
    (0x2000 ≤ n && n ≤ 0x200A) || n == 0x2028 || n == 0x2029 || n == 0x202F || n == 0x205F ||
    n == 0x3000

/-- A text without the blanks at its ends. -/
def trim (text : List Char) : List Char :=
  ((text.dropWhile isBlank).reverse.dropWhile isBlank).reverse

/-- A text split at every `separator`; as many pieces as separators, and one more. -/
def split (separator : Char) : List Char → List (List Char)
  | [] => [[]]
  | c :: rest =>
    if c = separator then [] :: split separator rest
    else
      match split separator rest with
      | [] => [[c]]
      | piece :: pieces => (c :: piece) :: pieces

end Text

namespace ModeBits

/-- The bits that have a name. -/
def names : List (UInt8 × String) :=
  [(routingOnlyBit, "ROUTING_ONLY"), (startAtContentBit, "START_AT_CONTENT")]

/-! ### Writing -/

/-- The names of the bits, and in hexadecimal those that have none. -/
def words (m : ModeBits) : List String :=
  let named := names.filter fun (bit, _) => m.bits &&& bit == bit
  let rest := named.foldl (fun bits (bit, _) => bits &&& ~~~bit) m.bits
  named.map Prod.snd ++
    if rest = 0 then [] else ["0x" ++ String.ofList (Text.hexadecimal rest.toNat)]

/-- The bits as a text. -/
def toText (m : ModeBits) : String := " | ".intercalate m.words

/-! ### Reading -/

/-- The number that a hexadecimal digit stands for. -/
def hexDigit? (c : Char) : Option Nat :=
  if '0' ≤ c ∧ c ≤ '9' then some (c.toNat - 48)
  else if 'a' ≤ c ∧ c ≤ 'f' then some (c.toNat - 87)
  else if 'A' ≤ c ∧ c ≤ 'F' then some (c.toNat - 55)
  else none

/-- The number of eight bits that hexadecimal digits stand for. -/
def hexByte? (digits : List Char) : Option UInt8 := do
  if digits.isEmpty then none
  else
    let values ← digits.mapM hexDigit?
    let n := values.foldl (fun n d => 16 * n + d) 0
    if n < 256 then some n.toUInt8 else none

/-- The bits that one word stands for. A number may have a plus sign. -/
def bitsOfWord? (word : List Char) : Option UInt8 :=
  match word with
  | '0' :: 'x' :: '+' :: digits => hexByte? digits
  | '0' :: 'x' :: digits => hexByte? digits
  | _ => (names.find? fun (_, name) => name.toList == word).map Prod.fst

/-- The bits that a text stands for; none, if it is blank. -/
def ofText? (text : String) : Option ModeBits := do
  let chars := text.toList
  if (Text.trim chars).isEmpty then return ⟨0⟩
  else
    let bits ← (Text.split '|' chars).mapM fun word => bitsOfWord? (Text.trim word)
    return ⟨bits.foldl (· ||| ·) 0⟩

end ModeBits

end PacketWire
