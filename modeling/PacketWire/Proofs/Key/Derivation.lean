import PacketWire.Proofs.Derivation
import PacketWire.Proofs.Key

namespace PacketWire.Key

/-!
# Derivations of keys

A derivation of a key is the key with or without its length, and with the digits of the length where
it is told.
-/

/-- A way to write a key in its braces. -/
inductive Derivation where
  /-- The key without its length: it does not hold the closing brace, and starts with no digit. -/
  | delimited (value : Bytes) (notMem : Byte.closeBrace ∉ value)
      (notDigit : ∀ b, value.head? = some b → ¬ Byte.isDigit b)
  /-- The length, and behind a space so many bytes. -/
  | counted (value digits : Bytes) (numeral : Numeral value.length digits)

namespace Derivation

/-- What is written, with the braces. -/
def text : Derivation → Bytes
  | delimited value _ _ => Byte.openBrace :: value ++ [Byte.closeBrace]
  | counted value digits _ =>
    Byte.openBrace :: digits ++ Byte.space :: value ++ [Byte.closeBrace]

/-- The key. -/
def key : Derivation → Key
  | delimited value _ _ => ⟨value, false⟩
  | counted value _ _ => ⟨value, true⟩

end Derivation

theorem derivedBy_spelled : DerivedBy Key.Spelled Derivation.text Derivation.key where
  spelled_iff := by
    intro key line
    constructor
    · intro h
      cases h with
      | delimited hbrace hhead => exact ⟨.delimited _ hbrace hhead, rfl, rfl⟩
      | counted hnum => exact ⟨.counted _ _ hnum, rfl, rfl⟩
    · rintro ⟨w, rfl, rfl⟩
      cases w with
      | delimited value hbrace hhead => exact .delimited hbrace hhead
      | counted value digits hnum => exact .counted hnum
  eq_of_eq := by
    intro w w' htext hkey
    cases w with
    | delimited value hbrace hhead =>
      cases w' with
      | delimited value' hbrace' hhead' =>
        obtain rfl : value = value' := congrArg Key.value hkey
        rfl
      | counted => cases congrArg Key.counted hkey
    | counted value digits hnum =>
      cases w' with
      | delimited => cases congrArg Key.counted hkey
      | counted value' digits' hnum' =>
        obtain rfl : value = value' := congrArg Key.value hkey
        -- The values are the same, and what stands in front of them are the digits.
        obtain rfl := List.append_cancel_right
          (List.append_cancel_right (List.cons.inj htext).2)
        rfl

end PacketWire.Key
