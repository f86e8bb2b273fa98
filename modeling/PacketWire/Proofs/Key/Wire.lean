import PacketWire.Proofs.Key
import PacketWire.WireForm

namespace PacketWire.Key

/-!
# The wire form of a key

What a key is written as is a way to write it (`spelled_wire`), if it has its length told wherever
it holds the closing brace or starts with a digit (`IsSafe`). A key that breaks this rule is not
read back, whatever stands behind it (`isSafe_of_spelled`): its first digits are read as a length,
and what they measure would have to be the key again, but it starts further behind.
-/

variable {k k' : Key} {text rest rest' : Bytes}

/-- The key as its wire form tells it: the length of an empty key is not told. -/
def written (k : Key) : Key := { k with counted := k.writesLength }

/-- A key that is written without its length does not hold the closing brace, and does not start as
    a length does. -/
def IsSafe (k : Key) : Prop :=
  k.counted = false → Byte.closeBrace ∉ k.value ∧ ¬ k.value.head?.any Byte.isDigit

instance (k : Key) : Decidable k.IsSafe :=
  inferInstanceAs (Decidable (k.counted = false →
    Byte.closeBrace ∉ k.value ∧ ¬ k.value.head?.any Byte.isDigit))

theorem length_value_le : k.value.length ≤ k.wireSize := by
  rw [wireSize]
  omega

theorem wire_eq_of_counted_eq_false (h : k.counted = false) :
    k.wire = Byte.openBrace :: k.value ++ [Byte.closeBrace] := by
  rw [wire, writesLength, h]
  rfl

/-- A safe key is written in one of the ways to write it. -/
theorem spelled_wire (hlength : k.value.length < Decimal.bound) (hsafe : k.IsSafe) :
    k.written.Spelled k.wire := by
  obtain ⟨value, counted⟩ := k
  cases counted with
  | false =>
    obtain ⟨hbrace, hhead⟩ := hsafe rfl
    rw [wire_eq_of_counted_eq_false rfl]
    exact .delimited hbrace fun b hb hdigit => hhead ((Option.any_eq_true ..).2 ⟨b, hb, hdigit⟩)
  | true =>
    cases value with
    | nil => exact @Spelled.delimited [] List.not_mem_nil nofun
    | cons b value =>
      have hcounted := Spelled.counted (Decimal.numeral_digits hlength)
      show Spelled ⟨b :: value, true⟩ _
      simpa [wire, writesLength] using hcounted

/-- The same key is found at the start of a wire form only if it is the wire form of a safe key. -/
theorem isSafe_of_spelled (h : k'.Spelled text) (hvalue : k'.value = k.value)
    (hi : text ++ rest = k.wire ++ rest') : k.IsSafe := by
  intro hcounted
  rw [wire_eq_of_counted_eq_false hcounted] at hi
  cases h with
  | @delimited value hbrace hhead =>
    obtain rfl : value = k.value := hvalue
    refine ⟨hbrace, fun hdigit => ?_⟩
    obtain ⟨b, hb, hdigit⟩ := (Option.any_eq_true ..).1 hdigit
    exact hhead b hb hdigit
  | @counted value digits hnum =>
    obtain rfl : value = k.value := hvalue
    -- behind the length there would be the same key again, up to the closing brace
    have hoverlap : digits ++ [Byte.space] ++ (k.value ++ Byte.closeBrace :: rest) =
        k.value ++ Byte.closeBrace :: rest' := by simpa using hi
    have hfront : Byte.closeBrace ∉ digits ++ [Byte.space] := by
      rw [List.mem_append, not_or]
      exact ⟨Decimal.notMem_of_numeral hnum (by decide), by decide⟩
    exact absurd hoverlap (Bytes.append_append_cons_ne (by simp) hfront)

/-- The same key at the start of a wire form is all of it. -/
theorem eq_of_spelled (hlength : k.value.length < Decimal.bound) (h : k'.Spelled text)
    (hvalue : k'.value = k.value) (hi : text ++ rest = k.wire ++ rest') :
    k.IsSafe ∧ k' = k.written ∧ rest = rest' := by
  have hsafe := isSafe_of_spelled h hvalue hi
  obtain ⟨hkey, hrest⟩ := h.unique (spelled_wire hlength hsafe) hi
  exact ⟨hsafe, hkey, hrest⟩

end PacketWire.Key
