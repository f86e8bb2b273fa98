namespace PacketWire

/-!
# Faults

A parser that meets malformed input says what is wrong and where. The place is counted in
bytes from the start of the buffer that the parser was given.
-/

/-- What is wrong with an input, and at which byte of it. -/
structure Fault (κ : Type) where
  /-- What is wrong. -/
  cause : κ
  /-- Where, counted from the start of the buffer. -/
  offset : Nat
deriving DecidableEq, Repr

namespace Fault

variable {κ ι : Type}

/-- The same fault in a buffer that has `n` more bytes in front. -/
def shift (n : Nat) (f : Fault κ) : Fault κ := { f with offset := n + f.offset }

/-- The same fault, its cause seen in a wider context. -/
def map (g : κ → ι) (f : Fault κ) : Fault ι := ⟨g f.cause, f.offset⟩

/-- Nothing stands in front. -/
@[simp] theorem shift_zero (f : Fault κ) : f.shift 0 = f := by simp [shift]

/-- What stands in front adds up. -/
@[simp] theorem shift_shift (m n : Nat) (f : Fault κ) :
    (f.shift n).shift m = f.shift (m + n) := by
  simp [shift, Nat.add_assoc]

end Fault

/-- Causes of faults that can be put into words. -/
class Describe (κ : Type) where
  /-- What is said of a fault with the given cause at the given offset. -/
  message : κ → Nat → String

/-- What is said of a fault. -/
def Fault.message {κ : Type} [Describe κ] (f : Fault κ) : String :=
  Describe.message f.cause f.offset

/-- What was expected or wrong, with the place where: `text at offset n`. -/
def located (text : String) (offset : Nat) : String :=
  text ++ " at offset " ++ toString offset

/-- Why a buffer does not hold exactly one value of some kind. -/
inductive ReadError (κ : Type) where
  /-- It holds something else. -/
  | malformed (fault : Fault κ)
  /-- It ends before the value does. -/
  | truncated
deriving DecidableEq, Repr

end PacketWire
