import PacketWire.Decimal
import PacketWire.Fault

namespace PacketWire

/-!
# Scans

A scan looks at the input ahead. It is done with a value and takes some bytes; or it asks for
more input, because what it looks for may still come; or it meets a fault. A scan that asks for
more takes nothing: the unit it was part of is scanned again from its start when more bytes
are there.

There are two kinds of elementary scans. Those that look for an end inside the input ask for
more where there is none (`peek`, `word`, `keyword`, `number`, `upTo`, `line`); those for values
that end with the buffer take the end of the input as their end (`peek?`, `wordOrEnd`,
`keywordOrEnd`, `numberOrEnd`, `upToOrEnd`).

A scan sees nothing but the bytes ahead, and says how many it took and where a fault lies
relative to them. Scans in a row add up (`Outcome.shift`), and make a lawful monad.
-/

/-- The outcome of a scan. -/
inductive Outcome (κ α : Type) where
  /-- A value, and the number of bytes that it took. -/
  | done (value : α) (used : Nat)
  /-- More input is needed. -/
  | more
  /-- The input is malformed. -/
  | fault (fault : Fault κ)
deriving DecidableEq, Repr

namespace Outcome

variable {κ α : Type}

/-- The same outcome of a scan that took `n` more bytes at first. -/
def shift (n : Nat) : Outcome κ α → Outcome κ α
  | done a used => .done a (n + used)
  | more => .more
  | fault f => .fault (f.shift n)

/-- Nothing was taken before. -/
@[simp] theorem shift_zero (o : Outcome κ α) : o.shift 0 = o := by
  cases o <;> simp [shift]

/-- What was taken before adds up. -/
@[simp] theorem shift_shift (m n : Nat) (o : Outcome κ α) :
    (o.shift n).shift m = o.shift (m + n) := by
  cases o <;> simp [shift, Nat.add_assoc]

end Outcome

/-- A scan for an `α`, with faults of the kind `κ`. -/
def Scan (κ α : Type) : Type := Bytes → Outcome κ α

namespace Scan

variable {κ α β : Type}

/-- Scans in a row: each goes on behind what the one before has taken. -/
instance : Monad (Scan κ) where
  pure a := fun _ => .done a 0
  bind scan next := fun input =>
    match scan input with
    | .done a used => (next a (input.drop used)).shift used
    | .more => .more
    | .fault f => .fault f

/-- A value by itself takes nothing. -/
theorem pure_apply (a : α) (input : Bytes) : (pure a : Scan κ α) input = .done a 0 := rfl

/-- The second scan starts where the first one ends. -/
theorem bind_apply (scan : Scan κ α) (next : α → Scan κ β) (input : Bytes) :
    (scan >>= next) input =
      match scan input with
      | .done a used => (next a (input.drop used)).shift used
      | .more => .more
      | .fault f => .fault f := rfl

/-- A scan that only finds a value takes no bytes. -/
private theorem map_id_apply (scan : Scan κ α) (input : Bytes) :
    (id <$> scan) input = scan input := by
  show (scan >>= fun a => pure (id a)) input = scan input
  rw [bind_apply]
  cases scan input <;> rfl

/-- Three scans in a row add up in either order. -/
private theorem bind_bind_apply {γ : Type} (scan : Scan κ α) (next : α → Scan κ β)
    (last : β → Scan κ γ) (input : Bytes) :
    (scan >>= next >>= last) input = (scan >>= fun a => next a >>= last) input := by
  simp only [bind_apply]
  cases scan input with
  | more => rfl
  | fault f => rfl
  | done a used =>
    simp only
    cases next a (input.drop used) with
    | more => rfl
    | fault f => rfl
    | done b used' =>
      show (last b _).shift (used + used') = ((last b _).shift used').shift used
      rw [Outcome.shift_shift, List.drop_drop]

/-- It does not matter how scans in a row are put together. -/
instance : LawfulMonad (Scan κ) :=
  LawfulMonad.mk' (Scan κ)
    (fun scan => funext fun input => map_id_apply scan input)
    (fun a next => funext fun input => Outcome.shift_zero (next a input))
    (fun scan next last => funext fun input => bind_bind_apply scan next last input)

/-! ### Faults -/

/-- More input is needed. -/
def more : Scan κ α := fun _ => .more

/-- A fault at the next byte. -/
def fault (cause : κ) : Scan κ α := fun _ => .fault ⟨cause, 0⟩

/-- What is made of a value that is scanned; if nothing can be made of it, the fault lies where
    the scan started. -/
def expect (scan : Scan κ α) (make : α → Option β) (cause : κ) : Scan κ β := fun input =>
  match scan input with
  | .done a used =>
    match make a with
    | some b => .done b used
    | none => .fault ⟨cause, 0⟩
  | .more => .more
  | .fault f => .fault f

/-- A scan, with the number of bytes that it took. -/
def measured (scan : Scan κ α) : Scan κ (α × Nat) := fun input =>
  match scan input with
  | .done a used => .done (a, used) used
  | .more => .more
  | .fault f => .fault f

/-! ### Single bytes -/

/-- The next byte, if the input has not ended. -/
def peek? : Scan κ (Option UInt8) := fun input => .done input.head? 0

/-- The next byte. -/
def peek : Scan κ UInt8 := fun input =>
  match input with
  | [] => .more
  | b :: _ => .done b 0

/-- The byte after the next one. -/
def peekSecond : Scan κ UInt8 := fun input =>
  match input with
  | _ :: b :: _ => .done b 0
  | _ => .more

/-- Takes `n` bytes, or all there are if they are fewer. -/
def skip (n : Nat) : Scan κ Unit := fun input => .done () (min n input.length)

/-- Takes a byte that has to come. -/
def byte (b : UInt8) (cause : κ) : Scan κ Unit := do
  if (← peek) = b then skip 1 else fault cause

/-! ### Words and numbers -/

/-- The bytes of a class, up to the first byte that is not in it. -/
def word (class? : UInt8 → Bool) : Scan κ Bytes := fun input =>
  let taken := input.takeWhile class?
  if taken.length < input.length then .done taken taken.length else .more

/-- The bytes of a class, up to the first byte that is not in it or the end of the input. -/
def wordOrEnd (class? : UInt8 → Bool) : Scan κ Bytes := fun input =>
  let taken := input.takeWhile class?
  .done taken taken.length

/-- A keyword, which may be empty, with something behind it. -/
def keyword : Scan κ Bytes := word Byte.isKeyword

/-- A keyword, which may be empty, or may end with the input. -/
def keywordOrEnd : Scan κ Bytes := wordOrEnd Byte.isKeyword

/-- A decimal number with something behind it. -/
def number : Scan κ Decimal.Reading := do return Decimal.read (← word Byte.isDigit)

/-- A decimal number that may end with the input. -/
def numberOrEnd : Scan κ Decimal.Reading := do return Decimal.read (← wordOrEnd Byte.isDigit)

/-- A word that is there: it has a byte at least. -/
def nonEmpty? (word : Bytes) : Option Bytes := if word.isEmpty then none else some word

/-! ### Values -/

/-- The bytes in front of the first `stop`, which must come. -/
def upTo (stop : UInt8) : Scan κ Bytes := word (· != stop)

/-- The rest of a line, and the line feed behind it. -/
def line : Scan κ Bytes := do
  let text ← upTo Byte.lineFeed
  skip 1
  return text

/-- The bytes in front of the first `stop`, or all there are; and whether `stop` came. -/
def upToOrEnd (stop : Option UInt8) : Scan κ (Bytes × Bool) := do
  let taken ← wordOrEnd fun b => some b != stop
  return (taken, (← peek?).isSome)

/-- What there is of a value of announced length. -/
inductive Portion where
  /-- All of it. -/
  | whole (value : Bytes)
  /-- The input ended first; all bytes of it, fewer than announced. -/
  | part (value : Bytes)
deriving DecidableEq, Repr

/-- Takes a value of `n` bytes, or as much of it as there is. -/
def take (n : Nat) : Scan κ Portion := fun input =>
  if n ≤ input.length then .done (.whole (input.take n)) n else .done (.part input) input.length

/-- Goes on with a value of which `n` bytes are missing; there must be something to go on
    with. -/
def takeOn (n : Nat) : Scan κ Portion := do
  let _ ← peek
  take n

end Scan

end PacketWire
