import PacketWire.Writer

namespace PacketWire

/-!
# Things that are sent

Whatever is sent has a size that is computed without writing it. A sender writes into a buffer of
its own, which is left alone where it is too short, or appends to what it has. Either way a slice
of the computed size is filled; the writer fails if it would go beyond this slice, or does not come
to its end.
-/

/-- Types of things that are sent. -/
class Sendable (α : Type) where
  /-- How many bytes are sent. -/
  wireSize : α → Nat
  /-- Writes the bytes that are sent. -/
  write : α → Write

/-- The size of a sequence, from the sizes of its members. -/
def totalSize {α : Type} (size : α → Nat) : List α → Nat
  | [] => 0
  | a :: as => size a + totalSize size as

/-- A sequence has the size that `totalSize` computes, if its members have theirs. -/
theorem length_flatMap_eq_totalSize {α : Type} {size : α → Nat} {wire : α → Bytes} {as : List α}
    (h : ∀ a ∈ as, (wire a).length = size a) :
    (as.flatMap wire).length = totalSize size as := by
  induction as with
  | nil => rfl
  | cons a as ih =>
    rw [List.flatMap_cons, List.length_append, totalSize, h a (List.mem_cons_self ..),
      ih fun b hb => h b (List.mem_cons_of_mem a hb)]

/-- Each member of a sequence is at most as large as the sequence. -/
theorem le_totalSize {α : Type} {size : α → Nat} {a : α} {as : List α} (h : a ∈ as) :
    size a ≤ totalSize size as := by
  induction as with
  | nil => cases h
  | cons b as ih =>
    rw [totalSize]
    rcases List.mem_cons.1 h with rfl | h
    · exact Nat.le_add_right _ _
    · exact Nat.le_trans (ih h) (Nat.le_add_left _ _)

/-- A buffer is too short for what is to be written into it. -/
structure ShortBuffer where
  /-- The size of what is to be written. -/
  needed : Nat
  /-- The size of the buffer. -/
  available : Nat
deriving DecidableEq, Repr

/-- What is said of a buffer that is too short. -/
def ShortBuffer.message (e : ShortBuffer) : String :=
  "buffer too small: need " ++ toString e.needed ++ " bytes, have " ++ toString e.available

namespace Sendable

variable {α : Type} [Sendable α]

/-- Fills a slice of the computed size, and fails if it is not full afterwards. -/
def fill (a : α) (slice : Bytes) : Option Bytes := do
  let ((), w) ← (write a).run ⟨slice, 0⟩
  if w.pos = wireSize a then some w.slice else none

/-- Fills the start of a buffer, if it is long enough. -/
def render (a : α) (buffer : Bytes) : Option (Except ShortBuffer Nat × Bytes) := do
  if buffer.length < wireSize a then
    return (.error ⟨wireSize a, buffer.length⟩, buffer)
  else
    let filled ← fill a (buffer.take (wireSize a))
    return (.ok (wireSize a), filled ++ buffer.drop (wireSize a))

/-- Fills a slice that is made at the end of a buffer. -/
def encode (a : α) (sent : Bytes) : Option Bytes := do
  let filled ← fill a (List.replicate (wireSize a) 0)
  return sent ++ filled

/-- Fills a buffer of its own. -/
def toBytes (a : α) : Option Bytes := encode a []

end Sendable

end PacketWire
