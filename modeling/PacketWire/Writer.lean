import PacketWire.Decimal

namespace PacketWire

/-!
# Filling a slice

What is sent is written into a slice that was made for it. The writer starts at the front of the
slice and knows how far it has come; it fails where bytes would go beyond the end.
-/

/-- A slice that is being filled. -/
structure Writer where
  /-- The bytes of the slice. -/
  slice : Bytes
  /-- How many of them have been written. -/
  pos : Nat
deriving DecidableEq, Repr

/-- What fills a part of a slice, or fails. -/
abbrev Write : Type := StateT Writer Option Unit

namespace Write

/-- Copies bytes. -/
def put (bytes : Bytes) : Write := fun w =>
  let stop := w.pos + bytes.length
  if stop ≤ w.slice.length then
    some ((), ⟨w.slice.take w.pos ++ bytes ++ w.slice.drop stop, stop⟩)
  else none

/-- Writes one byte. -/
def byte (b : UInt8) : Write := fun w =>
  if w.pos < w.slice.length then some ((), ⟨w.slice.set w.pos b, w.pos + 1⟩) else none

/-- Sets the places behind a position to the last digits of a number, from the last place on. -/
def setDigits (slice : Bytes) (pos : Nat) : Nat → Nat → Bytes
  | 0, _ => slice
  | places + 1, n => setDigits (slice.set (pos + places) (Decimal.digit n)) pos places (n / 10)

/-- Writes a number. -/
def number (n : Nat) : Write := fun w =>
  let width := Decimal.width n
  if w.pos + width ≤ w.slice.length then
    some ((), ⟨setDigits w.slice w.pos width n, w.pos + width⟩)
  else none

/-- Writes something that may be left out. -/
def onlyIf (needed : Bool) (m : Write) : Write := if needed then m else pure ()

end Write

end PacketWire
