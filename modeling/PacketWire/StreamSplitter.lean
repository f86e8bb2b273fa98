import PacketWire.Bytes
import PacketWire.Keystream

namespace PacketWire

/-!
# Splitting streams at random

Networks deliver streams in chunks of any size. A splitter makes such chunks from a seed, so that
a split can be made again.
-/

/-- A source of chunks. -/
structure StreamSplitter where
  /-- The key of the keystream that decides on the lengths. -/
  key : Keystream.Key
  /-- How many draws have been made. -/
  drawn : Nat := 0
  /-- The greatest length of a chunk; never zero. -/
  maxChunk : Nat

namespace StreamSplitter

/-- A splitter into chunks of up to `maxChunk` bytes. -/
def ofSeed (seed : UInt64) (maxChunk : Nat) : StreamSplitter where
  key := Keystream.keyOfSeed seed
  maxChunk := max maxChunk 1

/-- A number below `range` from a draw. The draws are mapped onto the range in equal shares, and
    the draws that are left over give nothing. -/
def pick? (range : Nat) (draw : UInt64) : Option Nat :=
  let share := range <<< (63 - range.log2)
  let product := draw.toNat * range
  if product % UInt64.size < share then some (product / UInt64.size) else none

/-- The first of at most `tries` draws that gives a number below `maxChunk`. -/
def pickWithin (s : StreamSplitter) : Nat → Option (Nat × StreamSplitter)
  | 0 => none
  | tries + 1 =>
    let rest := { s with drawn := s.drawn + 1 }
    match pick? s.maxChunk (Keystream.draw s.key s.drawn) with
    | some n => some (n, rest)
    | none => pickWithin rest tries

/-- The next number below `maxChunk`. After a whole period of draws that give nothing, none ever
    will. -/
def pick (s : StreamSplitter) : Option (Nat × StreamSplitter) := s.pickWithin Keystream.period

/-- The chunks of a stream, and the splitter for the next stream. A chunk has one byte, and up to
    `maxChunk - 1` more. -/
def split (s : StreamSplitter) : Bytes → Option (List Bytes × StreamSplitter)
  | [] => some ([], s)
  | b :: stream => do
    let (more, s) ← s.pick
    let (chunks, s) ← s.split (stream.drop more)
    return ((b :: stream.take more) :: chunks, s)
termination_by stream => stream.length
decreasing_by simp only [List.length_drop, List.length_cons]; omega

end StreamSplitter

end PacketWire
