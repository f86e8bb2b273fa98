namespace PacketWire

/-!
# A reproducible source of random words

The words are the keystream of ChaCha with eight rounds. The key is drawn from a seed of 64 bits
by a congruential generator whose output is permuted; the counter starts at zero, and the nonce is
zero.
-/

namespace Keystream

/-- The key of a keystream. -/
abbrev Key := Vector UInt32 8

/-! ### The key -/

/-- The state after a given one. -/
def nextState (state : UInt64) : UInt64 := state * 6364136223846793005 + 11634580027462260723

/-- The output that belongs to a state: a word of it, turned by its highest bits. -/
def output (state : UInt64) : UInt32 :=
  let word := (((state >>> 18) ^^^ state) >>> 27).toUInt32
  let turn := (state >>> 59).toUInt32
  (word >>> turn) ||| (word <<< ((32 - turn) % 32))

/-- The state after `n` steps. -/
def stateAfter (seed : UInt64) : Nat → UInt64
  | 0 => seed
  | n + 1 => nextState (stateAfter seed n)

/-- The key that belongs to a seed. -/
def keyOfSeed (seed : UInt64) : Key := .ofFn fun i => output (stateAfter seed (i.val + 1))

/-! ### The blocks -/

/-- The words of a block. -/
abbrev Block := Vector UInt32 16

/-- A word turned to the left. -/
def rotateLeft (word count : UInt32) : UInt32 := (word <<< count) ||| (word >>> (32 - count))

/-- One step of a quarter round: adds a word to another, and turns a third one that takes up the
    sum. -/
def mix (s : Block) (a b d : Fin 16) (count : UInt32) : Block :=
  let s := s.set a (s[a] + s[b])
  s.set d (rotateLeft (s[d] ^^^ s[a]) count)

/-- A quarter round on four words. -/
def quarterRound (s : Block) (a b c d : Fin 16) : Block :=
  mix (mix (mix (mix s a b d 16) c d b 12) a b d 8) c d b 7

/-- A round on the columns, and one on the diagonals. -/
def doubleRound (s : Block) : Block :=
  let s := quarterRound s 0 4 8 12
  let s := quarterRound s 1 5 9 13
  let s := quarterRound s 2 6 10 14
  let s := quarterRound s 3 7 11 15
  let s := quarterRound s 0 5 10 15
  let s := quarterRound s 1 6 11 12
  let s := quarterRound s 2 7 8 13
  quarterRound s 3 4 9 14

/-- What a block is made from: four fixed words, the key, the counter, and two zeros. -/
def input (key : Key) (counter : UInt64) : Block :=
  (#v[0x61707865, 0x3320646e, 0x79622d32, 0x6b206574] : Vector UInt32 4) ++ key ++
    (#v[counter.toUInt32, (counter >>> 32).toUInt32, 0, 0] : Vector UInt32 4)

/-- The block that belongs to a counter. -/
def block (key : Key) (counter : UInt64) : Block :=
  let start := input key counter
  let mixed := doubleRound (doubleRound (doubleRound (doubleRound start)))
  .zipWith (· + ·) start mixed

/-- The number of draws of 64 bits after which the counter is back at zero. -/
def period : Nat := 8 * UInt64.size

/-- The `n`-th draw of 64 bits: two words, the low one first. -/
def draw (key : Key) (n : Nat) : UInt64 :=
  let words := block key (n / 8).toUInt64
  let i := n % 8
  have h : i < 8 := Nat.mod_lt n (by decide)
  let low := words.get ⟨2 * i, by omega⟩
  let high := words.get ⟨2 * i + 1, by omega⟩
  low.toUInt64 ||| (high.toUInt64 <<< 32)

end Keystream

end PacketWire
