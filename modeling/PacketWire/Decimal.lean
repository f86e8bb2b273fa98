import PacketWire.Bytes

namespace PacketWire.Decimal

/-!
# Decimal numbers on the wire

Lengths and list indices are written in decimal. The writer uses no leading zeros; the
reader takes any number of them, and tells numbers of 64 bits from larger ones, which no
peer can mean.
-/

/-! ### Writing -/

/-- The digit `0` to `9` that stands for `n`, of which the last decimal place counts. -/
def digit (n : Nat) : UInt8 := 48 + (n % 10).toUInt8

/-- The decimal digits of a number, without leading zeros. -/
def digits (n : Nat) : Bytes :=
  if n < 10 then [digit n] else digits (n / 10) ++ [digit n]
termination_by n
decreasing_by omega

/-- How many decimal digits a number has. -/
def width (n : Nat) : Nat :=
  if n < 10 then 1 else width (n / 10) + 1
termination_by n
decreasing_by omega

/-! ### Reading -/

/-- The first number that does not fit into 64 bits. -/
abbrev bound : Nat := UInt64.size

/-- The number that a string of digits stands for. -/
def value (ds : Bytes) : Nat := ds.foldl (fun n d => 10 * n + (d.toNat - 48)) 0

/-- What a run of digits amounts to. -/
inductive Reading where
  /-- There are no digits. -/
  | absent
  /-- A number below `bound`. -/
  | number (n : Nat)
  /-- A number of more than 64 bits. -/
  | overflow
deriving DecidableEq, Repr

/-- The number, if it is one of 64 bits. -/
def Reading.number? : Reading → Option Nat
  | number n => some n
  | _ => none

/-- A number that may be left out: what was read unless it is too large. -/
def Reading.optional? : Reading → Option (Option Nat)
  | absent => some none
  | number n => some (some n)
  | overflow => none

/-- The number itself, if it is one of 64 bits. -/
def fit? (n : Nat) : Option Nat := if n < bound then some n else none

/-- The number with one more digit behind it. Neither the product nor the sum may go beyond 64
    bits, and what has gone beyond does not come back. -/
def push? (n? : Option Nat) (d : UInt8) : Option Nat := do
  let n ← n?
  let tens ← fit? (n * 10)
  fit? (tens + (d.toNat - 48))

/-- The number that digits stand for, made from the first one on, if it is one of 64 bits. -/
def accumulate? (ds : Bytes) : Option Nat := ds.foldl push? (some 0)

/-- Reads a run of digits. -/
def read (ds : Bytes) : Reading :=
  if ds.isEmpty then .absent
  else
    match accumulate? ds with
    | some n => .number n
    | none => .overflow

/-! ### Sums of lengths -/

/-- The sum of two lengths, or the largest number of 64 bits where the sum is no such number. -/
def cappedAdd (a b : Nat) : Nat := min (a + b) (bound - 1)

/-! ### The reader undoes the writer -/

/-- The digits are ten bytes in a row. -/
private theorem digit_toNat (n : Nat) : (digit n).toNat = 48 + n % 10 := by
  have h : n % 10 < 10 := Nat.mod_lt _ (by omega)
  have h' : (n % 10).toUInt8.toNat = n % 10 := by
    rw [Nat.toUInt8, UInt8.toNat_ofNat']
    omega
  rw [digit, UInt8.toNat_add, h']
  show (48 + n % 10) % 256 = _
  omega

/-- One more digit makes ten times as much, and the digit. -/
theorem value_append_singleton (ds : Bytes) (d : UInt8) :
    value (ds ++ [d]) = 10 * value ds + (d.toNat - 48) := by
  simp [value]

/-- The digits of a number stand for it. -/
theorem value_digits (n : Nat) : value (digits n) = n := by
  fun_induction digits n with
  | case1 n h =>
    simp only [value, List.foldl_cons, List.foldl_nil, digit_toNat]
    omega
  | case2 n h ih =>
    rw [value_append_singleton, ih, digit_toNat]
    omega

/-- A number has as many digits as its width says. -/
theorem length_digits (n : Nat) : (digits n).length = width n := by
  fun_induction digits n with
  | case1 n h => rw [width, if_pos h]; rfl
  | case2 n h ih => rw [width, if_neg h, List.length_append, ih]; rfl

end PacketWire.Decimal
