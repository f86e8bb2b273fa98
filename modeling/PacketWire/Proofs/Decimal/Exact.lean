import PacketWire.Proofs.Decimal
import PacketWire.Proofs.Scan.Found
import PacketWire.Proofs.Writer
import Mathlib.Data.Nat.Log

namespace PacketWire.Decimal

/-!
# Numbers of 64 bits on the wire

A number is written in as many places as it has decimal digits, and without zeros in front
(`IsWritten`). Of a run of digits of any length it is told which number of 64 bits it stands for, or
that there is no such number (`Reading.Tells`). So what is written is read back, by both scans for
numbers, whatever ends the digits (`written_and_read_exactly`).
-/

/-- This text is written for the number. -/
structure IsWritten (n : Nat) (text : Bytes) : Prop where
  /-- It comes into the next places of a slice, and nothing else is changed. -/
  writes : Write.Writes (Write.number n) text
  /-- It has as many places as the number is wide. -/
  length_eq : text.length = width n
  /-- The width is the number of decimal places of the number, and one for zero. -/
  width_eq : width n = Nat.log 10 n + 1
  /-- There are only digits. -/
  isDigit : ∀ b ∈ text, Byte.isDigit b
  /-- Only zero starts with a zero. -/
  eq_zero : text.head? = some (digit 0) → n = 0
  /-- The digits stand for the number. -/
  value_eq : value text = n

/-- What is told of a run of digits: that there are none, or the number that they stand for, or that
    this is beyond 64 bits. -/
structure Reading.Tells (r : Reading) (ds : Bytes) : Prop where
  /-- There are no digits. -/
  absent : r = .absent ↔ ds = []
  /-- There are digits, and they stand for a number of 64 bits. -/
  number : ∀ n, r = .number n ↔ ds ≠ [] ∧ value ds = n ∧ n < bound
  /-- The number is one of more than 64 bits. -/
  overflow : r = .overflow ↔ bound ≤ value ds

variable {n : Nat} {ds rest : Bytes}

/-! ### Writing -/

/-- The number of digits is the logarithm to base ten, and one. -/
theorem width_eq_log (n : Nat) : width n = Nat.log 10 n + 1 := by
  induction n using width.induct with
  | case1 n hn => rw [width, if_pos hn, Nat.log_of_lt hn]
  | case2 n hn ih =>
    rw [width, if_neg hn, ih, Nat.log_of_one_lt_of_le (by decide) (Nat.le_of_not_lt hn)]

/-- Only zero is written with a zero in front. -/
theorem eq_zero_of_head? (h : (digits n).head? = some (digit 0)) : n = 0 := by
  have hdigit : ∀ k < 10, some (digit k) = some (digit 0) → k = 0 := by decide
  induction n using digits.induct with
  | case1 n hn =>
    rw [digits, if_pos hn, List.head?_singleton] at h
    exact hdigit n hn h
  | case2 n hn ih =>
    -- the first digit is that of `n / 10`, which is not zero
    obtain ⟨d, ds, hds⟩ := List.exists_cons_of_ne_nil (digits_ne_nil (n / 10))
    rw [digits, if_neg hn, hds, List.cons_append, List.head?_cons] at h
    rw [hds, List.head?_cons] at ih
    have hzero := ih h
    omega

/-- The digits of a number are as a number should be written. -/
theorem isWritten_digits (n : Nat) : IsWritten n (digits n) where
  writes := Write.writes_number
  length_eq := length_digits n
  width_eq := width_eq_log n
  isDigit _ := isDigit_of_mem_digits
  eq_zero := eq_zero_of_head?
  value_eq := value_digits n

/-! ### Reading -/

/-- What is read of digits is what they stand for. -/
theorem tells_read (hds : ∀ b ∈ ds, Byte.isDigit b) : (read ds).Tells ds where
  absent := read_eq_absent_iff
  number n := by
    rw [read_eq_number_iff hds]
    exact ⟨fun h => ⟨h.nonempty, h.value, h.lt_bound⟩,
      fun ⟨hne, hvalue, hlt⟩ => ⟨hne, hds, hvalue, hlt⟩⟩
  overflow := read_eq_overflow_iff

variable {κ : Type}

/-- Digits are read up to the byte behind them, or up to the end. -/
theorem numberOrEnd_append (hds : ∀ b ∈ ds, Byte.isDigit b)
    (hrest : Scan.Stops Byte.isDigit rest) :
    (Scan.numberOrEnd : Scan κ Reading) (ds ++ rest) = .done (read ds) ds.length :=
  Scan.numberOrEnd_eq_done_iff.2 ⟨ds, rest, rfl, rfl, hds, hrest, rfl⟩

/-- Digits with a byte behind them are read up to it. -/
theorem number_append (hds : ∀ b ∈ ds, Byte.isDigit b) (hrest : Scan.Stops Byte.isDigit rest)
    (hne : rest ≠ []) :
    (Scan.number : Scan κ Reading) (ds ++ rest) = .done (read ds) ds.length := by
  obtain ⟨c, rest, rfl⟩ := List.exists_cons_of_ne_nil hne
  exact Scan.number_eq_done_iff.2
    ⟨ds, rfl, rfl, hds, c, rest, Scan.stops_cons_iff.1 hrest, rfl⟩

/-- A number that is written is read back. -/
theorem read_digits (hn : n < bound) : read (digits n) = .number n :=
  (read_eq_number_iff fun _ => isDigit_of_mem_digits).2 (numeral_digits hn)

/-! ### Both -/

/-- Every number of 64 bits is written in its decimal digits. Every run of digits is read up to its
    end, as the number that it stands for where that is one of 64 bits, and as too large where it is
    not; so each number is read back from what is written for it. -/
theorem written_and_read_exactly (hn : n < bound) (hds : ∀ b ∈ ds, Byte.isDigit b)
    (hrest : Scan.Stops Byte.isDigit rest) :
    IsWritten n (digits n) ∧
      (∃ r : Reading, r.Tells ds ∧
        (Scan.numberOrEnd : Scan κ Reading) (ds ++ rest) = .done r ds.length ∧
        (rest ≠ [] → (Scan.number : Scan κ Reading) (ds ++ rest) = .done r ds.length)) ∧
      (Scan.numberOrEnd : Scan κ Reading) (digits n ++ rest) = .done (.number n) (width n) ∧
      (rest ≠ [] →
        (Scan.number : Scan κ Reading) (digits n ++ rest) = .done (.number n) (width n)) := by
  have hdigits : ∀ b ∈ digits n, Byte.isDigit b := fun _ => isDigit_of_mem_digits
  refine ⟨isWritten_digits n, ⟨read ds, tells_read hds, numberOrEnd_append hds hrest,
    number_append hds hrest⟩, ?_, fun hne => ?_⟩
  · rw [numberOrEnd_append hdigits hrest, read_digits hn, length_digits]
  · rw [number_append hdigits hrest hne, read_digits hn, length_digits]

/-- The largest number is written in twenty places and read back; the next one, with zeros in front,
    is too large for both scans. -/
theorem written_and_read_exactly_at_bound :
    18446744073709551615 < bound ∧
      (∀ b ∈ Bytes.ofText "00018446744073709551616", Byte.isDigit b) ∧
      Scan.Stops Byte.isDigit [Byte.tab] ∧
      IsWritten 18446744073709551615 (digits 18446744073709551615) ∧
      (Scan.numberOrEnd : Scan Unit Reading) (Bytes.ofText "00018446744073709551616\t") =
        .done .overflow 23 ∧
      (Scan.number : Scan Unit Reading) (Bytes.ofText "00018446744073709551616\t") =
        .done .overflow 23 ∧
      (Scan.number : Scan Unit Reading) (Bytes.ofText "18446744073709551615\t") =
        .done (.number 18446744073709551615) 20 := by
  have hn : 18446744073709551615 < bound := by decide
  have hds : ∀ b ∈ Bytes.ofText "00018446744073709551616", Byte.isDigit b := by decide +kernel
  have hrest : Scan.Stops Byte.isDigit [Byte.tab] := Scan.stops_cons_iff.2 (by decide)
  obtain ⟨hwritten, ⟨r, htells, hend, hbyte⟩, -, hback⟩ :=
    @written_and_read_exactly _ _ _ Unit hn hds hrest
  obtain rfl : r = .overflow := htells.overflow.2 (by decide +kernel)
  have hdigits : digits 18446744073709551615 = Bytes.ofText "18446744073709551615" := by
    simp [digits]
    decide +kernel
  rw [hdigits] at hback
  have hwidth : width 18446744073709551615 = 20 := by simp [width]
  rw [hwidth] at hback
  exact ⟨hn, hds, hrest, hwritten, hend, hbyte (by decide), hback (by decide)⟩

end PacketWire.Decimal
