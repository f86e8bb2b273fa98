import PacketWire.Spelling

namespace PacketWire.Decimal

/-!
# Numerals

The digits that are written for a number of 64 bits are a numeral for it, and a number is read off
its numerals. A numeral is told apart from what is around it by its bytes. Digits are read one by
one within 64 bits, and amount to what the number they stand for tells (`accumulate?_eq`,
`read_eq`).
-/

variable {n : Nat} {b : UInt8} {digits rest rest' : Bytes}

/-- What is written for a digit is one. -/
theorem isDigit_digit (n : Nat) : Byte.isDigit (digit n) := by
  -- a digit is looked up among the ten that there are
  have hall : ∀ d < 10, Byte.isDigit (48 + Nat.toUInt8 d) := by decide
  exact hall (n % 10) (Nat.mod_lt _ (by decide))

/-- A number is written with nothing but digits. -/
theorem isDigit_of_mem_digits (h : b ∈ Decimal.digits n) : Byte.isDigit b := by
  induction n using digits.induct with
  | case1 n hn =>
    rw [Decimal.digits, if_pos hn, List.mem_singleton] at h
    exact h ▸ isDigit_digit n
  | case2 n hn ih =>
    rw [Decimal.digits, if_neg hn, List.mem_append, List.mem_singleton] at h
    rcases h with h | rfl
    · exact ih h
    · exact isDigit_digit n

/-- Every number is written with a digit at least. -/
theorem digits_ne_nil (n : Nat) : Decimal.digits n ≠ [] := by
  rw [Decimal.digits]
  split <;> simp

/-- The digits of a number of 64 bits are a numeral. -/
theorem numeral_digits (h : n < bound) : Numeral n (Decimal.digits n) where
  nonempty := digits_ne_nil n
  isDigit _ := isDigit_of_mem_digits
  value := value_digits n
  lt_bound := h

/-- Nothing but digits stands in a numeral. -/
theorem notMem_of_numeral (h : Numeral n digits) (hb : Byte.isDigit b = false) : b ∉ digits :=
  fun hmem => by rw [h.isDigit b hmem] at hb; cases hb

/-- A numeral starts with a digit, and thus with no other byte. -/
theorem append_ne_cons_of_numeral (h : Numeral n digits) (hb : Byte.isDigit b = false) :
    digits ++ rest ≠ b :: rest' := by
  intro hi
  cases digits with
  | nil => exact h.nonempty rfl
  | cons d digits =>
    obtain ⟨rfl, -⟩ := List.cons.inj hi
    exact notMem_of_numeral h hb List.mem_cons_self

/-! ### Beginnings -/

/-- Digits stand for no less with more of them behind. -/
theorem value_le_append (front back : Bytes) : value front ≤ value (front ++ back) := by
  induction back generalizing front with
  | nil => exact Nat.le_of_eq (by rw [List.append_nil])
  | cons d back ih =>
    have hle := ih (front ++ [d])
    rw [value_append_singleton, List.append_assoc] at hle
    exact Nat.le_trans (by omega) hle

/-- The first digits of a numeral are one, too. -/
theorem exists_numeral_of_append {front back : Bytes} (h : Numeral n (front ++ back))
    (hne : front ≠ []) : ∃ k, Numeral k front := by
  refine ⟨value front, hne, fun b hb => h.isDigit b (List.mem_append_left _ hb), rfl, ?_⟩
  have hle := value_le_append front back
  rw [h.value] at hle
  exact Nat.lt_of_le_of_lt hle h.lt_bound

/-! ### Digit by digit -/

/-- A number below the bound fits. -/
theorem fit?_of_lt (h : n < bound) : fit? n = some n := if_pos h

/-- A number from the bound on does not fit. -/
theorem fit?_of_le (h : bound ≤ n) : fit? n = none := if_neg (Nat.not_lt_of_le h)

/-- A number to which a digit is added fits where the sum does: a product that goes beyond 64 bits
    is not brought back by the digit. -/
theorem push?_fit? (n : Nat) (d : UInt8) : push? (fit? n) d = fit? (10 * n + (d.toNat - 48)) := by
  by_cases hn : n < bound
  · rw [fit?_of_lt hn, push?, Option.bind_eq_bind, Option.bind_some]
    by_cases htens : n * 10 < bound
    · rw [fit?_of_lt htens, Option.bind_some, Nat.mul_comm]
    · rw [fit?_of_le (Nat.le_of_not_lt htens), Option.bind_none, fit?_of_le (by omega)]
  · rw [fit?_of_le (Nat.le_of_not_lt hn), fit?_of_le (by omega)]
    rfl

/-- To check each step is to check the number at the end. -/
theorem foldl_push? (n : Nat) (ds : Bytes) :
    ds.foldl push? (fit? n) = fit? (ds.foldl (fun n d => 10 * n + (d.toNat - 48)) n) := by
  induction ds generalizing n with
  | nil => rfl
  | cons d ds ih => rw [List.foldl_cons, List.foldl_cons, push?_fit?, ih]

/-- Adding digit by digit, with a check at each, is one check of the number they stand for. -/
theorem accumulate?_eq (ds : Bytes) : accumulate? ds = fit? (value ds) := by
  have hzero : fit? 0 = some 0 := fit?_of_lt (by decide)
  rw [accumulate?, ← hzero, foldl_push?]
  rfl

/-! ### Readings -/

/-- What a run of digits amounts to is told by the number that it stands for. -/
theorem read_eq (ds : Bytes) :
    read ds =
      if ds.isEmpty then .absent
      else if value ds < bound then .number (value ds)
      else .overflow := by
  rw [read, accumulate?_eq]
  by_cases hlt : value ds < bound
  · rw [fit?_of_lt hlt, if_pos hlt]
  · rw [fit?_of_le (Nat.le_of_not_lt hlt), if_neg hlt]

/-- A number is read off its numerals. -/
theorem read_eq_number_iff {ds : Bytes} (hall : ∀ b ∈ ds, Byte.isDigit b) :
    read ds = .number n ↔ Numeral n ds := by
  rw [read_eq]
  constructor
  · intro h
    split at h
    · cases h
    · next hne =>
      split at h
      · next hlt =>
        cases h
        exact ⟨by simpa using hne, hall, rfl, hlt⟩
      · cases h
  · rintro ⟨hne, -, rfl, hlt⟩
    rw [if_neg (by simpa using hne), if_pos hlt]

/-- No number is read where there are no digits, and only there. -/
theorem read_eq_absent_iff {ds : Bytes} : read ds = .absent ↔ ds = [] := by
  rw [read_eq]
  cases ds with
  | nil => simp
  | cons d ds =>
    simp only [List.isEmpty_cons, Bool.false_eq_true, if_false, reduceCtorEq, iff_false]
    split <;> nofun

/-- The digits are too many for 64 bits just if their number does not fit. -/
theorem read_eq_overflow_iff {ds : Bytes} : read ds = .overflow ↔ bound ≤ value ds := by
  rw [read_eq]
  cases ds with
  | nil => exact ⟨nofun, fun h => absurd h (by decide)⟩
  | cons d ds =>
    rw [List.isEmpty_cons, if_neg Bool.false_ne_true, ← Nat.not_lt]
    split
    · next hlt => exact ⟨nofun, fun h => absurd hlt h⟩
    · next hle => exact ⟨fun _ => hle, fun _ => rfl⟩

/-- A number is told only by a reading that is one. -/
theorem number?_eq_some_iff {r : Reading} : r.number? = some n ↔ r = .number n := by
  cases r <;> simp [Reading.number?]

/-- A number that may be missing is told by its absence or by a reading. -/
theorem optional?_eq_some_iff {r : Reading} {o : Option Nat} :
    r.optional? = some o ↔ (r = .absent ∧ o = none) ∨ ∃ n, r = .number n ∧ o = some n := by
  cases r <;> simp [Reading.optional?, eq_comm]

end PacketWire.Decimal
