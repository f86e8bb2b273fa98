import PacketWire.Scan

namespace PacketWire

/-!
# What scans find

A scan that is done with a value has found a way to write it, and what follows tells that it ends
there. For every elementary scan this is said in both directions (`word_eq_done_iff` and others),
and for scans in a row by `Scan.bind_eq_done_iff`.
-/

namespace Outcome

variable {κ α : Type}

/-- Behind more bytes, the same value has been found with as many more. -/
theorem shift_eq_done_iff {o : Outcome κ α} {a : α} {n k : Nat} :
    o.shift n = .done a k ↔ ∃ j, o = .done a j ∧ k = n + j := by
  cases o with
  | done b j => simp [shift, and_assoc, eq_comm]
  | more => simp [shift]
  | fault f => simp [shift]

end Outcome

namespace Scan

variable {κ α β : Type} {scan : Scan κ α} {next : α → Scan κ β} {input : Bytes}

/-! ### Scans in a row -/

/-- A scan goes on at the bytes behind what the one before it took. -/
theorem bind_of_done {a : α} {n : Nat} (h : scan input = .done a n) :
    (scan >>= next) input = (next a (input.drop n)).shift n := by
  rw [bind_apply, h]

/-- A scan that needs more makes the whole row need more. -/
theorem bind_of_more (h : scan input = .more) : (scan >>= next) input = .more := by
  rw [bind_apply, h]

/-- A fault ends a row of scans. -/
theorem bind_of_fault {f : Fault κ} (h : scan input = .fault f) :
    (scan >>= next) input = .fault f := by
  rw [bind_apply, h]

/-- Scans in a row are done when each of them is, one behind the other. -/
theorem bind_eq_done_iff {b : β} {n : Nat} :
    (scan >>= next) input = .done b n ↔
      ∃ a j k, scan input = .done a j ∧ next a (input.drop j) = .done b k ∧ n = j + k := by
  rw [bind_apply]
  cases scan input with
  | more => simp
  | fault f => simp
  | done a j =>
    simp only [Outcome.shift_eq_done_iff, Outcome.done.injEq]
    constructor
    · rintro ⟨k, hk, rfl⟩
      exact ⟨a, j, k, ⟨rfl, rfl⟩, hk, rfl⟩
    · rintro ⟨_, _, k, ⟨rfl, rfl⟩, hk, rfl⟩
      exact ⟨k, hk, rfl⟩

/-- Something can be made of what has been found. -/
theorem expect_eq_done_iff {make : α → Option β} {cause : κ} {b : β} {n : Nat} :
    expect scan make cause input = .done b n ↔ ∃ a, scan input = .done a n ∧ make a = some b := by
  unfold expect
  cases scan input with
  | more => simp
  | fault f => simp
  | done a j =>
    cases hm : make a with
    | none =>
      simp only [hm, Outcome.done.injEq, reduceCtorEq, false_iff, not_exists]
      rintro _ ⟨⟨rfl, rfl⟩, h⟩
      rw [hm] at h
      cases h
    | some c =>
      simp only [hm, Outcome.done.injEq]
      constructor
      · rintro ⟨rfl, rfl⟩
        exact ⟨a, ⟨rfl, rfl⟩, hm⟩
      · rintro ⟨_, ⟨rfl, rfl⟩, h⟩
        rw [hm] at h
        exact ⟨Option.some.inj h, rfl⟩

/-- A word that has to be there is any word but the empty one. -/
theorem nonEmpty?_eq_some_iff {word word' : Bytes} :
    nonEmpty? word = some word' ↔ word = word' ∧ word ≠ [] := by
  unfold nonEmpty?
  cases word <;> simp

/-- What is measured is what the scan took. -/
theorem measured_eq_done_iff {a : α} {k n : Nat} :
    scan.measured input = .done (a, k) n ↔ scan input = .done a n ∧ k = n := by
  unfold measured
  cases scan input with
  | more => simp
  | fault f => simp
  | done b j =>
    simp only [Outcome.done.injEq, Prod.mk.injEq]
    constructor
    · rintro ⟨⟨rfl, rfl⟩, rfl⟩
      exact ⟨⟨rfl, rfl⟩, rfl⟩
    · rintro ⟨⟨rfl, rfl⟩, rfl⟩
      exact ⟨⟨rfl, rfl⟩, rfl⟩

/-! ### Bytes that are skipped -/

/-- Where there are enough bytes, all of them are skipped. -/
theorem skip_of_le {n : Nat} (h : n ≤ input.length) :
    (skip n : Scan κ Unit) input = .done () n := by
  rw [skip, Nat.min_eq_left h]

/-- Skipping a byte leaves the scan with the bytes behind it. -/
theorem skip_bind_cons {b : UInt8} {rest : Bytes} :
    (do skip 1; scan) (b :: rest) = (scan rest).shift 1 :=
  bind_of_done (skip_of_le (by simp))

/-- A byte is skipped in front of a scan that asks for more where there is nothing. -/
theorem skip_bind_eq_done_iff (hnil : scan [] = .more) {a : α} {n : Nat} :
    (do skip 1; scan) input = .done a n ↔
      ∃ b rest k, input = b :: rest ∧ scan rest = .done a k ∧ n = k + 1 := by
  cases input with
  | nil =>
    have h : (do skip 1; scan) [] = (scan []).shift 0 := rfl
    rw [h, hnil]
    simp [Outcome.shift]
  | cons b rest =>
    rw [skip_bind_cons, Outcome.shift_eq_done_iff]
    constructor
    · rintro ⟨k, hk, rfl⟩
      exact ⟨b, rest, k, rfl, hk, Nat.add_comm 1 k⟩
    · rintro ⟨_, _, k, hi, hk, rfl⟩
      obtain ⟨rfl, rfl⟩ := List.cons.inj hi
      exact ⟨k, hk, Nat.add_comm k 1⟩

/-! ### Elementary scans -/

/-- The next byte is found where there is one, and stays where it is. -/
theorem peek_eq_done_iff {b : UInt8} {n : Nat} :
    (peek : Scan κ UInt8) input = .done b n ↔ n = 0 ∧ ∃ rest, input = b :: rest := by
  cases input with
  | nil => simp [peek]
  | cons c rest => simp [peek, eq_comm, and_comm]

/-- The byte after the next one is found where there are two. -/
theorem peekSecond_eq_done_iff {b : UInt8} {n : Nat} :
    (peekSecond : Scan κ UInt8) input = .done b n ↔ n = 0 ∧ ∃ a rest, input = a :: b :: rest := by
  match input with
  | [] => simp [peekSecond]
  | [_] => simp [peekSecond]
  | _ :: _ :: _ => simp [peekSecond, eq_comm, and_comm]

/-- A byte that has to come is taken, and any other byte is a fault. -/
theorem byte_cons {b c : UInt8} {cause : κ} {rest : Bytes} :
    byte b cause (c :: rest) = if c = b then .done () 1 else .fault ⟨cause, 0⟩ := by
  have hbyte : byte b cause (c :: rest) =
      ((if c = b then skip 1 else fault cause : Scan κ Unit) (c :: rest)).shift 0 := rfl
  rw [hbyte, Outcome.shift_zero]
  split
  · exact skip_of_le (by simp)
  · rfl

/-- A byte that has to come has come. -/
theorem byte_eq_done_iff {b : UInt8} {cause : κ} {u : Unit} {n : Nat} :
    byte b cause input = .done u n ↔ n = 1 ∧ ∃ rest, input = b :: rest := by
  cases input with
  | nil => simp [byte, bind_apply, peek]
  | cons c rest =>
    rw [byte_cons]
    by_cases hc : c = b
    · simp [hc, eq_comm]
    · simp [hc]

/-- A byte that comes is taken. -/
theorem byte_bind_cons {b : UInt8} {cause : κ} {rest : Bytes} :
    (do byte b cause; scan) (b :: rest) = (scan rest).shift 1 :=
  bind_of_done (byte_eq_done_iff.2 ⟨rfl, rest, rfl⟩ : byte b cause (b :: rest) = .done () 1)

/-- A byte that has to come, in front of a scan. -/
theorem byte_bind_eq_done_iff {b : UInt8} {cause : κ} {a : α} {n : Nat} :
    (do byte b cause; scan) input = .done a n ↔
      ∃ rest k, input = b :: rest ∧ scan rest = .done a k ∧ n = k + 1 := by
  rw [bind_eq_done_iff]
  constructor
  · rintro ⟨_, j, k, hb, hk, rfl⟩
    obtain ⟨rfl, rest, rfl⟩ := byte_eq_done_iff.1 hb
    exact ⟨rest, k, rfl, hk, Nat.add_comm 1 k⟩
  · rintro ⟨rest, k, rfl, hk, rfl⟩
    exact ⟨(), 1, k, byte_eq_done_iff.2 ⟨rfl, rest, rfl⟩, hk, Nat.add_comm k 1⟩

/-- A word is what is in the class, in front of a byte that is not. -/
theorem word_eq_done_iff {class? : UInt8 → Bool} {w : Bytes} {n : Nat} :
    (word class? : Scan κ Bytes) input = .done w n ↔
      n = w.length ∧ (∀ b ∈ w, class? b) ∧ ∃ c rest, class? c = false ∧ input = w ++ c :: rest := by
  constructor
  · intro h
    rw [word] at h
    split at h
    · next hlt =>
      cases h
      -- what follows the word is there, and is not of the class
      have hw : input.takeWhile class? ++ input.dropWhile class? = input :=
        List.takeWhile_append_dropWhile
      cases hd : input.dropWhile class? with
      | nil =>
        rw [hd, List.append_nil] at hw
        rw [hw] at hlt
        exact absurd hlt (Nat.lt_irrefl _)
      | cons c rest =>
        have hc : class? c = false := by
          have := List.head?_dropWhile_not class? input
          rw [hd] at this
          simpa using this
        exact ⟨rfl, List.all_eq_true.1 List.all_takeWhile, c, rest, hc, by rw [← hd, hw]⟩
    · cases h
  · rintro ⟨rfl, hall, c, rest, hc, rfl⟩
    -- the bytes of the class end at `c`
    have hw : (w ++ c :: rest).takeWhile class? = w := by
      rw [List.takeWhile_append_of_pos hall, List.takeWhile_cons_of_neg (by simp [hc]),
        List.append_nil]
    rw [word, hw, if_pos (by simp)]

/-- A keyword ends in front of a byte that belongs to none. -/
theorem keyword_eq_done_iff {w : Bytes} {n : Nat} :
    (keyword : Scan κ Bytes) input = .done w n ↔
      n = w.length ∧ (∀ b ∈ w, Byte.isKeyword b) ∧
        ∃ c rest, Byte.isKeyword c = false ∧ input = w ++ c :: rest := word_eq_done_iff

/-- A number is read off all digits there are, in front of another byte. -/
theorem number_eq_done_iff {r : Decimal.Reading} {n : Nat} :
    (number : Scan κ Decimal.Reading) input = .done r n ↔
      ∃ ds, r = Decimal.read ds ∧ n = ds.length ∧ (∀ b ∈ ds, Byte.isDigit b) ∧
        ∃ c rest, Byte.isDigit c = false ∧ input = ds ++ c :: rest := by
  rw [number, bind_eq_done_iff]
  constructor
  · rintro ⟨ds, j, k, hw, hk, rfl⟩
    cases hk
    obtain ⟨rfl, hall, hrest⟩ := word_eq_done_iff.1 hw
    exact ⟨ds, rfl, rfl, hall, hrest⟩
  · rintro ⟨ds, rfl, rfl, hall, hrest⟩
    exact ⟨ds, ds.length, 0, word_eq_done_iff.2 ⟨rfl, hall, hrest⟩, rfl, rfl⟩

/-- The rest of a line is what stands in front of the first line feed. -/
theorem line_eq_done_iff {text : Bytes} {n : Nat} :
    (line : Scan κ Bytes) input = .done text n ↔
      n = text.length + 1 ∧ Byte.lineFeed ∉ text ∧
        ∃ rest, input = text ++ Byte.lineFeed :: rest := by
  constructor
  · intro h
    obtain ⟨w, j, k, hw, hk, rfl⟩ := bind_eq_done_iff.1 h
    obtain ⟨rfl, hall, c, rest, hc, rfl⟩ := word_eq_done_iff.1 hw
    obtain rfl : c = Byte.lineFeed := by simpa using hc
    rw [List.drop_left, bind_of_done (skip_of_le (by simp))] at hk
    cases hk
    exact ⟨rfl, fun hm => by simpa using hall _ hm, rest, rfl⟩
  · rintro ⟨rfl, hl, rest, rfl⟩
    refine bind_eq_done_iff.2 ⟨text, text.length, 1, ?_, ?_, rfl⟩
    · exact word_eq_done_iff.2 ⟨rfl, fun b hb => bne_iff_ne.2 fun he => hl (he ▸ hb),
        Byte.lineFeed, rest, by simp, rfl⟩
    · rw [List.drop_left, bind_of_done (skip_of_le (by simp))]
      rfl

/-! ### Scans that may end with the input -/

/-- A word of bytes of this class ends in front of these bytes. -/
def Stops (class? : UInt8 → Bool) (rest : Bytes) : Prop :=
  ∀ b, rest.head? = some b → class? b = false

/-- The end of the input stops every class. -/
theorem stops_nil {class? : UInt8 → Bool} : Stops class? [] := nofun

/-- A class stops at a byte that is not in it. -/
theorem stops_cons_iff {class? : UInt8 → Bool} {b : UInt8} {rest : Bytes} :
    Stops class? (b :: rest) ↔ class? b = false := by
  simp [Stops]

/-- What stops a class stops it in front of more as well. -/
theorem Stops.append {class? : UInt8 → Bool} {rest more : Bytes} (h : Stops class? rest)
    (hmore : Stops class? more) : Stops class? (rest ++ more) := by
  cases rest with
  | nil => exact hmore
  | cons b rest => exact stops_cons_iff.2 (stops_cons_iff.1 h)

/-- What can be told from the next byte, or from its absence, is told without taking it. -/
theorem peek?_bind {next : Option UInt8 → Scan κ β} :
    (peek? >>= next) input = next input.head? input := by
  rw [bind_of_done (by rfl), List.drop_zero, Outcome.shift_zero]

/-- A word may end with the input, or in front of what stops its class. -/
theorem wordOrEnd_eq_done_iff {class? : UInt8 → Bool} {w : Bytes} {n : Nat} :
    (wordOrEnd class? : Scan κ Bytes) input = .done w n ↔
      n = w.length ∧ (∀ b ∈ w, class? b) ∧ ∃ rest, Stops class? rest ∧ input = w ++ rest := by
  constructor
  · intro h
    cases h
    have hsplit : input.takeWhile class? ++ input.dropWhile class? = input :=
      List.takeWhile_append_dropWhile
    refine ⟨rfl, List.all_eq_true.1 List.all_takeWhile, input.dropWhile class?, ?_, hsplit.symm⟩
    intro b hb
    have hnot := List.head?_dropWhile_not class? input
    rw [hb] at hnot
    exact hnot
  · rintro ⟨rfl, hall, rest, hrest, rfl⟩
    have hnil : rest.takeWhile class? = [] := by
      cases rest with
      | nil => rfl
      | cons b rest => exact List.takeWhile_cons_of_neg (by simp [stops_cons_iff.1 hrest])
    have hw : (w ++ rest).takeWhile class? = w := by
      rw [List.takeWhile_append_of_pos hall, hnil, List.append_nil]
    rw [wordOrEnd, hw]

/-- A number may end with the input, or in front of what is no digit. -/
theorem numberOrEnd_eq_done_iff {r : Decimal.Reading} {n : Nat} :
    (numberOrEnd : Scan κ Decimal.Reading) input = .done r n ↔
      ∃ ds rest, r = Decimal.read ds ∧ n = ds.length ∧ (∀ b ∈ ds, Byte.isDigit b) ∧
        Stops Byte.isDigit rest ∧ input = ds ++ rest := by
  rw [numberOrEnd, bind_eq_done_iff]
  constructor
  · rintro ⟨ds, j, k, hw, hk, rfl⟩
    cases hk
    obtain ⟨rfl, hall, rest, hrest, rfl⟩ := wordOrEnd_eq_done_iff.1 hw
    exact ⟨ds, rest, rfl, rfl, hall, hrest, rfl⟩
  · rintro ⟨ds, rest, rfl, rfl, hall, hrest, rfl⟩
    exact ⟨ds, ds.length, 0, wordOrEnd_eq_done_iff.2 ⟨rfl, hall, rest, hrest, rfl⟩, rfl, rfl⟩

/-! ### Values of announced length -/

/-- A value is there as a whole where as many bytes are. -/
theorem take_eq_whole_iff {n k : Nat} {value : Bytes} :
    (take n : Scan κ Portion) input = .done (.whole value) k ↔
      k = n ∧ value.length = n ∧ ∃ rest, input = value ++ rest := by
  rw [take]
  constructor
  · intro h
    split at h
    · next hle =>
      cases h
      exact ⟨rfl, by simp [hle], input.drop n, (List.take_append_drop n input).symm⟩
    · cases h
  · rintro ⟨rfl, rfl, rest, rfl⟩
    rw [if_pos (by simp), List.take_left]

/-- Of a value that is longer than the input all of the input is taken. -/
theorem take_eq_part_iff {n k : Nat} {value : Bytes} :
    (take n : Scan κ Portion) input = .done (.part value) k ↔
      value = input ∧ k = input.length ∧ input.length < n := by
  rw [take]
  constructor
  · intro h
    split at h
    · cases h
    · next hlt =>
      cases h
      exact ⟨rfl, rfl, Nat.lt_of_not_le hlt⟩
  · rintro ⟨rfl, rfl, hlt⟩
    rw [if_neg (Nat.not_le_of_lt hlt)]

/-- A value goes on where there is something to go on with. -/
theorem takeOn_eq_done_iff {n k : Nat} {portion : Portion} :
    (takeOn n : Scan κ Portion) input = .done portion k ↔
      input ≠ [] ∧ take n input = (.done portion k : Outcome κ Portion) := by
  cases input with
  | nil => simp [takeOn, bind_apply, peek]
  | cons b rest =>
    have h : (takeOn n : Scan κ Portion) (b :: rest) = (take n (b :: rest)).shift 0 := rfl
    rw [h, Outcome.shift_zero]
    simp

end Scan

end PacketWire
