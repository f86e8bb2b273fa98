import PacketWire.Proofs.Scan.Found

namespace PacketWire.Scan

/-!
# When scans ask for more

A scan asks for more where the input ends inside what it looks for. For every elementary scan this
is said by an equivalence (`word_eq_more_iff` and others), and for scans in a row by
`bind_eq_more_iff`.
-/

variable {κ α β : Type} {scan : Scan κ α} {next : α → Scan κ β} {input : Bytes}

/-! ### Scans in a row -/

/-- Scans in a row need more if one of them does, where those before are done. -/
theorem bind_eq_more_iff :
    (scan >>= next) input = .more ↔
      scan input = .more ∨ ∃ a n, scan input = .done a n ∧ next a (input.drop n) = .more := by
  rw [bind_apply]
  cases scan input with
  | more => simp
  | fault f => simp
  | done a n =>
    simp only [reduceCtorEq, Outcome.done.injEq, false_or]
    constructor
    · intro h
      refine ⟨a, n, ⟨rfl, rfl⟩, ?_⟩
      cases hn : next a (input.drop n) with
      | more => rfl
      | done b k => rw [hn] at h; cases h
      | fault f => rw [hn] at h; cases h
    · rintro ⟨_, _, ⟨rfl, rfl⟩, h⟩
      rw [h]
      rfl

/-- What is expected of a value does not matter before it is found. -/
theorem expect_eq_more_iff {make : α → Option β} {cause : κ} :
    expect scan make cause input = .more ↔ scan input = .more := by
  unfold expect
  cases scan input with
  | more => simp
  | fault f => simp
  | done a n => cases hm : make a <;> simp [hm]

/-- Measuring needs no more than what is measured. -/
theorem measured_eq_more_iff : scan.measured input = .more ↔ scan input = .more := by
  unfold measured
  cases scan input <;> simp

/-- A scan that asks for more where there is nothing does so behind a byte that is skipped, too. -/
theorem skip_bind_eq_more_iff (hnil : scan [] = .more) :
    (do skip 1; scan) input = .more ↔ scan input.tail = .more := by
  rw [bind_eq_more_iff]
  cases input with
  | nil => simp [skip, hnil]
  | cons b rest => simp [skip]

/-! ### Elementary scans -/

/-- The next byte is asked for where there is none. -/
theorem peek_eq_more_iff : (peek : Scan κ UInt8) input = .more ↔ input = [] := by
  cases input <;> simp [peek]

/-- The byte after the next one is asked for where there are not two. -/
theorem peekSecond_eq_more_iff :
    (peekSecond : Scan κ UInt8) input = .more ↔ input.length < 2 := by
  match input with
  | [] => simp [peekSecond]
  | [_] => simp [peekSecond]
  | _ :: _ :: _ => simp [peekSecond]

/-- A byte that has to come is asked for where there is none. -/
theorem byte_eq_more_iff {b : UInt8} {cause : κ} : byte b cause input = .more ↔ input = [] := by
  cases input with
  | nil => simp [byte, bind_apply, peek]
  | cons c rest =>
    rw [byte_cons]
    split <;> simp

/-- A word may go on where all bytes are in the class. -/
theorem word_eq_more_iff {class? : UInt8 → Bool} :
    (word class? : Scan κ Bytes) input = .more ↔ ∀ b ∈ input, class? b := by
  rw [word]
  constructor
  · intro h
    split at h
    · cases h
    · next hge =>
      have hprefix : input.takeWhile class? <+: input := List.takeWhile_prefix class?
      rw [← hprefix.eq_of_length_le (Nat.le_of_not_lt hge)]
      exact List.all_eq_true.1 List.all_takeWhile
  · intro hall
    have htake : (input ++ []).takeWhile class? = input ++ [].takeWhile class? :=
      List.takeWhile_append_of_pos hall
    rw [List.append_nil, List.takeWhile_nil, List.append_nil] at htake
    rw [htake, if_neg (Nat.lt_irrefl _)]

/-- A keyword may go on where all bytes belong to one. -/
theorem keyword_eq_more_iff :
    (keyword : Scan κ Bytes) input = .more ↔ ∀ b ∈ input, Byte.isKeyword b := word_eq_more_iff

/-- A number may go on where all bytes are digits. -/
theorem number_eq_more_iff :
    (number : Scan κ Decimal.Reading) input = .more ↔ ∀ b ∈ input, Byte.isDigit b := by
  rw [number, bind_eq_more_iff, word_eq_more_iff, or_iff_left]
  rintro ⟨_, _, -, hpure⟩
  cases hpure

/-- A line may go on where there is no line feed. -/
theorem line_eq_more_iff : (line : Scan κ Bytes) input = .more ↔ Byte.lineFeed ∉ input := by
  rw [line, bind_eq_more_iff, or_iff_left]
  · rw [upTo, word_eq_more_iff]
    constructor
    · intro hall hmem
      exact absurd (hall _ hmem) (by simp)
    · intro hl b hb
      exact bne_iff_ne.2 fun he => hl (he ▸ hb)
  · rintro ⟨_, _, -, h⟩
    obtain h | ⟨_, _, -, hpure⟩ := bind_eq_more_iff.1 h
    · cases h
    · cases hpure

/-- Of a value there is always a part, be it empty. -/
theorem take_ne_more {n : Nat} : (take n : Scan κ Portion) input ≠ .more := by
  intro h
  rw [take] at h
  split at h <;> cases h

end PacketWire.Scan
