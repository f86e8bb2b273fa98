import PacketWire.Packet.Spelling
import PacketWire.Proofs.Decimal
import PacketWire.Proofs.Packet.Lines
import PacketWire.Proofs.Scan.Found

namespace PacketWire.Packet

open Scan

/-!
# What the scans for lines find

A name, a value and a length are found where they are written as `Spelled` allows it: that is said
here for the lines of a packet, each scan by an equivalence.
-/

variable {input name value digits text : Bytes} {n length : Nat} {oper : Operator} {m : Modifier}

/-! ### Words -/

/-- A name is a keyword behind one byte, in front of what is no part of it. -/
theorem scanName_eq_done_iff :
    scanName input = .done name n ↔
      n = name.length + 1 ∧ isKeyword name ∧
        ∃ b c rest, Byte.isKeyword c = false ∧ input = b :: (name ++ c :: rest) := by
  rw [scanName, expect_eq_done_iff, isKeyword_iff]
  constructor
  · rintro ⟨word, hword, hword'⟩
    obtain ⟨rfl, hne⟩ := nonEmpty?_eq_some_iff.1 hword'
    obtain ⟨b, rest, k, rfl, hk, rfl⟩ := (skip_bind_eq_done_iff rfl).1 hword
    obtain ⟨rfl, hall, c, behind, hc, rfl⟩ := keyword_eq_done_iff.1 hk
    exact ⟨rfl, ⟨hne, hall⟩, b, c, behind, hc, rfl⟩
  · rintro ⟨rfl, ⟨hne, hall⟩, b, c, rest, hc, rfl⟩
    refine ⟨name, ?_, nonEmpty?_eq_some_iff.2 ⟨rfl, hne⟩⟩
    exact (skip_bind_eq_done_iff rfl).2
      ⟨b, _, name.length, rfl, keyword_eq_done_iff.2 ⟨rfl, hall, c, rest, hc, rfl⟩, rfl⟩

/-- A value on a line stands behind a tab; without a tab it is empty. -/
theorem scanLineValue_eq_done_iff :
    scanLineValue input = .done value n ↔
      (value = [] ∧ n = 1 ∧ ∃ rest, input = Byte.lineFeed :: rest) ∨
        (n = value.length + 2 ∧ Byte.lineFeed ∉ value ∧
          ∃ rest, input = Byte.tab :: (value ++ Byte.lineFeed :: rest)) := by
  cases input with
  | nil => simp [scanLineValue, bind_apply, peek]
  | cons b rest =>
    have hstart : scanLineValue (b :: rest) =
        ((if b = Byte.tab then (do skip 1; line)
          else if b = Byte.lineFeed then (do skip 1; return [])
          else fault .noTab : Scan Cause Bytes) (b :: rest)).shift 0 := rfl
    rw [hstart, Outcome.shift_zero]
    -- By the first byte: a value behind a tab, no value at a line feed, or a fault.
    by_cases htab : b = Byte.tab
    · subst htab
      rw [if_pos rfl, skip_bind_eq_done_iff rfl]
      constructor
      · rintro ⟨_, _, k, hi, hk, rfl⟩
        obtain ⟨-, rfl⟩ := List.cons.inj hi
        obtain ⟨rfl, hl, behind, rfl⟩ := line_eq_done_iff.1 hk
        exact .inr ⟨rfl, hl, behind, rfl⟩
      · rintro (⟨-, -, behind, hi⟩ | ⟨rfl, hl, behind, hi⟩)
        · exact absurd (List.cons.inj hi).1 (by decide)
        · obtain ⟨-, rfl⟩ := List.cons.inj hi
          exact ⟨_, _, value.length + 1, rfl, line_eq_done_iff.2 ⟨rfl, hl, behind, rfl⟩, rfl⟩
    · rw [if_neg htab]
      by_cases hlf : b = Byte.lineFeed
      · subst hlf
        have hskip : (do skip 1; return [] : Scan Cause Bytes) (Byte.lineFeed :: rest) =
            .done [] 1 := bind_of_done (skip_of_le (by simp))
        rw [if_pos rfl, hskip]
        constructor
        · intro h
          cases h
          exact .inl ⟨rfl, rfl, rest, rfl⟩
        · rintro (⟨rfl, rfl, -⟩ | ⟨-, -, behind, hi⟩)
          · rfl
          · exact absurd (List.cons.inj hi).1 (by decide)
      · rw [if_neg hlf]
        constructor
        · intro h
          cases h
        · rintro (⟨-, -, behind, hi⟩ | ⟨-, -, behind, hi⟩)
          · exact absurd (List.cons.inj hi).1 hlf
          · exact absurd (List.cons.inj hi).1 htab

/-- Digits in front of a byte that is none are read as a number. -/
theorem scanLength_eq_done_iff {cause : Cause} :
    expect number Decimal.Reading.number? cause input = .done length n ↔
      ∃ digits c rest, Numeral length digits ∧ Byte.isDigit c = false ∧
        input = digits ++ c :: rest ∧ n = digits.length := by
  rw [expect_eq_done_iff]
  constructor
  · rintro ⟨r, hr, hlen⟩
    obtain rfl := Decimal.number?_eq_some_iff.1 hlen
    obtain ⟨ds, hread, rfl, hall, c, rest, hc, rfl⟩ := number_eq_done_iff.1 hr
    exact ⟨ds, c, rest, (Decimal.read_eq_number_iff hall).1 hread.symm, hc, rfl, rfl⟩
  · rintro ⟨ds, c, rest, hnum, hc, rfl, rfl⟩
    have hread := ((Decimal.read_eq_number_iff hnum.isDigit).2 hnum).symm
    exact ⟨.number length, number_eq_done_iff.2 ⟨ds, hread, rfl, hnum.isDigit, c, rest, hc, rfl⟩,
      rfl⟩

/-- A length is a numeral behind one byte, in front of a tab. -/
theorem scanValueLength_eq_done_iff :
    scanValueLength input = .done length n ↔
      ∃ b digits rest, Numeral length digits ∧ input = b :: (digits ++ Byte.tab :: rest) ∧
        n = digits.length + 2 := by
  rw [scanValueLength, skip_bind_eq_done_iff rfl]
  constructor
  · rintro ⟨b, rest, k, rfl, hk, rfl⟩
    obtain ⟨length', j, l, hlen, hl, rfl⟩ := bind_eq_done_iff.1 hk
    obtain ⟨digits, c, behind, hnum, hc, rfl, rfl⟩ := scanLength_eq_done_iff.1 hlen
    rw [List.drop_left] at hl
    obtain ⟨behind, i, hb, hi, rfl⟩ := byte_bind_eq_done_iff.1 hl
    cases hi
    obtain ⟨rfl, rfl⟩ := List.cons.inj hb
    exact ⟨b, digits, _, hnum, rfl, rfl⟩
  · rintro ⟨b, digits, rest, hnum, rfl, rfl⟩
    refine ⟨b, digits ++ Byte.tab :: rest, digits.length + 1, rfl, ?_, rfl⟩
    refine bind_eq_done_iff.2 ⟨length, digits.length, 1, ?_, ?_, rfl⟩
    · exact scanLength_eq_done_iff.2 ⟨digits, Byte.tab, rest, hnum, by decide, rfl, rfl⟩
    · rw [List.drop_left]
      exact byte_bind_eq_done_iff.2 ⟨rest, 0, rfl, rfl, rfl⟩

/-! ### Heads of modifiers -/

/-- No glyph stands for two operators. -/
theorem glyph_inj {oper' : Operator} (h : oper.glyph = oper'.glyph) : oper = oper' := by
  have hsome := Operator.ofGlyph?_glyph oper
  rw [h, Operator.ofGlyph?_glyph] at hsome
  exact (Option.some.inj hsome).symm

/-- The line of a modifier up to its value, where the length of the value is told. -/
def countedHead (oper : Operator) (name digits : Bytes) : Bytes :=
  oper.glyph :: name ++ Byte.space :: digits ++ [Byte.tab]

/-- What a name and a value without a length have been found in is a way to write them. -/
theorem plainSpelled_of_scan {tail : Bytes} {j k : Nat}
    (hname : scanName (oper.glyph :: tail) = .done name j)
    (hvalue : scanLineValue ((oper.glyph :: tail).drop j) = .done value k) :
    ∃ text rest, PlainSpelled ⟨oper, name, value⟩ text ∧ oper.glyph :: tail = text ++ rest ∧
      j + k = text.length := by
  obtain ⟨rfl, hk, b, c, rest, -, hi⟩ := scanName_eq_done_iff.1 hname
  obtain ⟨rfl, rfl⟩ := List.cons.inj hi
  rw [List.drop_succ_cons, List.drop_left] at hvalue
  obtain ⟨rfl, rfl, behind, hrest⟩ | ⟨rfl, hl, behind, hrest⟩ := scanLineValue_eq_done_iff.1 hvalue
  · exact ⟨_, behind, .bare hk, by simp [hrest], by simp⟩
  · exact ⟨_, behind, .valued hk hl, by simp [hrest], by simp; omega⟩

/-- A name and a value without a length are found where they are written. -/
theorem scan_of_plainSpelled {rest : Bytes} (h : PlainSpelled ⟨oper, name, value⟩ text) :
    ∃ c tail k, (c = Byte.lineFeed ∨ c = Byte.tab) ∧
      text ++ rest = oper.glyph :: (name ++ c :: tail) ∧
      scanName (text ++ rest) = .done name (name.length + 1) ∧
      scanLineValue (c :: tail) = .done value k ∧ text.length = name.length + 1 + k := by
  have hname : ∀ c tail, Byte.isKeyword c = false → isKeyword name →
      scanName (oper.glyph :: (name ++ c :: tail)) = .done name (name.length + 1) :=
    fun c tail hc hk => scanName_eq_done_iff.2 ⟨rfl, hk, oper.glyph, c, tail, hc, rfl⟩
  cases h with
  | bare hk =>
    refine ⟨Byte.lineFeed, rest, 1, .inl rfl, by simp, ?_, ?_, by simp⟩
    · simpa using hname Byte.lineFeed rest (by decide) hk
    · exact scanLineValue_eq_done_iff.2 (.inl ⟨rfl, rfl, rest, rfl⟩)
  | valued hk hl =>
    refine ⟨Byte.tab, value ++ Byte.lineFeed :: rest, value.length + 2, .inr rfl, by simp, ?_, ?_,
      by simp; omega⟩
    · simpa using hname Byte.tab (value ++ Byte.lineFeed :: rest) (by decide) hk
    · exact scanLineValue_eq_done_iff.2 (.inr ⟨rfl, hl, rest, rfl⟩)

/-- A modifier has no length where its name is followed by no space. -/
theorem scanEntityHead_eq_plain_iff :
    scanEntityHead input = .done (name, none) n ↔
      scanName input = .done name n ∧ ∃ b rest, b ≠ Byte.space ∧ input.drop n = b :: rest := by
  rw [scanEntityHead, bind_eq_done_iff]
  constructor
  · rintro ⟨name', j, k, hname, hk, rfl⟩
    obtain ⟨b, i, l, hpeek, hl, rfl⟩ := bind_eq_done_iff.1 hk
    obtain ⟨rfl, rest, hrest⟩ := peek_eq_done_iff.1 hpeek
    by_cases hb : b = Byte.space
    · rw [if_pos hb] at hl
      obtain ⟨_, _, _, _, hpure, rfl⟩ := bind_eq_done_iff.1 hl
      cases hpure
    · rw [if_neg hb] at hl
      cases hl
      exact ⟨hname, b, rest, hb, hrest⟩
  · rintro ⟨hname, b, rest, hb, hrest⟩
    refine ⟨name, n, 0, hname, bind_eq_done_iff.2 ⟨b, 0, 0, ?_, ?_, rfl⟩, rfl⟩
    · exact peek_eq_done_iff.2 ⟨rfl, rest, hrest⟩
    · rw [if_neg hb]
      rfl

/-- A modifier has a length where its name is followed by a space. -/
theorem scanEntityHead_eq_counted_iff :
    scanEntityHead input = .done (name, some length) n ↔
      ∃ j k, scanName input = .done name j ∧ (∃ rest, input.drop j = Byte.space :: rest) ∧
        scanValueLength (input.drop j) = .done length k ∧ n = j + k := by
  rw [scanEntityHead, bind_eq_done_iff]
  constructor
  · rintro ⟨name', j, k, hname, hk, rfl⟩
    obtain ⟨b, i, l, hpeek, hl, rfl⟩ := bind_eq_done_iff.1 hk
    obtain ⟨rfl, rest, hrest⟩ := peek_eq_done_iff.1 hpeek
    by_cases hb : b = Byte.space
    · subst hb
      rw [if_pos rfl] at hl
      obtain ⟨length', i, _, hlen, hpure, rfl⟩ := bind_eq_done_iff.1 hl
      cases hpure
      exact ⟨j, i, hname, ⟨rest, hrest⟩, hlen, by omega⟩
    · rw [if_neg hb] at hl
      cases hl
  · rintro ⟨j, k, hname, ⟨rest, hrest⟩, hlen, rfl⟩
    refine ⟨name, j, k, hname, bind_eq_done_iff.2 ⟨Byte.space, 0, k, ?_, ?_, by omega⟩, rfl⟩
    · exact peek_eq_done_iff.2 ⟨rfl, rest, hrest⟩
    · rw [if_pos rfl]
      exact bind_eq_done_iff.2 ⟨length, k, 0, hlen, rfl, rfl⟩

/-- The head of a modifier with a length. -/
theorem scanEntityHead_eq_head_iff {tail : Bytes} :
    scanEntityHead (oper.glyph :: tail) = .done (name, some length) n ↔
      ∃ digits rest, isKeyword name ∧ Numeral length digits ∧
        oper.glyph :: tail = countedHead oper name digits ++ rest ∧
        n = (countedHead oper name digits).length := by
  rw [scanEntityHead_eq_counted_iff]
  constructor
  · rintro ⟨j, k, hname, ⟨_, hsp⟩, hlen, rfl⟩
    obtain ⟨rfl, hk, b, c, rest, -, hi⟩ := scanName_eq_done_iff.1 hname
    obtain ⟨rfl, rfl⟩ := List.cons.inj hi
    rw [List.drop_succ_cons, List.drop_left] at hsp hlen
    obtain ⟨rfl, rfl⟩ := List.cons.inj hsp
    obtain ⟨_, digits, behind, hnum, hrest, rfl⟩ := scanValueLength_eq_done_iff.1 hlen
    obtain ⟨-, rfl⟩ := List.cons.inj hrest
    exact ⟨digits, behind, hk, hnum, by simp [countedHead], by simp [countedHead]; omega⟩
  · rintro ⟨digits, rest, hk, hnum, hi, rfl⟩
    rw [hi]
    -- behind the name the head goes on with the space and the digits
    have hhead : countedHead oper name digits ++ rest =
        oper.glyph :: (name ++ Byte.space :: (digits ++ Byte.tab :: rest)) := by
      simp [countedHead]
    have hdrop : (countedHead oper name digits ++ rest).drop (name.length + 1) =
        Byte.space :: (digits ++ Byte.tab :: rest) := by
      rw [hhead, List.drop_succ_cons, List.drop_left]
    refine ⟨name.length + 1, digits.length + 2, ?_, ⟨_, hdrop⟩, ?_, by simp [countedHead]; omega⟩
    · exact scanName_eq_done_iff.2
        ⟨rfl, hk, oper.glyph, Byte.space, digits ++ Byte.tab :: rest, by decide, hhead⟩
    · rw [hdrop]
      exact scanValueLength_eq_done_iff.2 ⟨Byte.space, digits, rest, hnum, rfl, rfl⟩

end PacketWire.Packet
