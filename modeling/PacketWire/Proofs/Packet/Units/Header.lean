import PacketWire.Packet.Parser
import PacketWire.Proofs.Packet.Found

namespace PacketWire.Packet

open Scan

/-!
# Units of the header

The routing modifiers and the length line are told by relations between their text, the bytes behind
it, and what they tell. The scans find exactly these (`scanRouting_eq_some_iff`,
`scanLengthLine_eq_done_iff`), and where there is no routing modifier the next byte tells so.
-/

variable {input : Bytes} {n : Nat} {e : Event}

/-! ### Routing modifiers -/

theorem scanRouting_eq_some_iff :
    scanRouting input = .done (some e) n ↔
      ∃ m text rest, PlainSpelled m text ∧ e = .routing m ∧ input = text ++ rest ∧
        n = text.length := by
  rw [scanRouting, bind_eq_done_iff]
  constructor
  · rintro ⟨b, j, k, hpeek, hk, rfl⟩
    obtain ⟨rfl, tail, rfl⟩ := peek_eq_done_iff.1 hpeek
    cases hoper : Operator.ofGlyph? b with
    | none =>
      simp only [hoper] at hk
      cases hk
    | some oper =>
      obtain rfl := Operator.ofGlyph?_eq_some_iff.1 hoper
      simp only [hoper] at hk
      obtain ⟨name, j, _, hname, hl, rfl⟩ := bind_eq_done_iff.1 hk
      obtain ⟨value, k, _, hvalue, hpure, rfl⟩ := bind_eq_done_iff.1 hl
      cases hpure
      obtain ⟨text, rest, hm, hi, hn⟩ := plainSpelled_of_scan hname hvalue
      exact ⟨_, text, rest, hm, rfl, hi, by omega⟩
  · rintro ⟨⟨oper, name, value⟩, text, rest, hm, rfl, rfl, rfl⟩
    obtain ⟨c, tail, k, -, hi, hname, hvalue, hn⟩ := @scan_of_plainSpelled _ _ _ _ rest hm
    refine ⟨oper.glyph, 0, text.length, peek_eq_done_iff.2 ⟨rfl, _, hi⟩, ?_, by omega⟩
    simp only [Operator.ofGlyph?_glyph, List.drop_zero]
    refine bind_eq_done_iff.2 ⟨name, name.length + 1, k, hname, ?_, hn⟩
    refine bind_eq_done_iff.2 ⟨value, k, 0, ?_, rfl, rfl⟩
    rw [hi, List.drop_succ_cons, List.drop_left]
    exact hvalue

theorem scanRouting_eq_none_iff :
    scanRouting input = .done none n ↔
      n = 0 ∧ ∃ b rest, Operator.ofGlyph? b = none ∧ input = b :: rest := by
  rw [scanRouting, bind_eq_done_iff]
  constructor
  · rintro ⟨b, j, k, hpeek, hk, rfl⟩
    obtain ⟨rfl, tail, rfl⟩ := peek_eq_done_iff.1 hpeek
    cases hoper : Operator.ofGlyph? b with
    | none =>
      simp only [hoper] at hk
      cases hk
      exact ⟨rfl, b, tail, hoper, rfl⟩
    | some oper =>
      simp only [hoper] at hk
      obtain ⟨name, j, _, hname, hl, rfl⟩ := bind_eq_done_iff.1 hk
      obtain ⟨value, k, _, hvalue, hpure, rfl⟩ := bind_eq_done_iff.1 hl
      cases hpure
  · rintro ⟨rfl, b, rest, hb, rfl⟩
    refine ⟨b, 0, 0, peek_eq_done_iff.2 ⟨rfl, rest, rfl⟩, ?_, rfl⟩
    simp only [hb]
    rfl

/-! ### The length line -/

/-- The ways to tell, or not to tell, the length of the content, by the text of the length line and
    the bytes behind it. -/
inductive LengthUnit : Bytes → Bytes → LengthLine → Prop where
  /-- The closing line comes in its place. -/
  | absent {rest : Bytes} : LengthUnit [] (Byte.pipe :: rest) .absent
  /-- An empty line. -/
  | untold {rest : Bytes} : LengthUnit [Byte.lineFeed] rest .untold
  /-- A numeral. -/
  | told {length : Nat} {digits rest : Bytes} :
      Numeral length digits → LengthUnit (digits ++ [Byte.lineFeed]) rest (.told length)

theorem scanLengthLine_eq_done_iff {line : LengthLine} :
    scanLengthLine input = .done line n ↔
      ∃ text rest, LengthUnit text rest line ∧ input = text ++ rest ∧ n = text.length := by
  rw [scanLengthLine, bind_eq_done_iff]
  constructor
  · rintro ⟨length, j, k, hlen, hk, rfl⟩
    obtain ⟨r, hr, hmake⟩ := expect_eq_done_iff.1 hlen
    obtain ⟨ds, hread, rfl, hall, c, rest, hc, rfl⟩ := number_eq_done_iff.1 hr
    rw [List.drop_left] at hk
    obtain ⟨rfl, rfl⟩ | ⟨length, rfl, rfl⟩ := Decimal.optional?_eq_some_iff.1 hmake
    -- without digits the next byte tells whether there is a length line
    · obtain rfl := Decimal.read_eq_absent_iff.1 hread.symm
      obtain ⟨b, i, l, hpeek, hl, rfl⟩ := bind_eq_done_iff.1 hk
      obtain ⟨rfl, _, hb⟩ := peek_eq_done_iff.1 hpeek
      obtain ⟨rfl, rfl⟩ := List.cons.inj hb
      by_cases hpipe : c = Byte.pipe
      · subst hpipe
        rw [if_pos rfl] at hl
        cases hl
        exact ⟨[], _, .absent, rfl, rfl⟩
      · rw [if_neg hpipe] at hl
        obtain ⟨behind, i, hb, hi, rfl⟩ := byte_bind_eq_done_iff.1 hl
        obtain ⟨rfl, rfl⟩ := List.cons.inj hb
        cases hi
        exact ⟨_, _, .untold, rfl, rfl⟩
    · have hnum := (Decimal.read_eq_number_iff hall).1 hread.symm
      obtain ⟨behind, i, hb, hi, rfl⟩ := byte_bind_eq_done_iff.1 hk
      obtain ⟨rfl, rfl⟩ := List.cons.inj hb
      cases hi
      exact ⟨_, rest, .told hnum, by simp, by simp⟩
  · rintro ⟨text, rest, hline, rfl, rfl⟩
    cases hline with
    | absent => exact ⟨none, 0, 0, rfl, rfl, rfl⟩
    | untold => exact ⟨none, 0, 1, rfl, rfl, rfl⟩
    | @told length digits rest hnum =>
      refine ⟨some length, digits.length, 1, expect_eq_done_iff.2 ⟨.number length, ?_, rfl⟩, ?_,
        by simp⟩
      · have hread := ((Decimal.read_eq_number_iff hnum.isDigit).2 hnum).symm
        exact number_eq_done_iff.2 ⟨digits, hread, rfl, hnum.isDigit, Byte.lineFeed, rest,
          by decide, by simp⟩
      · rw [List.append_assoc, List.drop_left]
        exact byte_bind_eq_done_iff.2 ⟨rest, 0, rfl, rfl, rfl⟩

end PacketWire.Packet
