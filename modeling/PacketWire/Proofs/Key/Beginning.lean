import PacketWire.Proofs.Key
import PacketWire.Proofs.Scan.More

namespace PacketWire.Key

open Scan

/-!
# Beginnings of keys

Where the text of a key is cut, the closing brace is missing at least (`Cut`). The scan for keys
asks for more then, unless there is a key of told length or the first part of one (`Cut.inside`).
-/

variable {κ : Type} {text front back : Bytes} {key : Key}

/-- The beginning of a key in its braces, without the closing one. -/
inductive Cut : Bytes → Prop where
  /-- A key without its length. -/
  | delimited {value : Bytes} :
      Byte.closeBrace ∉ value → (∀ b, value.head? = some b → ¬ Byte.isDigit b) →
        Cut (Byte.openBrace :: value)
  /-- A length, without the space behind it. -/
  | length {digits : Bytes} {length : Nat} : Numeral length digits → Cut (Byte.openBrace :: digits)
  /-- A key of told length, or the first bytes of one. -/
  | counted {value digits : Bytes} {length : Nat} :
      Numeral length digits → value.length ≤ length →
        Cut (Byte.openBrace :: (digits ++ Byte.space :: value))

/-- The first bytes of a text without closing brace, or the first bytes of a number, start a key. -/
theorem cut_of_numeral {digits : Bytes} {length : Nat} (h : Numeral length (digits ++ back)) :
    Cut (Byte.openBrace :: digits) := by
  by_cases hne : digits = []
  · subst hne
    exact .delimited List.not_mem_nil nofun
  · obtain ⟨k, hnum⟩ := Decimal.exists_numeral_of_append h hne
    exact .length hnum

/-- The first bytes of the text of a key are none or all of them, or they lack the closing brace. -/
theorem Spelled.of_append (h : key.Spelled (front ++ back)) :
    front = [] ∨ back = [] ∨ Cut front := by
  cases front with
  | nil => exact .inl rfl
  | cons b front =>
    refine .inr ?_
    generalize htext : b :: front ++ back = text at h
    -- the last byte is the brace
    rcases List.eq_nil_or_concat back with rfl | ⟨back, c, rfl⟩
    · exact .inl rfl
    refine .inr ?_
    rw [List.concat_eq_append, ← List.append_assoc] at htext
    cases h with
    | @delimited value hbrace hhead =>
      obtain ⟨hinside, -⟩ := List.append_inj' htext rfl
      obtain rfl := (List.cons.inj hinside).1
      obtain rfl : front ++ back = value := (List.cons.inj hinside).2
      refine .delimited (fun hmem => hbrace (List.mem_append_left _ hmem)) fun d hd => hhead d ?_
      rw [List.head?_append, hd]
      rfl
    | @counted value digits hnum =>
      obtain ⟨hinside, -⟩ := List.append_inj' htext rfl
      obtain rfl := (List.cons.inj hinside).1
      have hinside : front ++ back = digits ++ Byte.space :: value := (List.cons.inj hinside).2
      -- the cut is inside the length, or in front of the space or behind it
      obtain ⟨rest, rfl, -⟩ | ⟨rest, rfl, hrest⟩ := List.append_eq_append_iff.1 hinside
      · exact cut_of_numeral hnum
      · cases rest with
        | nil =>
          have hnum : Numeral value.length (digits ++ []) := by rwa [List.append_nil]
          rw [List.append_nil]
          exact cut_of_numeral hnum
        | cons d rest =>
          obtain ⟨rfl, rfl⟩ := List.cons.inj hrest
          exact .counted hnum (by simp)

/-- Behind the opening brace more is asked for, or there is a key of told length or a part of it. -/
theorem Cut.inside (cause : κ) (h : Cut text) :
    ∃ inside, text = Byte.openBrace :: inside ∧ (scan cause inside = .more ∨
      (∃ key, Inside key inside []) ∨ ∃ value digits length, Numeral length digits ∧
        value.length < length ∧ inside = digits ++ Byte.space :: value) := by
  -- Up to a brace, and within a length, more is asked for. Behind a length there is a key, or a
  -- part of one.
  cases h with
  | @delimited value hbrace hhead =>
    have hstops : Stops Byte.isDigit value := fun b hb => by simpa using hhead b hb
    have hword : (upTo Byte.closeBrace : Scan κ Bytes) value = .more :=
      word_eq_more_iff.2 fun b hb => bne_iff_ne.2 fun he => hbrace (he ▸ hb)
    refine ⟨value, rfl, .inl ?_⟩
    rw [Key.scan, bind_of_done (scanLength?_eq_done_iff.2 (.inl ⟨rfl, rfl, hstops⟩))]
    show ((upTo Byte.closeBrace >>= _) (value.drop 0)).shift 0 = _
    rw [List.drop_zero, bind_of_more hword]
    rfl
  | @length digits length hnum =>
    refine ⟨digits, rfl, .inl ?_⟩
    rw [Key.scan, bind_of_done (scanLength?_eq_done_iff.2
      (.inr ⟨length, digits, [], rfl, hnum, stops_nil, (List.append_nil _).symm, rfl⟩)),
      List.drop_length]
    rfl
  | @counted value digits length hnum hle =>
    refine ⟨_, rfl, .inr ?_⟩
    rcases Nat.lt_or_eq_of_le hle with hlt | rfl
    · exact .inr ⟨value, digits, length, hnum, hlt, rfl⟩
    · exact .inl ⟨_, .counted hnum⟩

end PacketWire.Key
