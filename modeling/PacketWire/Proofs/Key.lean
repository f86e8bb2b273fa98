import PacketWire.Element.Scan
import PacketWire.Spelling.Values
import PacketWire.Proofs.Bytes
import PacketWire.Proofs.Decimal
import PacketWire.Proofs.Scan.Found

namespace PacketWire.Key

open Scan

/-!
# What the scan for keys finds

A key is found between its braces where it is written as `Spelled` allows it (`scan_eq_whole_iff`).
The first part of a key is found where its length is told and the input ends inside it
(`scan_eq_opening_iff`).
-/

variable {κ : Type} {cause : κ} {input text rest value : Bytes} {n length : Nat} {key : Key}

/-- A key as it is written between its braces, in front of these bytes. -/
inductive Inside : Key → Bytes → Bytes → Prop where
  /-- A key without its length goes up to the closing brace. -/
  | delimited {value rest : Bytes} :
      Byte.closeBrace ∉ value → (∀ b, value.head? = some b → ¬ Byte.isDigit b) →
        Inside ⟨value, false⟩ value (Byte.closeBrace :: rest)
  /-- A key behind its length and a space. -/
  | counted {value digits rest : Bytes} :
      Numeral value.length digits → Inside ⟨value, true⟩ (digits ++ Byte.space :: value) rest

/-- What is found between braces is spelled with them. -/
theorem Inside.spelled (h : Inside key text (Byte.closeBrace :: rest)) :
    key.Spelled (Byte.openBrace :: text ++ [Byte.closeBrace]) := by
  generalize hbehind : Byte.closeBrace :: rest = behind at h
  cases h with
  | delimited hbrace hhead => exact .delimited hbrace hhead
  | counted hnum =>
    rw [← List.cons_append]
    exact .counted hnum

/-- What is spelled is found between its braces. -/
theorem Spelled.exists_inside (h : key.Spelled text) :
    ∃ inside, text = Byte.openBrace :: inside ++ [Byte.closeBrace] ∧
      ∀ rest, Inside key inside (Byte.closeBrace :: rest) := by
  cases h with
  | delimited hbrace hhead => exact ⟨_, rfl, fun _ => .delimited hbrace hhead⟩
  | counted hnum => exact ⟨_, rfl, fun _ => .counted hnum⟩

/-- What stands behind a key stands there in a longer input, too. -/
theorem Inside.append (h : Inside key text rest) (back : Bytes) :
    Inside key text (rest ++ back) := by
  cases h with
  | delimited hbrace hhead => exact .delimited hbrace hhead
  | counted hnum => exact .counted hnum

/-- A key that starts as one of told length does is such a key. -/
theorem Inside.exists_counted {tail digits : Bytes} (h : Inside key text rest)
    (hnum : Numeral length digits) (hi : text ++ rest = digits ++ Byte.space :: tail) :
    ∃ value, key = ⟨value, true⟩ ∧ value.length = length ∧ tail = value ++ rest := by
  cases h with
  | @delimited value _ hbrace hhead =>
    -- a key without its length starts with no digit
    cases digits with
    | nil => exact absurd rfl hnum.nonempty
    | cons d digits =>
      have hd := hnum.isDigit d List.mem_cons_self
      cases text with
      | nil =>
        obtain ⟨rfl, -⟩ := List.cons.inj hi
        cases hd
      | cons b value =>
        obtain ⟨rfl, -⟩ := List.cons.inj hi
        exact absurd hd (hhead b rfl)
  | @counted value digits' _ hnum' =>
    have hi' : digits' ++ Byte.space :: (value ++ rest) = digits ++ Byte.space :: tail := by
      simpa using hi
    obtain ⟨rfl, -, rfl⟩ := Bytes.append_cons_inj hnum'.isDigit hnum.isDigit (by decide)
      (by decide) hi'
    exact ⟨value, rfl, hnum'.value.symm.trans hnum.value, rfl⟩

/-- A key that was cut is found as a whole where all of it has come. -/
theorem Inside.exists_piece {digits back : Bytes} (h : Inside key text rest)
    (hnum : Numeral length digits) (hlt : value.length < length)
    (hi : text ++ rest = digits ++ Byte.space :: value ++ back) :
    ∃ piece, back = piece ++ rest ∧ key = ⟨value ++ piece, true⟩ ∧
      piece.length = length - value.length := by
  rw [List.append_assoc, List.cons_append] at hi
  obtain ⟨all, rfl, rfl, htail⟩ := h.exists_counted hnum hi
  obtain ⟨piece, rfl, rfl⟩ | ⟨excess, rfl, -⟩ := List.append_eq_append_iff.1 htail
  · exact ⟨piece, rfl, rfl, by simp⟩
  · rw [List.length_append] at hlt
    omega

/-- A number that may be left out is found where no digit goes on with it. -/
theorem scanLength?_eq_done_iff {length? : Option Nat} :
    expect numberOrEnd Decimal.Reading.optional? cause input = .done length? n ↔
      (length? = none ∧ n = 0 ∧ Stops Byte.isDigit input) ∨
        ∃ length digits rest, length? = some length ∧ Numeral length digits ∧
          Stops Byte.isDigit rest ∧ input = digits ++ rest ∧ n = digits.length := by
  rw [expect_eq_done_iff]
  constructor
  · rintro ⟨r, hr, hlength⟩
    obtain ⟨ds, rest, rfl, rfl, hall, hrest, rfl⟩ := numberOrEnd_eq_done_iff.1 hr
    obtain ⟨hread, rfl⟩ | ⟨length, hread, rfl⟩ := Decimal.optional?_eq_some_iff.1 hlength
    · obtain rfl := Decimal.read_eq_absent_iff.1 hread
      exact .inl ⟨rfl, rfl, hrest⟩
    · have hnum := (Decimal.read_eq_number_iff hall).1 hread
      exact .inr ⟨length, ds, rest, rfl, hnum, hrest, rfl, rfl⟩
  · rintro (⟨rfl, rfl, hrest⟩ | ⟨length, ds, rest, rfl, hnum, hrest, rfl, rfl⟩)
    · exact ⟨.absent, numberOrEnd_eq_done_iff.2 ⟨[], input, rfl, rfl, nofun, hrest, rfl⟩, rfl⟩
    · have hread := ((Decimal.read_eq_number_iff hnum.isDigit).2 hnum).symm
      exact ⟨.number length,
        numberOrEnd_eq_done_iff.2 ⟨ds, rest, hread, rfl, hnum.isDigit, hrest, rfl⟩, rfl⟩

/-- What there is of a key whose length is told. -/
def Portion.ofCounted (length : Nat) : Scan.Portion → Portion
  | .whole value => .whole ⟨value, true⟩
  | .part value => .opening value length

/-- Behind the opening brace the bytes up to the closing one are found, or behind a length and a
    space as much of a value as there is. -/
theorem scan_eq_done_iff {portion : Portion} :
    scan cause input = .done portion n ↔
      (∃ value rest, Inside ⟨value, false⟩ value rest ∧ input = value ++ rest ∧
        portion = .whole ⟨value, false⟩ ∧ n = value.length) ∨
        ∃ length digits rest found k, Numeral length digits ∧ input = digits ++ Byte.space :: rest ∧
          (take length : Scan κ Scan.Portion) rest = .done found k ∧
          portion = .ofCounted length found ∧ n = digits.length + 1 + k := by
  rw [scan, bind_eq_done_iff]
  constructor
  · rintro ⟨length?, j, k, hlength, hk, rfl⟩
    -- Without digits the key reaches up to the brace; with them it is as long as they tell.
    obtain ⟨rfl, rfl, hstops⟩ | ⟨length, digits, rest, rfl, hnum, -, rfl, rfl⟩ :=
      scanLength?_eq_done_iff.1 hlength
    · obtain ⟨value, i, l, hvalue, hl, rfl⟩ := bind_eq_done_iff.1 hk
      cases hl
      obtain ⟨rfl, hall, c, rest, hc, hi⟩ := word_eq_done_iff.1 hvalue
      obtain rfl : c = Byte.closeBrace := by simpa using hc
      rw [List.drop_zero] at hi
      subst hi
      have hbrace : Byte.closeBrace ∉ value := fun hmem => by simpa using hall _ hmem
      refine .inl ⟨value, _, .delimited hbrace fun b hb => ?_, rfl, rfl, by omega⟩
      rw [hstops b (by rw [List.head?_append, hb]; rfl)]
      nofun
    · rw [List.drop_left] at hk
      obtain ⟨rest, k, rfl, htake, rfl⟩ := byte_bind_eq_done_iff.1 hk
      obtain ⟨found, i, l, hfound, hl, rfl⟩ := bind_eq_done_iff.1 htake
      refine .inr ⟨length, digits, rest, found, i, hnum, rfl, hfound, ?_⟩
      cases found <;> cases hl <;> exact ⟨rfl, by omega⟩
  · rintro (⟨value, rest, hinside, rfl, rfl, rfl⟩ |
      ⟨length, digits, rest, found, k, hnum, rfl, hfound, rfl, rfl⟩)
    · cases hinside with
      | @delimited _ rest hbrace hhead =>
        -- What starts with no digit is not taken for a length.
        have hstops : Stops Byte.isDigit (value ++ Byte.closeBrace :: rest) := by
          cases value with
          | nil => exact stops_cons_iff.2 (by decide)
          | cons b value => exact stops_cons_iff.2 (by simpa using hhead b rfl)
        refine ⟨none, 0, value.length, scanLength?_eq_done_iff.2 (.inl ⟨rfl, rfl, hstops⟩), ?_,
          by omega⟩
        refine bind_eq_done_iff.2 ⟨value, value.length, 0, word_eq_done_iff.2 ?_, rfl, rfl⟩
        refine ⟨rfl, fun b hb => bne_iff_ne.2 fun he => hbrace (he ▸ hb), Byte.closeBrace, rest, ?_,
          rfl⟩
        exact bne_self_eq_false _
    · have hstops : Stops Byte.isDigit (Byte.space :: rest) := stops_cons_iff.2 (by decide)
      refine ⟨some length, digits.length, k + 1, scanLength?_eq_done_iff.2
        (.inr ⟨length, digits, _, rfl, hnum, hstops, rfl, rfl⟩), ?_, by omega⟩
      rw [List.drop_left]
      refine byte_bind_eq_done_iff.2 ⟨rest, k, rfl, bind_eq_done_iff.2 ⟨found, k, 0, hfound, ?_⟩,
        rfl⟩
      cases found <;> exact ⟨rfl, rfl⟩

/-- A key is found as a whole just where it is spelled. -/
theorem scan_eq_whole_iff :
    scan cause input = .done (.whole key) n ↔
      ∃ text rest, Inside key text rest ∧ input = text ++ rest ∧ n = text.length := by
  rw [scan_eq_done_iff]
  constructor
  · rintro (⟨value, rest, hinside, rfl, hkey, rfl⟩ |
      ⟨length, digits, rest, found, k, hnum, rfl, hfound, hkey, rfl⟩)
    · cases hkey
      exact ⟨value, rest, hinside, rfl, rfl⟩
    · cases found with
      | part value => cases hkey
      | whole value =>
        cases hkey
        obtain ⟨rfl, rfl, rest, rfl⟩ := take_eq_whole_iff.1 hfound
        exact ⟨_, rest, .counted hnum, by simp, by simp; omega⟩
  · rintro ⟨text, rest, hinside, rfl, rfl⟩
    cases hinside with
    | delimited hbrace hhead => exact .inl ⟨_, _, .delimited hbrace hhead, rfl, rfl, rfl⟩
    | @counted value digits _ hnum =>
      refine .inr ⟨value.length, digits, value ++ rest, .whole value, value.length, hnum, by simp,
        take_eq_whole_iff.2 ⟨rfl, rfl, rest, rfl⟩, rfl, by simp; omega⟩

/-- There is one way to read a key in its braces. -/
theorem Spelled.unique {key' : Key} {text' rest' : Bytes} (h : key.Spelled text)
    (h' : key'.Spelled text') (hi : text ++ rest = text' ++ rest') :
    key = key' ∧ rest = rest' := by
  obtain ⟨inside, rfl, hinside⟩ := h.exists_inside
  obtain ⟨inside', rfl, hinside'⟩ := h'.exists_inside
  have hbehind : inside ++ Byte.closeBrace :: rest = inside' ++ Byte.closeBrace :: rest' := by
    simpa using hi
  -- both are found by the same scan
  have hfound : scan () (inside ++ Byte.closeBrace :: rest) = .done (.whole key) inside.length :=
    scan_eq_whole_iff.2 ⟨inside, _, hinside rest, rfl, rfl⟩
  have hfound' : scan () (inside ++ Byte.closeBrace :: rest) =
      .done (.whole key') inside'.length :=
    scan_eq_whole_iff.2 ⟨inside', _, hinside' rest', hbehind, rfl⟩
  obtain ⟨hportion, hlength⟩ := Outcome.done.inj (hfound.symm.trans hfound')
  obtain ⟨-, hrest⟩ := List.append_inj hbehind hlength
  exact ⟨Portion.whole.inj hportion, (List.cons.inj hrest).2⟩

/-- The first part of a key is found just where the input ends inside it. -/
theorem scan_eq_opening_iff :
    scan cause input = .done (.opening value length) n ↔
      ∃ digits, Numeral length digits ∧ value.length < length ∧
        input = digits ++ Byte.space :: value ∧ n = input.length := by
  rw [scan_eq_done_iff]
  constructor
  · rintro (⟨value, rest, -, -, hopening, -⟩ |
      ⟨length, digits, rest, found, k, hnum, rfl, hfound, hopening, rfl⟩)
    · cases hopening
    · cases found with
      | whole value => cases hopening
      | part value =>
        cases hopening
        obtain ⟨rfl, rfl, hlt⟩ := take_eq_part_iff.1 hfound
        exact ⟨digits, hnum, hlt, rfl, by simp; omega⟩
  · rintro ⟨digits, hnum, hlt, rfl, rfl⟩
    exact .inr ⟨length, digits, value, .part value, value.length, hnum, rfl,
      take_eq_part_iff.2 ⟨rfl, rfl, hlt⟩, rfl, by simp; omega⟩

end PacketWire.Key
