import PacketWire.Proofs.Packet.Units.Body
import PacketWire.Proofs.Packet.Units.Content
import PacketWire.Proofs.Scan.More

namespace PacketWire.Packet

open Scan

/-!
# Lines without an end

The scans for a name, a length, a value and a method look for the byte that ends them, however far
it is. They ask for more where it has not come: the bytes ahead then are the beginning of a line of
the content that may go on (`Unended`), and nothing else makes the scan of the content ask for more
(`scanContent_eq_more_iff`).
-/

/-- The beginning of a line of the content, which may go on with the bytes that come next. -/
inductive Unended : Bytes → Prop where
  /-- A method. -/
  | method {word : Bytes} : (∀ b ∈ word, Byte.isKeyword b) → Unended word
  /-- The name of a modifier. -/
  | name {oper : Operator} {name : Bytes} :
      (∀ b ∈ name, Byte.isKeyword b) → Unended (oper.glyph :: name)
  /-- The length of a value. -/
  | length {oper : Operator} {name digits : Bytes} :
      isKeyword name → (∀ b ∈ digits, Byte.isDigit b) →
        Unended (oper.glyph :: name ++ Byte.space :: digits)
  /-- A value without a length. -/
  | value {oper : Operator} {name value : Bytes} :
      isKeyword name → Byte.lineFeed ∉ value → Unended (oper.glyph :: name ++ Byte.tab :: value)

variable {s : State} {oper : Operator} {input tail : Bytes} {b : UInt8} {e : Event} {n length : Nat}

/-- No line feed is in a line that has not ended. -/
theorem Unended.notMem (h : Unended input) : Byte.lineFeed ∉ input := by
  have hkeyword : ∀ {word : Bytes}, (∀ b ∈ word, Byte.isKeyword b) → Byte.lineFeed ∉ word :=
    fun hall hmem => absurd (hall _ hmem) (by decide)
  have hname : ∀ {oper : Operator} {name : Bytes}, (∀ b ∈ name, Byte.isKeyword b) →
      Byte.lineFeed ∉ oper.glyph :: name := fun {oper _} hall hmem => by
    rcases List.mem_cons.1 hmem with hglyph | hmem
    · cases oper <;> exact absurd hglyph (by decide)
    · exact hkeyword hall hmem
  have hline : ∀ {front tail : Bytes} {b : UInt8}, Byte.lineFeed ∉ front → Byte.lineFeed ≠ b →
      Byte.lineFeed ∉ tail → Byte.lineFeed ∉ front ++ b :: tail := fun hfront hb htail => by
    rw [List.mem_append, List.mem_cons, not_or, not_or]
    exact ⟨hfront, hb, htail⟩
  cases h with
  | method hall => exact hkeyword hall
  | name hall => exact hname hall
  | length hkey hdigits =>
    exact hline (hname (isKeyword_iff.1 hkey).2) (by decide)
      fun hmem => absurd (hdigits _ hmem) (by decide)
  | value hkey hvalue => exact hline (hname (isKeyword_iff.1 hkey).2) (by decide) hvalue

/-! ### Modifiers -/

/-- A name may go on where all bytes belong to one. -/
theorem scanName_eq_more_iff :
    scanName (b :: tail) = .more ↔ ∀ x ∈ tail, Byte.isKeyword x := by
  rw [scanName, expect_eq_more_iff, skip_bind_eq_more_iff rfl, List.tail_cons, keyword_eq_more_iff]

/-- A value without a length may go on where its line has not ended. -/
theorem scanLineValue_eq_more_iff :
    scanLineValue (b :: tail) = .more ↔ b = Byte.tab ∧ Byte.lineFeed ∉ tail := by
  have hstart : scanLineValue (b :: tail) =
      ((if b = Byte.tab then (do skip 1; line)
        else if b = Byte.lineFeed then (do skip 1; return [])
        else fault .noTab : Scan Cause Bytes) (b :: tail)).shift 0 := rfl
  rw [hstart, Outcome.shift_zero]
  by_cases htab : b = Byte.tab
  · rw [if_pos htab, skip_bind_eq_more_iff rfl, List.tail_cons, line_eq_more_iff]
    exact (and_iff_right htab).symm
  · rw [if_neg htab]
    refine iff_of_false ?_ fun h => htab h.1
    split <;> simp [skip, fault, bind_apply, Outcome.shift, pure_apply]

/-- A length may go on where all bytes are digits. -/
theorem scanValueLength_eq_more_iff :
    scanValueLength (b :: tail) = .more ↔ ∀ x ∈ tail, Byte.isDigit x := by
  rw [scanValueLength, skip_bind_eq_more_iff rfl, List.tail_cons, bind_eq_more_iff,
    expect_eq_more_iff, number_eq_more_iff, or_iff_left]
  -- behind the digits there is a byte, so the scan for the tab has what it looks at
  rintro ⟨length, n, hlength, hmore⟩
  obtain ⟨digits, c, rest, -, -, rfl, rfl⟩ := scanLength_eq_done_iff.1 hlength
  rw [List.drop_left] at hmore
  obtain hbyte | ⟨_, _, -, hpure⟩ := bind_eq_more_iff.1 hmore
  · cases byte_eq_more_iff.1 hbyte
  · cases hpure

/-- The head of a modifier may go on in its name or in its length. -/
theorem scanEntityHead_eq_more_iff :
    scanEntityHead (oper.glyph :: tail) = .more ↔
      (∀ x ∈ tail, Byte.isKeyword x) ∨ ∃ name digits, isKeyword name ∧
        (∀ x ∈ digits, Byte.isDigit x) ∧ tail = name ++ Byte.space :: digits := by
  rw [scanEntityHead, bind_eq_more_iff, scanName_eq_more_iff]
  refine or_congr_right ⟨?_, ?_⟩
  · rintro ⟨name, n, hname, hmore⟩
    obtain ⟨rfl, hkey, b, c, rest, -, hi⟩ := scanName_eq_done_iff.1 hname
    obtain ⟨-, rfl⟩ := List.cons.inj hi
    rw [List.drop_succ_cons, List.drop_left] at hmore
    -- The byte behind the name is there. If it is a space, it is the length that may go on.
    obtain hpeek | ⟨_, _, hpeek, hmore⟩ := bind_eq_more_iff.1 hmore
    · cases peek_eq_more_iff.1 hpeek
    · obtain ⟨rfl, _, hi⟩ := peek_eq_done_iff.1 hpeek
      obtain ⟨rfl, rfl⟩ := List.cons.inj hi
      split at hmore
      · next hspace =>
        subst hspace
        obtain hlength | ⟨_, _, -, hpure⟩ := bind_eq_more_iff.1 hmore
        · exact ⟨name, rest, hkey, scanValueLength_eq_more_iff.1 hlength, rfl⟩
        · cases hpure
      · cases hmore
  · rintro ⟨name, digits, hkey, hdigits, rfl⟩
    refine ⟨name, name.length + 1, ?_, ?_⟩
    · exact scanName_eq_done_iff.2 ⟨rfl, hkey, oper.glyph, Byte.space, digits, by decide, rfl⟩
    · rw [List.drop_succ_cons, List.drop_left]
      refine bind_eq_more_iff.2 (.inr ⟨Byte.space, 0, rfl, ?_⟩)
      rw [if_pos rfl]
      exact bind_eq_more_iff.2 (.inl (scanValueLength_eq_more_iff.2 hdigits))

/-- Looking for room needs no bytes. -/
theorem scanRoom_ne_more {head : Nat} : scanRoom s head length input ≠ .more := by
  intro h
  rw [scanRoom] at h
  cases hann : s.announced with
  | none =>
    rw [hann] at h
    cases h
  | some announced =>
    simp only [hann] at h
    split at h <;> cases h

/-- Behind the glyph of an operator the beginning of a line is that of a modifier. -/
theorem unended_glyph_iff :
    Unended (oper.glyph :: tail) ↔
      ((∀ x ∈ tail, Byte.isKeyword x) ∨ ∃ name digits, isKeyword name ∧
        (∀ x ∈ digits, Byte.isDigit x) ∧ tail = name ++ Byte.space :: digits) ∨
      ∃ name value, isKeyword name ∧ Byte.lineFeed ∉ value ∧ tail = name ++ Byte.tab :: value := by
  constructor
  · intro h
    generalize hi : oper.glyph :: tail = input at h
    -- A line that starts with a glyph is no method.
    cases h with
    | @method word hall =>
      subst hi
      have hglyph := hall oper.glyph List.mem_cons_self
      cases oper <;> cases hglyph
    | name hall =>
      obtain ⟨-, rfl⟩ := List.cons.inj hi
      exact .inl (.inl hall)
    | length hname hdigits =>
      obtain ⟨-, rfl⟩ := List.cons.inj hi
      exact .inl (.inr ⟨_, _, hname, hdigits, rfl⟩)
    | value hname hvalue =>
      obtain ⟨-, rfl⟩ := List.cons.inj hi
      exact .inr ⟨_, _, hname, hvalue, rfl⟩
  · rintro ((hall | ⟨name, digits, hname, hdigits, rfl⟩) | ⟨name, value, hname, hvalue, rfl⟩)
    · exact .name hall
    · exact .length hname hdigits
    · exact .value hname hvalue

/-- An entity modifier asks for more where its line is unended. -/
theorem scanEntity_eq_more_iff :
    scanEntity s oper (oper.glyph :: tail) = .more ↔ Unended (oper.glyph :: tail) := by
  rw [scanEntity, bind_eq_more_iff, measured_eq_more_iff, scanEntityHead_eq_more_iff,
    unended_glyph_iff]
  refine or_congr_right ⟨?_, ?_⟩
  · rintro ⟨⟨⟨name, length⟩, used⟩, n, hhead, hmore⟩
    obtain ⟨hhead, rfl⟩ := measured_eq_done_iff.1 hhead
    cases length with
    | none =>
      obtain ⟨hname, c, rest, -, hrest⟩ := scanEntityHead_eq_plain_iff.1 hhead
      obtain ⟨rfl, hkey, _, c', rest', -, hi⟩ := scanName_eq_done_iff.1 hname
      obtain ⟨-, rfl⟩ := List.cons.inj hi
      rw [List.drop_succ_cons, List.drop_left] at hmore
      obtain hvalue | ⟨_, _, -, hpure⟩ := bind_eq_more_iff.1 hmore
      · obtain ⟨rfl, hl⟩ := scanLineValue_eq_more_iff.1 hvalue
        exact ⟨name, rest', hkey, hl, rfl⟩
      · cases hpure
    | some length =>
      -- a value with its length takes what there is
      obtain hroom | ⟨_, _, -, hmore⟩ := bind_eq_more_iff.1 hmore
      · exact absurd hroom scanRoom_ne_more
      · obtain htake | ⟨portion, _, -, hpure⟩ := bind_eq_more_iff.1 hmore
        · exact absurd htake take_ne_more
        · cases portion <;> cases hpure
  · rintro ⟨name, value, hkey, hvalue, rfl⟩
    have hname : scanName (oper.glyph :: (name ++ Byte.tab :: value)) =
        .done name (name.length + 1) :=
      scanName_eq_done_iff.2 ⟨rfl, hkey, oper.glyph, Byte.tab, value, by decide, rfl⟩
    have hdrop : (oper.glyph :: (name ++ Byte.tab :: value)).drop (name.length + 1) =
        Byte.tab :: value := by
      rw [List.drop_succ_cons, List.drop_left]
    refine ⟨((name, none), name.length + 1), name.length + 1, measured_eq_done_iff.2 ⟨?_, rfl⟩, ?_⟩
    · exact scanEntityHead_eq_plain_iff.2 ⟨hname, Byte.tab, value, by decide, hdrop⟩
    · rw [hdrop]
      exact bind_eq_more_iff.2 (.inl (scanLineValue_eq_more_iff.2 ⟨rfl, hvalue⟩))

/-! ### Content -/

/-- The bytes of a state action are there already. -/
theorem scanStateAction_ne_more {glyph : UInt8} : scanStateAction glyph input ≠ .more := by
  have hskip : ∀ e : Event, (do skip 2; return e : Scan Cause Event) input ≠ .more := fun e h => by
    obtain hskip | ⟨_, _, -, hpure⟩ := bind_eq_more_iff.1 h
    · cases hskip
    · cases hpure
  unfold scanStateAction
  cases StateAction.ofGlyph? glyph with
  | none => nofun
  | some action =>
    cases action with
    | none => nofun
    | reset => exact hskip .stateReset
    | resync => exact hskip .stateResync

/-- Whether a glyph is alone on the first line is asked of the byte behind it. -/
theorem scanIsAlone_eq_more_iff :
    scanIsAlone s input = .more ↔ s.consumed = 0 ∧ input.length < 2 := by
  unfold scanIsAlone
  by_cases hc : s.consumed = 0
  · rw [if_pos hc, bind_eq_more_iff, peekSecond_eq_more_iff, or_iff_left]
    · exact (and_iff_right hc).symm
    · rintro ⟨_, _, -, hpure⟩
      cases hpure
  · rw [if_neg hc]
    exact iff_of_false nofun fun h => hc h.1

/-- The scan of the content asks for more at the beginning of the line of a modifier. -/
theorem scanContent_eq_more_iff :
    scanContent s input = .more ↔
      input = [] ∨ ∃ oper tail, input = Operator.glyph oper :: tail ∧ Unended input := by
  constructor
  · intro h
    obtain hpeek | ⟨glyph, n, hpeek, hmore⟩ := bind_eq_more_iff.1 h
    · exact .inl (peek_eq_more_iff.1 hpeek)
    obtain ⟨rfl, tail, rfl⟩ := peek_eq_done_iff.1 hpeek
    refine .inr ?_
    cases hoper : Operator.ofGlyph? glyph with
    | none =>
      simp only [hoper] at hmore
      cases hmore
    | some oper =>
      obtain rfl := Operator.ofGlyph?_eq_some_iff.1 hoper
      refine ⟨oper, tail, rfl, ?_⟩
      rw [scanContent_glyph] at h
      obtain halone | ⟨alone, k, halone, hmore⟩ := bind_eq_more_iff.1 h
      · -- the glyph is the last byte that has come
        obtain ⟨-, hlength⟩ := scanIsAlone_eq_more_iff.1 halone
        obtain rfl : tail = [] :=
          List.length_eq_zero_iff.1 (Nat.lt_one_iff.1 (Nat.lt_of_succ_lt_succ hlength))
        exact .name nofun
      cases alone with
      | true =>
        obtain haction | ⟨_, _, -, hpure⟩ := bind_eq_more_iff.1 hmore
        · exact absurd haction scanStateAction_ne_more
        · cases hpure
      | false =>
        obtain ⟨rfl, -⟩ := scanIsAlone_eq_false_iff.1 halone
        obtain hentity | ⟨_, _, -, hpure⟩ := bind_eq_more_iff.1 hmore
        · exact scanEntity_eq_more_iff.1 hentity
        · cases hpure
  · rintro (rfl | ⟨oper, tail, rfl, hunended⟩)
    · rfl
    rw [scanContent_glyph]
    by_cases hmore : scanIsAlone s (oper.glyph :: tail) = .more
    · exact bind_eq_more_iff.2 (.inl hmore)
    · -- the line has not ended, so its second byte is no line feed
      have hfalse : scanIsAlone s (oper.glyph :: tail) = .done false 0 := by
        refine scanIsAlone_eq_false_iff.2 ⟨rfl, fun hc => ?_⟩
        cases tail with
        | nil => exact absurd (scanIsAlone_eq_more_iff.2 ⟨hc, by simp⟩) hmore
        | cons x rest =>
          refine ⟨oper.glyph, x, rest, ?_, rfl⟩
          rintro rfl
          exact hunended.notMem (by simp)
      refine bind_eq_more_iff.2 (.inr ⟨false, 0, hfalse, ?_⟩)
      exact bind_eq_more_iff.2 (.inl (scanEntity_eq_more_iff.2 hunended))

/-- Where the length of the content is told, the scan for a method and data asks for more at the
    beginning of a method only. -/
theorem scanBody_eq_more_iff {announced : Nat} (hann : s.announced = some announced) :
    scanBody s input = .more ↔ ∀ b ∈ input, Byte.isKeyword b := by
  rw [scanBody, bind_eq_more_iff, measured_eq_more_iff, keyword_eq_more_iff, or_iff_left]
  rintro ⟨⟨method, used⟩, n, hword, hmore⟩
  obtain ⟨hword, rfl⟩ := measured_eq_done_iff.1 hword
  obtain ⟨rfl, -, c, rest, -, rfl⟩ := keyword_eq_done_iff.1 hword
  rw [List.drop_left] at hmore
  dsimp only at hmore
  split at hmore
  · cases hmore
  -- there is a byte behind the method, and data with its length takes what there is
  obtain hbyte | ⟨_, _, -, hmore⟩ := bind_eq_more_iff.1 hmore
  · cases byte_eq_more_iff.1 hbyte
  obtain hdata | ⟨_, _, -, hpure⟩ := bind_eq_more_iff.1 hmore
  · simp only [scanBodyData, hann] at hdata
    split at hdata
    · cases hdata
    split at hdata
    · cases hdata
    obtain htake | ⟨portion, _, -, hpure⟩ := bind_eq_more_iff.1 hdata
    · exact absurd htake take_ne_more
    · cases portion <;> cases hpure
  · cases hpure

/-! ### The end of a packet -/

/-- The scan for the end of a packet does not ask for more, if the content has another length than
    was told or there are as many bytes as an end has. -/
theorem scanClosing_ne_more (h : s.IsExact → (ending s.mode).length ≤ input.length) :
    scanClosing s input ≠ .more := by
  intro hmore
  -- The check of the length reads no byte, and asks for none.
  obtain hcheck | ⟨_, n, hcheck, hmore⟩ := bind_eq_more_iff.1 hmore
  · unfold scanLengthCheck at hcheck
    cases hann : s.announced with
    | none => rw [hann] at hcheck; cases hcheck
    | some announced =>
      simp only [hann] at hcheck
      split at hcheck <;> cases hcheck
  obtain ⟨rfl, hexact⟩ := scanLengthCheck_eq_done_iff.1 hcheck
  -- The length is as told, so there are as many bytes as the end has.
  have hlength := h hexact
  have hclosing : 2 ≤ input.length →
      (do scanClosingLine; return (.complete, .initial s.mode) : Scan Cause (Event × State))
        input ≠ .more := fun htwo hmore => by
    obtain hline | ⟨_, _, -, hpure⟩ := bind_eq_more_iff.1 hmore
    · obtain hpipe | ⟨_, _, hpipe, hfeed⟩ := bind_eq_more_iff.1 hline
      · rw [byte_eq_more_iff.1 hpipe] at htwo
        cases htwo
      · obtain ⟨rfl, rest, rfl⟩ := byte_eq_done_iff.1 hpipe
        obtain rfl : rest = [] := byte_eq_more_iff.1 hfeed
        simp at htwo
    · cases hpure
  cases hmode : s.mode with
  | contentOnly length => simp only [hmode] at hmore; cases hmore
  | whole =>
    rw [hmode] at hlength hclosing
    simp only [hmode] at hmore
    exact hclosing hlength hmore
  | routingOnly =>
    rw [hmode] at hlength hclosing
    simp only [hmode] at hmore
    exact hclosing hlength hmore

end PacketWire.Packet
