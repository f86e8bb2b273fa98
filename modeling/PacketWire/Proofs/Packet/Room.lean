import PacketWire.Proofs.Packet.Bounded

namespace PacketWire.Packet

open Scan

/-!
# Room for values

A modifier that tells the length of its value is read only if the value and the line feed behind it
have room in the content. What is checked is a sum that cannot grow beyond 64 bits, which is the
true one as long as it is below the largest number. So the check does its work in all content but
that of the largest length: in this one every modifier has room, whatever its length
(`MeetsCounted.counted_is_reported_iff`).
-/

/-- The unit that is reported for a modifier with a length in front of these bytes. -/
def countedUnit (oper : Operator) (name : Bytes) (length : Nat) (behind : Bytes) : Event :=
  if length ≤ behind.length then .entity ⟨oper, name, behind.take length⟩
  else .entityOpening ⟨oper, name, behind⟩ length

variable {s t : State} {input text rest name digits behind buffer : Bytes} {oper : Operator}
  {length announced : Nat} {e : Event} {cause : Cause} {p : Parser machine}

/-! ### Moves in front of a unit -/

/-- A call goes on through parts to a step, from the bytes behind them. -/
theorem parse_of_goesTo (hc : p.cursor ≤ buffer.length)
    (hbuffer : buffer.drop p.cursor = text ++ input) (h : p.state.GoesTo text input t) :
    p.parse buffer = p.answer ((step t input).shift (p.cursor + text.length)) := by
  have hstep : machine.step p.state (text ++ input) = (step t input).shift text.length :=
    step_of_goesTo h
  rw [Parser.parse_of_le hc, hbuffer, hstep, Step.shift_shift]

/-! ### The check -/

/-- The check is exact but in content of the largest length. -/
theorem State.hasRoom_iff {n : Nat} (hann : s.announced = some announced)
    (hbound : announced < Decimal.bound) :
    s.HasRoom n ↔ s.consumed + n ≤ announced ∨ announced + 1 = Decimal.bound := by
  constructor
  · intro h
    have hmin := h announced hann
    omega
  · intro h a ha
    rw [hann] at ha
    cases ha
    omega

/-- A value without room is refused, with the sum that was checked. -/
theorem scanRoom_of_not_hasRoom {head : Nat} (hann : s.announced = some announced)
    (h : ¬ s.HasRoom (head + length + 1)) :
    scanRoom s head length input = .fault ⟨.lengthMismatch announced
      (min (s.consumed + (head + length + 1)) (Decimal.bound - 1)), 0⟩ := by
  have hlt : announced < min (s.consumed + (head + length + 1)) (Decimal.bound - 1) := by
    refine Nat.lt_of_not_le fun hle => h fun a ha => ?_
    rw [hann] at ha
    cases ha
    exact hle
  simp only [scanRoom, hann, cappedAdd_cappedAdd_one, if_pos hlt]
  rfl

/-! ### The step at a modifier -/

/-- A modifier whose value has no room is refused as soon as its length is read. -/
theorem scanEntity_of_not_hasRoom (behind : Bytes) (hname : isKeyword name)
    (hnum : Numeral length digits) (hann : s.announced = some announced)
    (hroom : ¬ s.HasRoom ((countedHead oper name digits).length + length + 1)) :
    ∃ offset, scanEntity s oper (countedHead oper name digits ++ behind) =
      .fault ⟨.lengthMismatch announced (min
        (s.consumed + ((countedHead oper name digits).length + length + 1)) (Decimal.bound - 1)),
        offset⟩ := by
  have hhead : scanEntityHead (countedHead oper name digits ++ behind) =
      .done (name, some length) (countedHead oper name digits).length :=
    scanEntityHead_eq_head_iff.2 ⟨digits, behind, hname, hnum, rfl, rfl⟩
  refine ⟨(countedHead oper name digits).length, ?_⟩
  rw [scanEntity, bind_of_done (measured_of_done hhead), List.drop_left]
  exact congrArg (Outcome.shift _) (bind_of_fault (scanRoom_of_not_hasRoom hann hroom))

/-- The head of a modifier is not taken for a state action, as a name follows its glyph. -/
theorem scanContent_of_countedHead (hname : isKeyword name) :
    scanContent s (countedHead oper name digits ++ behind) =
      (do return some (← scanEntity s oper) : Scan Cause (Option (Event × Owed)))
        (countedHead oper name digits ++ behind) := by
  obtain ⟨hne, hall⟩ := isKeyword_iff.1 hname
  obtain ⟨b, word, rfl⟩ := List.exists_cons_of_ne_nil hne
  have hb : b ≠ Byte.lineFeed := by
    rintro rfl
    exact absurd (hall Byte.lineFeed List.mem_cons_self) (by decide)
  have halone : scanIsAlone s (countedHead oper (b :: word) digits ++ behind) = .done false 0 :=
    scanIsAlone_eq_false_iff.2 ⟨rfl, fun _ => ⟨oper.glyph, b, _, hb, rfl⟩⟩
  refine scanContent_glyph.trans ?_
  refine (bind_of_done halone).trans ?_
  rw [Outcome.shift_zero]
  rfl

namespace State.AtContent

/-- A modifier whose value has room is reported. -/
theorem step_of_hasRoom (h : s.AtContent announced) (hlt : s.consumed < announced)
    (hname : isKeyword name) (hnum : Numeral length digits)
    (hroom : s.HasRoom ((countedHead oper name digits).length + length + 1)) :
    ∃ t n, step s (countedHead oper name digits ++ behind) =
      .emit (countedUnit oper name length behind) t n := by
  have hreads {text rest : Bytes} {e : Event} {owed : Owed}
      (hunit : ContentUnit s text rest e owed) :
      step s (text ++ rest) = .emit e { s.consume text.length with owed } text.length :=
    step_of_reads (.content h.owed h.part (h.isFull_eq_false hlt) hunit)
  rw [countedUnit]
  -- The value is there as a whole, or what there is of it opens it.
  split
  · next hle =>
    have hlength : (behind.take length).length = length := List.length_take_of_le hle
    have hunit : ContentUnit s (countedHead oper name digits ++ behind.take length)
        (behind.drop length) (.entity ⟨oper, name, behind.take length⟩) (.lineFeed .modifier) :=
      .counted hname (hlength.symm ▸ hnum) (hlength.symm ▸ hroom)
    have hstep := hreads hunit
    rw [List.append_assoc, List.take_append_drop] at hstep
    exact ⟨_, _, hstep⟩
  · next hnot =>
    have hstep := hreads (.opening hname hnum hroom (Nat.lt_of_not_le hnot))
    rw [List.append_nil] at hstep
    exact ⟨_, _, hstep⟩

/-- A modifier whose value has no room is refused, whatever comes behind it. -/
theorem step_of_not_hasRoom (h : s.AtContent announced) (hlt : s.consumed < announced)
    (hname : isKeyword name) (hnum : Numeral length digits)
    (hroom : ¬ s.HasRoom ((countedHead oper name digits).length + length + 1)) :
    ∃ offset, step s (countedHead oper name digits ++ behind) =
      .fault ⟨.lengthMismatch announced (min
        (s.consumed + ((countedHead oper name digits).length + length + 1)) (Decimal.bound - 1)),
        offset⟩ := by
  obtain ⟨offset, hfault⟩ := scanEntity_of_not_hasRoom behind hname hnum h.announced hroom
  refine ⟨offset, (h.step_eq hlt).trans ?_⟩
  refine Step.andThen_of_fault (record_of_fault ?_)
  rw [scanContent_of_countedHead hname]
  exact bind_of_fault hfault

/-- Behind the last byte of the content the end of the packet is read. -/
theorem step_of_le (h : s.AtContent announced) (hle : announced ≤ s.consumed) (input : Bytes) :
    step s input = step { s with part := .closing } input := by
  have hmove : s.Moves [] input { s with part := .closing } :=
    .full h.owed h.part (by simp [isFull, h.announced, hle])
  have hstep := step_of_moves hmove
  rwa [List.nil_append, List.length_nil, Step.shift_zero] at hstep

/-- Where more content was read than announced, no modifier is looked for. -/
theorem step_of_lt (h : s.AtContent announced) (hlt : announced < s.consumed) (input : Bytes) :
    step s input = .fault ⟨.lengthMismatch announced s.consumed, 0⟩ := by
  have hclosing : step { s with part := .closing } = readClosing s := step_of_nothing h.owed
  rw [h.step_of_le (Nat.le_of_lt hlt), hclosing, readClosing]
  exact Step.andThen_of_fault
    (bind_of_fault (scanLengthCheck_of_ne h.announced (Nat.ne_of_gt hlt)))

/-- Content that was read up to its announced length has this length. -/
theorem isExact (h : s.AtContent announced) (heq : s.consumed = announced) : s.IsExact := by
  intro a ha
  rw [h.announced] at ha
  cases ha
  exact heq

/-- Content that comes by itself is complete in front of a modifier that has no part in it. -/
theorem step_of_contentOnly {size : Nat} (h : s.AtContent announced)
    (heq : s.consumed = announced) (hmode : s.mode = .contentOnly size) (input : Bytes) :
    step s input = .emit .complete (.initial s.mode) 0 := by
  have hreads : State.Reads { s with part := .closing } (ending s.mode) input .complete
      (.initial s.mode) := .closing h.owed rfl (h.isExact heq)
  have hending : ending s.mode = [] := by rw [hmode]; rfl
  rw [hending] at hreads
  rw [h.step_of_le (Nat.le_of_eq heq.symm)]
  exact step_of_reads hreads

/-- Otherwise a modifier behind the content comes in the place of the closing line. -/
theorem step_of_eq (h : s.AtContent announced) (heq : s.consumed = announced)
    (hmode : ∀ size, s.mode ≠ .contentOnly size) (oper : Operator) (tail : Bytes) :
    step s (oper.glyph :: tail) = .fault ⟨.badClosingLine, 0⟩ := by
  have hclosing : step { s with part := .closing } = readClosing s := step_of_nothing h.owed
  have hcheck : scanLengthCheck s (oper.glyph :: tail) = .done () 0 :=
    scanLengthCheck_eq_done_iff.2 ⟨rfl, h.isExact heq⟩
  have hline : scanClosingLine (oper.glyph :: tail) = .fault ⟨.badClosingLine, 0⟩ := by
    cases oper <;> rfl
  rw [h.step_of_le (Nat.le_of_eq heq.symm), hclosing, readClosing]
  refine Step.andThen_of_fault ((bind_of_done hcheck).trans ?_)
  rw [Outcome.shift_zero, List.drop_zero]
  cases hm : s.mode with
  | contentOnly size => exact absurd hm (hmode size)
  | whole => exact bind_of_fault hline
  | routingOnly => exact bind_of_fault hline

end State.AtContent

/-! ### Calls -/

/-- How many bytes of the content a modifier with a length takes, the line feed behind the value
    among them. -/
def countedSize (oper : Operator) (name digits : Bytes) (length : Nat) : Nat :=
  (countedHead oper name digits).length + length + 1

/-- A call gives a fault of a kind, and the parser starts over. -/
def Rejects (p : Parser machine) (buffer : Bytes) (cause : Cause) : Prop :=
  ∃ offset, p.parse buffer = (.fault ⟨cause, offset⟩, p.reset)

/-- A parser that rejects gives no unit. -/
theorem Rejects.ne_event (h : Rejects p buffer cause) : (p.parse buffer).1 ≠ .event e := by
  obtain ⟨offset, h⟩ := h
  rw [h]
  nofun

/-- A modifier with a length does not complete a packet. -/
theorem countedUnit_ne_complete : countedUnit oper name length behind ≠ .complete := by
  rw [countedUnit]
  split <;> nofun

/-- A call comes, by moves alone, to a state in which content of announced length is read, and the
    head of a modifier with a length is ahead. -/
structure MeetsCounted (p : Parser machine) (buffer : Bytes) (s : State) (announced : Nat)
    (oper : Operator) (name digits : Bytes) (length : Nat) (behind : Bytes) : Prop where
  /-- The cursor is in the buffer. -/
  cursor_le : p.cursor ≤ buffer.length
  /-- The moves lead to the state, and the head is ahead there. -/
  goesTo : ∃ text, buffer.drop p.cursor = text ++ (countedHead oper name digits ++ behind) ∧
    p.state.GoesTo text (countedHead oper name digits ++ behind) s
  /-- The content is read there. -/
  atContent : s.AtContent announced
  /-- The length of the content is one of 64 bits. -/
  lt_bound : announced < Decimal.bound
  /-- The modifier has a name. -/
  isKeyword : isKeyword name
  /-- The digits tell the length. -/
  numeral : Numeral length digits

namespace MeetsCounted

variable (h : MeetsCounted p buffer s announced oper name digits length behind)

include h

/-- A step that fails at a modifier makes the call reject it. -/
theorem rejects_of_fault {offset : Nat}
    (hstep : step s (countedHead oper name digits ++ behind) = .fault ⟨cause, offset⟩) :
    Rejects p buffer cause := by
  obtain ⟨text, hbuffer, hgo⟩ := h.goesTo
  have hparse := parse_of_goesTo h.cursor_le hbuffer hgo
  rw [hstep] at hparse
  exact ⟨_, hparse⟩

/-- A step that gives a unit makes the call give it. -/
theorem fst_parse_of_emit {n : Nat}
    (hstep : step s (countedHead oper name digits ++ behind) = .emit e t n) :
    (p.parse buffer).1 = .event e := by
  obtain ⟨text, hbuffer, hgo⟩ := h.goesTo
  rw [parse_of_goesTo h.cursor_le hbuffer hgo, hstep]
  rfl

/-- There is room up to the announced length, and always if that is the largest. -/
theorem hasRoom_iff : s.HasRoom (countedSize oper name digits length) ↔
    s.consumed + countedSize oper name digits length ≤ announced ∨ announced + 1 = Decimal.bound :=
  State.hasRoom_iff h.atContent.announced h.lt_bound

/-- Inside the content a modifier with room is reported. -/
theorem reports (hlt : s.consumed < announced)
    (hroom : s.HasRoom (countedSize oper name digits length)) :
    (p.parse buffer).1 = .event (countedUnit oper name length behind) := by
  obtain ⟨t, n, hstep⟩ := h.atContent.step_of_hasRoom hlt h.isKeyword h.numeral hroom
  exact h.fst_parse_of_emit hstep

/-- Inside the content a modifier without room is rejected. -/
theorem rejects (hlt : s.consumed < announced)
    (hroom : ¬ s.HasRoom (countedSize oper name digits length)) :
    Rejects p buffer (.lengthMismatch announced
      (min (s.consumed + countedSize oper name digits length) (Decimal.bound - 1))) := by
  obtain ⟨offset, hstep⟩ := h.atContent.step_of_not_hasRoom hlt h.isKeyword h.numeral hroom
  exact h.rejects_of_fault hstep

/-- Beyond the content every modifier is rejected. -/
theorem rejects_beyond (hlt : announced < s.consumed) :
    Rejects p buffer (.lengthMismatch announced s.consumed) :=
  h.rejects_of_fault (h.atContent.step_of_lt hlt _)

/-- Just behind the content the packet ends, or its closing line is missed. -/
theorem ends_behind (heq : s.consumed = announced) :
    (∃ size, s.mode = .contentOnly size) ∧ (p.parse buffer).1 = .event .complete ∨
      (∀ size, s.mode ≠ .contentOnly size) ∧ Rejects p buffer .badClosingLine := by
  by_cases hmode : ∃ size, s.mode = .contentOnly size
  · obtain ⟨size, hsize⟩ := hmode
    exact .inl ⟨⟨size, hsize⟩,
      h.fst_parse_of_emit (h.atContent.step_of_contentOnly heq hsize _)⟩
  · have hpacket := not_exists.1 hmode
    exact .inr ⟨hpacket, h.rejects_of_fault (h.atContent.step_of_eq heq hpacket oper _)⟩

/-- A modifier that starts behind the content is not reported. -/
theorem lt_of_reports
    (hreported : (p.parse buffer).1 = .event (countedUnit oper name length behind)) :
    s.consumed < announced := by
  refine Nat.lt_of_not_le fun hle => ?_
  obtain hlt | heq := Nat.lt_or_eq_of_le hle
  · exact (h.rejects_beyond hlt).ne_event hreported
  · obtain ⟨-, hcomplete⟩ | ⟨-, hrejects⟩ := h.ends_behind heq.symm
    · rw [hcomplete] at hreported
      injection hreported with hunit
      exact countedUnit_ne_complete hunit.symm
    · exact hrejects.ne_event hreported

/-- A parser that comes to the head of a modifier with a length reports the modifier if and only if
    all of it fits into the content, unless the content has the largest length: then it reports
    every modifier that starts inside the content. Otherwise the length of the content is found to
    be wrong before anything of the value is reported. A modifier that starts behind the content is
    not read at all: content by itself is complete there, and in a packet the closing line is
    missed. -/
theorem counted_is_reported_iff :
    ((p.parse buffer).1 = .event (countedUnit oper name length behind) ↔
      s.consumed + countedSize oper name digits length ≤ announced ∨
        s.consumed < announced ∧ announced + 1 = Decimal.bound) ∧
    (s.consumed < announced → announced < s.consumed + countedSize oper name digits length →
      announced + 1 ≠ Decimal.bound →
      Rejects p buffer (.lengthMismatch announced
        (min (s.consumed + countedSize oper name digits length) (Decimal.bound - 1)))) ∧
    (announced < s.consumed → Rejects p buffer (.lengthMismatch announced s.consumed)) ∧
    (s.consumed = announced →
      (∃ size, s.mode = .contentOnly size) ∧ (p.parse buffer).1 = .event .complete ∨
        (∀ size, s.mode ≠ .contentOnly size) ∧ Rejects p buffer .badClosingLine) := by
  have hroom := h.hasRoom_iff
  have hpos : 0 < countedSize oper name digits length := Nat.succ_pos _
  refine ⟨⟨fun hreported => ?_, ?_⟩, fun hlt hover hne => ?_, h.rejects_beyond, h.ends_behind⟩
  · have hlt := h.lt_of_reports hreported
    by_cases hfits : s.HasRoom (countedSize oper name digits length)
    · exact (hroom.1 hfits).imp_right fun hlargest => ⟨hlt, hlargest⟩
    · exact absurd hreported (h.rejects hlt hfits).ne_event
  · rintro (hfits | ⟨hlt, hlargest⟩)
    · exact h.reports (by omega) (hroom.2 (.inl hfits))
    · exact h.reports hlt (hroom.2 (.inr hlargest))
  · exact h.rejects hlt fun hfits => (hroom.1 hfits).elim (Nat.not_le_of_lt hover) hne

end MeetsCounted

/-- A modifier of ten bytes is rejected in content of nine bytes and reported in content of ten. In
    content of the largest length one is reported of which the value alone has this length. -/
theorem counted_is_reported_iff_on_bounds :
    Rejects (parser .whole) (Bytes.ofText "9\n:_a 3\tabc") (.lengthMismatch 9 10) ∧
      ((parser .whole).parse (Bytes.ofText "10\n:_a 3\tab")).1 =
        .event (.entityOpening ⟨.set, Bytes.ofText "_a", Bytes.ofText "ab"⟩ 3) ∧
      ((parser (.contentOnly 18446744073709551615)).parse
          (Bytes.ofText ":_a 18446744073709551615\tx")).1 =
        .event (.entityOpening ⟨.set, Bytes.ofText "_a", Bytes.ofText "x"⟩
          18446744073709551615) := by
  have hname : isKeyword (Bytes.ofText "_a") := by decide +kernel
  have hnumeral {n : Nat} {text : Bytes} (hbound : n < Decimal.bound)
      (htext : Decimal.digits n = text) : Numeral n text := htext ▸ Decimal.numeral_digits hbound
  have hnine : Numeral 9 (Bytes.ofText "9") := hnumeral (by decide) (by decide +kernel)
  have hten : Numeral 10 (Bytes.ofText "10") := hnumeral (by decide) (by decide +kernel)
  have hthree : Numeral 3 (Bytes.ofText "3") := hnumeral (by decide) (by decide +kernel)
  have hlargest : Numeral 18446744073709551615 (Bytes.ofText "18446744073709551615") :=
    hnumeral (by decide) (by decide +kernel)
  have hover : MeetsCounted (parser .whole) (Bytes.ofText "9\n:_a 3\tabc")
      ((State.initial .whole).behindLength (.told 9)) 9 .set (Bytes.ofText "_a")
      (Bytes.ofText "3") 3 (Bytes.ofText "abc") :=
    ⟨Nat.zero_le _, ⟨Bytes.ofText "9\n", rfl, State.goesTo_length rfl rfl hnine⟩,
      ⟨rfl, rfl, rfl⟩, by decide, hname, hthree⟩
  have hfits : MeetsCounted (parser .whole) (Bytes.ofText "10\n:_a 3\tab")
      ((State.initial .whole).behindLength (.told 10)) 10 .set (Bytes.ofText "_a")
      (Bytes.ofText "3") 3 (Bytes.ofText "ab") :=
    ⟨Nat.zero_le _, ⟨Bytes.ofText "10\n", rfl, State.goesTo_length rfl rfl hten⟩,
      ⟨rfl, rfl, rfl⟩, by decide, hname, hthree⟩
  have hvast : MeetsCounted (parser (.contentOnly 18446744073709551615))
      (Bytes.ofText ":_a 18446744073709551615\tx")
      (.initial (.contentOnly 18446744073709551615)) 18446744073709551615 .set
      (Bytes.ofText "_a") (Bytes.ofText "18446744073709551615") 18446744073709551615
      (Bytes.ofText "x") :=
    ⟨Nat.zero_le _, ⟨[], rfl, .here⟩, ⟨rfl, rfl, rfl⟩, by decide, hname, hlargest⟩
  exact ⟨hover.counted_is_reported_iff.2.1 (by decide) (by decide) (by decide),
    hfits.counted_is_reported_iff.1.2 (.inl (by decide)),
    hvast.counted_is_reported_iff.1.2 (.inr ⟨by decide, rfl⟩)⟩

end PacketWire.Packet
