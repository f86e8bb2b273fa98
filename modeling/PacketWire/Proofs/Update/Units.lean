import PacketWire.Proofs.Element.Cut
import PacketWire.Proofs.Path.Units
import PacketWire.Proofs.Resumable.Runs
import PacketWire.Update.Parser

namespace PacketWire.Update

open Scan PacketWire.Path

/-!
# The units of an update

In front of the operator the steps of a path are read, up to a byte that starts none; from there on
the operator is (`step_path_eq_operator`). Which unit is read, and where more input is needed, is
said for the start of an update, and for the places behind a part of a key or of a value.
-/

variable {input text rest value : Bytes} {e : Event} {s t : State} {n length missing : Nat}
  {oper : Operator}

/-! ### The operator -/

/-- Nothing or a space stands in front of an operator. -/
def IsGap (gap : Bytes) : Prop := gap = [] ∨ gap = [Byte.space]

/-- The glyph of the operator. -/
def scanGlyph : Scan Cause (Event × State) := do
  match Operator.ofGlyph? (← peek) with
  | none => fault .noOperator
  | some oper =>
    skip 1
    return (.operator oper, .operand)

/-- The next byte is the glyph of an operator, or there is none. -/
theorem scanGlyph_cons {b : UInt8} :
    scanGlyph (b :: rest) =
      match Operator.ofGlyph? b with
      | none => .fault ⟨.noOperator, 0⟩
      | some oper => .done (.operator oper, .operand) 1 := by
  rw [scanGlyph, bind_of_done (peek_eq_done_iff.2 ⟨rfl, rest, rfl⟩), List.drop_zero,
    Outcome.shift_zero]
  cases Operator.ofGlyph? b with
  | none => rfl
  | some oper => exact bind_of_done (skip_of_le (by simp))

/-- A space in front of the operator is skipped. -/
theorem scanOperator_space : scanOperator (Byte.space :: rest) = (scanGlyph rest).shift 1 := by
  rw [scanOperator, peek?_bind]
  exact skip_bind_cons

/-- Without a space the operator comes at once. -/
theorem scanOperator_of_ne {b : UInt8} (hb : b ≠ Byte.space) :
    scanOperator (b :: rest) = scanGlyph (b :: rest) := by
  rw [scanOperator, peek?_bind, List.head?_cons, if_neg (by simpa using hb)]
  rfl

/-- A byte that stands for no operator takes no place of one. -/
theorem scanOperator_of_none {b : UInt8} (hb : b ≠ Byte.space)
    (hoper : Operator.ofGlyph? b = none) :
    scanOperator (b :: rest) = .fault ⟨.noOperator, 0⟩ := by
  rw [scanOperator_of_ne hb, scanGlyph_cons, hoper]

/-- An operator is read with the space in front of it. -/
theorem scanOperator_glyph {gap : Bytes} (h : IsGap gap) :
    scanOperator (gap ++ oper.glyph :: rest) =
      .done (.operator oper, .operand) (gap.length + 1) := by
  have hglyph : scanGlyph (oper.glyph :: rest) = .done (.operator oper, .operand) 1 := by
    rw [scanGlyph_cons, Operator.ofGlyph?_glyph]
  obtain rfl | rfl := h
  · exact (scanOperator_of_ne (by cases oper <;> decide)).trans hglyph
  · show scanOperator (Byte.space :: oper.glyph :: rest) = _
    rw [scanOperator_space, hglyph]
    rfl

/-- Where the operator comes next, it is read or more input is needed behind the gap in front of it,
    or there is a fault. -/
theorem scanOperator_cases :
    (∃ gap rest, ∃ oper : Operator, IsGap gap ∧ input = gap ++ oper.glyph :: rest) ∨
      (IsGap input ∧ scanOperator input = .more) ∨ ∃ f, scanOperator input = .fault f := by
  cases input with
  | nil => exact .inr (.inl ⟨.inl rfl, rfl⟩)
  | cons b rest =>
    by_cases hb : b = Byte.space
    · subst hb
      rw [scanOperator_space]
      cases rest with
      | nil => exact .inr (.inl ⟨.inr rfl, rfl⟩)
      | cons b rest =>
        rw [scanGlyph_cons]
        cases hoper : Operator.ofGlyph? b with
        | none => exact .inr (.inr ⟨_, rfl⟩)
        | some oper =>
          obtain rfl := Operator.ofGlyph?_eq_some_iff.1 hoper
          exact .inl ⟨[Byte.space], rest, oper, .inr rfl, rfl⟩
    · rw [scanOperator_of_ne hb, scanGlyph_cons]
      cases hoper : Operator.ofGlyph? b with
      | none => exact .inr (.inr ⟨_, rfl⟩)
      | some oper =>
        obtain rfl := Operator.ofGlyph?_eq_some_iff.1 hoper
        exact .inl ⟨[], rest, oper, .inl rfl, rfl⟩

/-! ### The start of an update -/

/-- What stands where no step of a path starts is read as the operator is. -/
theorem step_path_eq_operator (h : Stops startsSegment input) :
    machine.step (.path .segment) input = machine.step .operator input := by
  have hscan : scanSegment true input = .done (.finish, .segment) 0 := by
    refine scanSegment_eq_done_iff.2 ⟨[], input, ?_, rfl, rfl⟩
    cases input with
    | nil => exact .finish
    | cons b rest => exact .finishEmbedded rfl (stops_cons_iff.1 h)
  show readPath .segment input = _
  have hstep : Path.step true .segment input = .emit .finish .segment 0 :=
    Step.ofScan_of_done hscan
  rw [readPath, hstep]
  exact Step.shift_zero _

/-- The text of a unit at the start of an update, in front of these bytes, with the state behind
    it. -/
inductive StartUnit : Bytes → Bytes → Event → State → Prop where
  /-- A step of the path. -/
  | segment {seg : Segment} {text rest : Bytes} :
      SegmentSpelled seg text → seg.Stops rest →
        StartUnit text rest (.path (.segment seg)) (.path .segment)
  /-- A key that the input cuts. -/
  | keyOpening {value digits : Bytes} {length : Nat} :
      Numeral length digits → value.length < length →
        StartUnit (Byte.openBrace :: digits ++ Byte.space :: value) []
          (.path (.keyOpening value length)) (.path (.keyWithin (length - value.length)))
  /-- The operator. -/
  | operator {gap rest : Bytes} {oper : Operator} :
      IsGap gap → StartUnit (gap ++ [oper.glyph]) rest (.operator oper) .operand

/-- A step of the path that is read by itself is read as a unit of the update. -/
theorem step_path_of_piece {piece : Path.Piece} {state : Path.State}
    (h : scanSegment true input = .done (.piece piece, state) n) :
    machine.step (.path .segment) input = .emit (.path piece) (.path state) n := by
  have hstep : Path.step true .segment input = .emit (.piece piece) state n :=
    Step.ofScan_of_done h
  show readPath .segment input = _
  rw [readPath, hstep]

/-- Neither a space nor the glyph of an operator starts a step of a path. -/
theorem stops_of_isGap {gap : Bytes} (h : IsGap gap) :
    Stops startsSegment (gap ++ oper.glyph :: rest) := by
  obtain rfl | rfl := h
  · exact stops_cons_iff.2 (by cases oper <;> decide)
  · exact stops_cons_iff.2 (by decide)

/-- What stands at the start of an update is read as its unit. -/
theorem step_of_startUnit (h : StartUnit text rest e t) :
    machine.step (.path .segment) (text ++ rest) = .emit e t text.length := by
  cases h with
  | segment hspelled hstops =>
    exact step_path_of_piece
      (scanSegment_eq_done_iff.2 ⟨text, rest, .segment hspelled hstops, rfl, rfl⟩)
  | keyOpening hnum hlt =>
    exact step_path_of_piece (scanSegment_eq_done_iff.2 ⟨_, [], .keyOpening hnum hlt, rfl, rfl⟩)
  | operator hgap =>
    rw [List.append_assoc, List.singleton_append,
      step_path_eq_operator (stops_of_isGap hgap)]
    refine (Step.ofScan_of_done (scanOperator_glyph hgap)).trans ?_
    simp

/-- At the start of an update a unit is read or more input is needed, or there is a fault. More
    input is needed for a key, or for an operator if nothing but the gap in front of it is there. -/
theorem step_path_cases :
    (∃ text rest e t, StartUnit text rest e t ∧ input = text ++ rest) ∨
      machine.step (.path .segment) input = .wait (.path .segment) 0 ∨
      (IsGap input ∧ machine.step (.path .segment) input = .wait .operator 0) ∨
      ∃ f, machine.step (.path .segment) input = .fault f := by
  -- Where no step starts, the operator is looked for; else the step decides.
  by_cases hstops : Stops startsSegment input
  · rw [step_path_eq_operator hstops]
    obtain ⟨gap, rest, oper, hgap, rfl⟩ | ⟨hgap, hmore⟩ | ⟨f, hfault⟩ := @scanOperator_cases input
    · exact .inl ⟨gap ++ [oper.glyph], rest, _, _, .operator hgap, by simp⟩
    · exact .inr (.inr (.inl ⟨hgap, Step.ofScan_of_more hmore⟩))
    · exact .inr (.inr (.inr ⟨f, Step.ofScan_of_fault hfault⟩))
  · have hread : machine.step (.path .segment) input = readPath .segment input := rfl
    cases hscan : scanSegment true input with
    | more =>
      have hstep : Path.step true .segment input = .wait .segment 0 := Step.ofScan_of_more hscan
      exact .inr (.inl (by rw [hread, readPath, hstep]))
    | fault f =>
      have hstep : Path.step true .segment input = .fault f := Step.ofScan_of_fault hscan
      exact .inr (.inr (.inr ⟨f.map .path, by rw [hread, readPath, hstep]⟩))
    | done found n =>
      obtain ⟨e, t⟩ := found
      obtain ⟨text, rest, hunit, rfl, rfl⟩ := scanSegment_eq_done_iff.1 hscan
      cases hunit with
      | segment hspelled hrest => exact .inl ⟨_, _, _, _, .segment hspelled hrest, rfl⟩
      | keyOpening hnum hlt => exact .inl ⟨_, _, _, _, .keyOpening hnum hlt, rfl⟩
      | finish => exact absurd stops_nil hstops
      | finishEmbedded _ hb => exact absurd (stops_cons_iff.2 hb) hstops

/-- At the start of an update a unit is read just where one is spelled. -/
theorem step_path_eq_emit_iff :
    machine.step (.path .segment) input = .emit e t n ↔
      ∃ text rest, StartUnit text rest e t ∧ input = text ++ rest ∧ n = text.length := by
  constructor
  · intro h
    obtain ⟨text, rest, e', t', hunit, rfl⟩ | hwait | ⟨-, hwait⟩ | ⟨f, hfault⟩ :=
      @step_path_cases input
    · rw [step_of_startUnit hunit] at h
      cases h
      exact ⟨text, rest, hunit, rfl, rfl⟩
    · rw [hwait] at h; cases h
    · rw [hwait] at h; cases h
    · rw [hfault] at h; cases h
  · rintro ⟨text, rest, hunit, rfl, rfl⟩
    exact step_of_startUnit hunit

/-- More input is needed for a step of the path, or for the operator behind it. -/
theorem eq_of_step_path_eq_wait (h : machine.step (.path .segment) input = .wait t n) :
    n = 0 ∧ (t = .path .segment ∨ t = .operator ∧ IsGap input) := by
  obtain ⟨text, rest, e', t', hunit, rfl⟩ | hwait | ⟨hgap, hwait⟩ | ⟨f, hfault⟩ :=
    @step_path_cases input
  · rw [step_of_startUnit hunit] at h; cases h
  · rw [hwait] at h; cases h; exact ⟨rfl, .inl rfl⟩
  · rw [hwait] at h; cases h; exact ⟨rfl, .inr ⟨rfl, hgap⟩⟩
  · rw [hfault] at h; cases h

/-! ### The rest of a key -/

/-- The rest of a key is read when all of it is there. -/
theorem step_keyWithin_of_length (hlength : value.length = missing) (hne : value ≠ []) :
    machine.step (.path (.keyWithin missing)) (value ++ rest) =
      .emit (.path (.keyPiece value true)) (.path .keyEnd) missing := by
  have htake : (takeOn missing : Scan Path.Cause Portion) (value ++ rest) =
      .done (.whole value) missing :=
    takeOn_eq_done_iff.2 ⟨by simp [hne], take_eq_whole_iff.2 ⟨rfl, hlength, rest, rfl⟩⟩
  have hscan : scanKeyPiece missing (value ++ rest) =
      .done (.piece (.keyPiece value true), .keyEnd) missing := bind_of_done htake
  have hstep : Path.step true (.keyWithin missing) (value ++ rest) =
      .emit (.piece (.keyPiece value true)) .keyEnd missing := Step.ofScan_of_done hscan
  show readPath (.keyWithin missing) _ = _
  rw [readPath, hstep]

/-- Within a key more input is needed where there is none. -/
theorem step_keyWithin_nil :
    machine.step (.path (.keyWithin missing)) [] = .wait (.path (.keyWithin missing)) 0 := rfl

/-- Behind the brace that closes a key the machine goes on as at the start of an update. -/
theorem step_keyEnd :
    machine.step (.path .keyEnd) (Byte.closeBrace :: rest) =
      (machine.step (.path .segment) rest).shift 1 := by
  show readPath .keyEnd _ = (readPath .segment rest).shift 1
  rw [readPath, readPath, step_keyEnd_closeBrace]
  cases Path.step true .segment rest with
  | emit e state n =>
    cases e with
    | piece piece => rfl
    | finish =>
      show (Step.ofScan scanOperator .operator ((Byte.closeBrace :: rest).drop (1 + n))).shift _ = _
      rw [Step.shift_shift, Nat.add_comm 1 n]
      rfl
  | wait state n => rfl
  | fault f => rfl

/-! ### The operand -/

/-- An operand is read as a whole, or the first part of it. -/
theorem scanOperand_eq_done (h : scanOperand input = .done (e, t) n) :
    (∃ operand isLast, Element.scan form input = .done (.whole operand isLast) n ∧
      e = .operand operand ∧ t = .done) ∨
      ∃ type value length, Element.scan form input = .done (.opening type value length) n ∧
        e = .opening type value length ∧ t = .within (length - value.length) := by
  obtain ⟨portion, j, k, hscan, hk, rfl⟩ := bind_eq_done_iff.1 h
  cases portion with
  | whole operand isLast =>
    cases hk
    exact .inl ⟨operand, isLast, hscan, rfl, rfl⟩
  | opening type value length =>
    cases hk
    exact .inr ⟨type, value, length, hscan, rfl, rfl⟩

/-- What is read of an operand tells the state behind it. -/
theorem step_operand_eq_emit (h : machine.step .operand input = .emit e t n) :
    (∃ operand, e = .operand operand ∧ t = .done) ∨
      ∃ type value length, e = .opening type value length ∧ t = .within (length - value.length) ∧
        form.Opens type value length input ∧ n = input.length := by
  obtain ⟨operand, -, -, rfl, rfl⟩ | ⟨type, value, length, hscan, rfl, rfl⟩ :=
    scanOperand_eq_done (Step.ofScan_eq_emit_iff.1 h)
  · exact .inl ⟨operand, rfl, rfl⟩
  · obtain ⟨hopens, hn⟩ := Element.scan_eq_opening_iff.1 hscan
    exact .inr ⟨type, value, length, rfl, rfl, hopens, hn⟩

/-- Where the operand needs more, nothing of it has been taken. -/
theorem eq_of_step_operand_eq_wait (h : machine.step .operand input = .wait t n) :
    t = .operand ∧ n = 0 := (Step.ofScan_eq_wait_iff.1 h).2

/-- An operand that was cut is read whole only where just the rest of it has come. -/
theorem eq_of_step_operand_eq_operand {type back : Bytes} {operand : Element}
    (hopens : form.Opens type value length input)
    (h : machine.step .operand (input ++ back) = .emit (.operand operand) t n) :
    operand = ⟨type, value ++ back, true⟩ ∧ t = .done ∧ back.length = length - value.length ∧
      n = (input ++ back).length := by
  obtain ⟨_, isLast, hscan, hoperand, rfl⟩ | ⟨_, _, _, -, hopening, -⟩ :=
    scanOperand_eq_done (Step.ofScan_eq_emit_iff.1 h)
  · cases hoperand
    obtain ⟨piece, rest, rfl, rfl, hlength, hends, rfl⟩ := hopens.exists_of_scan_eq_whole hscan
    obtain rfl := Element.endsBefore_none_iff.1 hends
    rw [List.append_nil]
    exact ⟨rfl, rfl, hlength, List.length_append.symm⟩
  · cases hopening

/-- The rest of an operand is read when all of it is there. -/
theorem step_within_of_length (hlength : value.length = missing) (hne : value ≠ []) :
    machine.step (.within missing) (value ++ rest) = .emit (.piece value true) .done missing := by
  have htake : (takeOn missing : Scan Cause Portion) (value ++ rest) =
      .done (.whole value) missing :=
    takeOn_eq_done_iff.2 ⟨by simp [hne], take_eq_whole_iff.2 ⟨rfl, hlength, rest, rfl⟩⟩
  have hscan : scanPiece missing (value ++ rest) = .done (.piece value true, .done) missing :=
    bind_of_done htake
  exact Step.ofScan_of_done hscan

/-- Within an operand more input is needed where there is none. -/
theorem step_within_nil : machine.step (.within missing) [] = .wait (.within missing) 0 := rfl

/-- Nothing but the end comes behind the operand. -/
theorem eq_of_step_done_eq_emit (h : machine.step .done input = .emit e t n) : e = .finish := by
  cases input with
  | nil => cases h; rfl
  | cons b rest => cases h

/-- Behind the operand no more input is needed. -/
theorem step_done_ne_wait : machine.step .done input ≠ .wait t n := by
  cases input <;> nofun

/-! ### What is taken -/

/-- The operator takes no more than there is. -/
theorem isBounded_scanOperator : scanOperator.IsBounded := by
  refine .bind isBounded_peek? fun b? => ?_
  have hglyph : scanGlyph.IsBounded := by
    refine .bind isBounded_peek fun b => ?_
    cases Operator.ofGlyph? b with
    | none => exact isBounded_fault _
    | some oper => exact .bind (isBounded_skip 1) fun _ => isBounded_pure _
  split
  · exact .bind (isBounded_skip 1) fun _ => hglyph
  · exact hglyph

/-- A part of an operand takes no more than there is. -/
theorem isBounded_scanPiece : (scanPiece missing).IsBounded := by
  refine .bind (isBounded_takeOn missing) fun portion => ?_
  cases portion <;> exact isBounded_pure _

/-- An operand takes no more than there is. -/
theorem isBounded_scanOperand : scanOperand.IsBounded := by
  refine .bind Element.isBounded_scan fun portion => ?_
  cases portion <;> exact isBounded_pure _

/-- The end takes nothing. -/
theorem isBounded_scanEnd : scanEnd.IsBounded := by
  refine .bind isBounded_peek? fun b? => ?_
  cases b? with
  | none => exact isBounded_pure _
  | some b => exact isBounded_fault _

/-- The path and the operator behind it take no more than there is. -/
theorem used_readPath_le (state : Path.State) : (readPath state input).used ≤ input.length := by
  have hle : (Path.step true state input).used ≤ input.length := used_step_le state
  unfold readPath
  cases hstep : Path.step true state input with
  | wait state n => rwa [hstep] at hle
  | fault f => exact Nat.zero_le _
  | emit e state n =>
    rw [hstep] at hle
    cases e with
    | piece piece => exact hle
    | finish => exact Step.used_shift_le hle (Step.used_ofScan_le isBounded_scanOperator)

/-- No step of an update takes more than there is. -/
theorem isBounded_machine : machine.IsBounded := by
  refine Machine.isBounded_of_used_le fun s input => ?_
  cases s with
  | path state => exact used_readPath_le state
  | operator => exact Step.used_ofScan_le isBounded_scanOperator
  | operand => exact Step.used_ofScan_le isBounded_scanOperand
  | within missing => exact Step.used_ofScan_le isBounded_scanPiece
  | done => exact Step.used_ofScan_le isBounded_scanEnd

end PacketWire.Update
