import PacketWire.Proofs.Packet.Growth
import PacketWire.Proofs.Packet.Units.Body
import PacketWire.Proofs.Packet.Units.Content
import PacketWire.Proofs.Packet.Units.Header

namespace PacketWire.Packet

open Scan

/-!
# Moves and units

What a step of the packet parser does is taken apart into moves, which lead from one part of the
packet to the next without a unit, and the unit behind them. Both are told by relations between a
state, the text that is taken, the bytes behind it, and the state behind it (`State.Moves`,
`State.Reads`). `step_of_moves` and `step_of_reads` say what a step is from what it can do.
-/

/-- The part at which the content starts. -/
def contentPart : Mode → Part
  | .routingOnly => .data
  | _ => .content

namespace State

/-- The state behind the length line. -/
def behindLength (s : State) : LengthLine → State
  | .absent => { s with part := .closing }
  | .untold => { s with announced := none, part := contentPart s.mode }
  | .told length => { s with announced := some length, part := contentPart s.mode }

/-- There is no raw content left in front of these bytes. -/
def NoData (s : State) (rest : Bytes) : Prop :=
  (s.announced = none ∧ ∃ behind, rest = closingLine ++ behind) ∨
    ∃ announced, s.announced = some announced ∧ announced ≤ s.consumed

/-- The ways to go on to the next part of a packet, by the text that is taken and the bytes behind
    it. -/
inductive Moves : State → Bytes → Bytes → State → Prop where
  /-- The line feed behind a value. -/
  | lineFeed {s : State} {line : LineEnd} {rest : Bytes} :
      s.owed = .lineFeed line →
        Moves s [Byte.lineFeed] rest { s.consume 1 with owed := .nothing }
  /-- No operator starts a routing modifier. -/
  | routing {s : State} {b : UInt8} {rest : Bytes} :
      s.owed = .nothing → s.part = .routing → Operator.ofGlyph? b = none →
        Moves s [] (b :: rest) { s with part := .length }
  /-- The length line, or the closing line in its place. -/
  | length {s : State} {text rest : Bytes} {line : LengthLine} :
      s.owed = .nothing → s.part = .length → LengthUnit text rest line →
        Moves s text rest (s.behindLength line)
  /-- All of the content has been read. -/
  | full {s : State} {rest : Bytes} :
      s.owed = .nothing → s.part = .content → s.isFull = true →
        Moves s [] rest { s with part := .closing }
  /-- No operator starts an entity modifier. -/
  | content {s : State} {b : UInt8} {rest : Bytes} :
      s.owed = .nothing → s.part = .content → s.isFull = false → Operator.ofGlyph? b = none →
        Moves s [] (b :: rest) { s with part := .method }
  /-- There is no method. -/
  | method {s : State} {b : UInt8} {rest : Bytes} :
      s.owed = .nothing → s.part = .method → Byte.isKeyword b = false →
        Moves s [] (b :: rest) { s with part := .closing }
  /-- There is no raw content. -/
  | data {s : State} {rest : Bytes} :
      s.owed = .nothing → s.part = .data → s.NoData rest →
        Moves s [] rest { s with part := .closing }

/-- The ways to read a unit, by its text and the bytes behind it. -/
inductive Reads : State → Bytes → Bytes → Event → State → Prop where
  /-- A further part of a value. -/
  | piece {s : State} {slot : Slot} {missing : Nat} {text rest : Bytes} {e : Event} {owed : Owed} :
      s.owed = .value slot missing → PieceUnit slot missing text rest e owed →
        Reads s text rest e { s.consume text.length with owed }
  /-- A routing modifier. -/
  | routing {s : State} {m : Modifier} {text rest : Bytes} :
      s.owed = .nothing → s.part = .routing → PlainSpelled m text →
        Reads s text rest (.routing m) s
  /-- A state action or an entity modifier. -/
  | content {s : State} {text rest : Bytes} {e : Event} {owed : Owed} :
      s.owed = .nothing → s.part = .content → s.isFull = false →
        ContentUnit s text rest e owed → Reads s text rest e { s.consume text.length with owed }
  /-- The method and the data. -/
  | body {s : State} {method data rest : Bytes} {e : Event} {owed : Owed} :
      s.owed = .nothing → s.part = .method → isKeyword method → BodyUnit s method data rest e owed →
        Reads s (method ++ Byte.lineFeed :: data) rest e
          { s.consume (method ++ Byte.lineFeed :: data).length with part := .closing, owed }
  /-- Raw content. -/
  | data {s : State} {text rest : Bytes} {e : Event} {owed : Owed} :
      s.owed = .nothing → s.part = .data → DataUnit s text rest e owed →
        Reads s text rest e { s.consume text.length with part := .closing, owed }
  /-- The end of the packet. -/
  | closing {s : State} {rest : Bytes} :
      s.owed = .nothing → s.part = .closing → s.IsExact →
        Reads s (ending s.mode) rest .complete (.initial s.mode)

/-- From a state and the text and the bytes behind it, moves alone lead over the text to another
    state. -/
inductive GoesTo : State → Bytes → Bytes → State → Prop where
  /-- There is no move. -/
  | here {s : State} {rest : Bytes} : GoesTo s [] rest s
  /-- A move, and more behind it. -/
  | move {s t u : State} {text text' rest : Bytes} :
      s.Moves text (text' ++ rest) t → GoesTo t text' rest u → GoesTo s (text ++ text') rest u

/-- A value is open. -/
def HasOpen (s : State) : Prop := ∃ slot missing, s.owed = .value slot missing

variable {s t : State} {text rest : Bytes} {e : Event} {line : LineEnd}

/-- The moves at a part of which nothing is owed. -/
theorem Moves.inv {part : Part} (h : s.Moves text rest t) (ho : s.owed = .nothing) :
    s.part = part → match part with
    | .routing => text = [] ∧ t = { s with part := .length } ∧
        ∃ b behind, rest = b :: behind ∧ Operator.ofGlyph? b = none
    | .length => ∃ line, LengthUnit text rest line ∧ t = s.behindLength line
    | .content => text = [] ∧ ((s.isFull = true ∧ t = { s with part := .closing }) ∨
        (s.isFull = false ∧ t = { s with part := .method } ∧
          ∃ b behind, rest = b :: behind ∧ Operator.ofGlyph? b = none))
    | .method => text = [] ∧ t = { s with part := .closing } ∧
        ∃ b behind, rest = b :: behind ∧ Byte.isKeyword b = false
    | .data => text = [] ∧ s.NoData rest ∧ t = { s with part := .closing }
    | .closing => False := by
  rintro rfl
  cases h with
  | lineFeed ho' => rw [ho] at ho'; cases ho'
  | routing _ hp hb => rw [hp]; exact ⟨rfl, rfl, _, _, rfl, hb⟩
  | length _ hp hline => rw [hp]; exact ⟨_, hline, rfl⟩
  | full _ hp hfull => rw [hp]; exact ⟨rfl, .inl ⟨hfull, rfl⟩⟩
  | content _ hp hfull hb => rw [hp]; exact ⟨rfl, .inr ⟨hfull, rfl, _, _, rfl, hb⟩⟩
  | method _ hp hb => rw [hp]; exact ⟨rfl, rfl, _, _, rfl, hb⟩
  | data _ hp hno => rw [hp]; exact ⟨rfl, hno, rfl⟩

/-- The move behind a value. -/
theorem Moves.inv_lineFeed (h : s.Moves text rest t) (ho : s.owed = .lineFeed line) :
    text = [Byte.lineFeed] ∧ t = { s.consume 1 with owed := .nothing } := by
  cases h with
  | lineFeed => exact ⟨rfl, rfl⟩
  | routing ho' => rw [ho] at ho'; cases ho'
  | length ho' => rw [ho] at ho'; cases ho'
  | full ho' => rw [ho] at ho'; cases ho'
  | content ho' => rw [ho] at ho'; cases ho'
  | method ho' => rw [ho] at ho'; cases ho'
  | data ho' => rw [ho] at ho'; cases ho'

/-- The units at a part of which nothing is owed. -/
theorem Reads.inv {part : Part} (h : s.Reads text rest e t) (ho : s.owed = .nothing) :
    s.part = part → match part with
    | .routing => t = s ∧ ∃ m, PlainSpelled m text ∧ e = .routing m
    | .length => False
    | .content => s.isFull = false ∧
        ∃ owed, ContentUnit s text rest e owed ∧ t = { s.consume text.length with owed }
    | .method => ∃ method data owed, isKeyword method ∧ BodyUnit s method data rest e owed ∧
        text = method ++ Byte.lineFeed :: data ∧
        t = { s.consume text.length with part := .closing, owed }
    | .data => ∃ owed, DataUnit s text rest e owed ∧
        t = { s.consume text.length with part := .closing, owed }
    | .closing => s.IsExact ∧ text = ending s.mode ∧ e = .complete ∧ t = .initial s.mode := by
  rintro rfl
  cases h with
  | piece ho' => rw [ho] at ho'; cases ho'
  | routing _ hp hm => rw [hp]; exact ⟨rfl, _, hm, rfl⟩
  | content _ hp hfull hunit => rw [hp]; exact ⟨hfull, _, hunit, rfl⟩
  | body _ hp hkey hunit => rw [hp]; exact ⟨_, _, _, hkey, hunit, rfl, rfl⟩
  | data _ hp hunit => rw [hp]; exact ⟨_, hunit, rfl⟩
  | closing _ hp hexact => rw [hp]; exact ⟨hexact, rfl, rfl, rfl⟩

/-- No move changes the mode. -/
theorem Moves.mode_eq (h : s.Moves text rest t) : t.mode = s.mode := by
  cases h with
  | @length _ _ line => cases line <;> rfl
  | _ => rfl

/-- No unit changes the mode. -/
theorem Reads.mode_eq (h : s.Reads text rest e t) : t.mode = s.mode := by
  cases h <;> rfl

/-- Nothing is owed behind a move, and no value is open in front of it. -/
theorem Moves.owed_eq (h : s.Moves text rest t) : t.owed = .nothing ∧ ¬ s.HasOpen := by
  have hnothing : s.owed = .nothing → ¬ s.HasOpen := by
    rintro ho ⟨slot, missing, hv⟩
    rw [ho] at hv
    cases hv
  cases h with
  | lineFeed ho =>
    refine ⟨rfl, ?_⟩
    rintro ⟨slot, missing, hv⟩
    rw [ho] at hv
    cases hv
  | routing ho => exact ⟨ho, hnothing ho⟩
  | full ho => exact ⟨ho, hnothing ho⟩
  | content ho => exact ⟨ho, hnothing ho⟩
  | method ho => exact ⟨ho, hnothing ho⟩
  | data ho => exact ⟨ho, hnothing ho⟩
  | @length _ _ line ho =>
    refine ⟨?_, hnothing ho⟩
    cases line <;> exact ho

/-- The end of a packet is read where nothing is owed and the content has its length. -/
theorem Reads.inv_complete (h : s.Reads text rest .complete t) :
    s.owed = .nothing ∧ s.IsExact ∧ text = ending s.mode ∧ t = .initial s.mode := by
  cases h with
  | closing ho _ hexact => exact ⟨ho, hexact, rfl, rfl⟩
  | piece _ hunit => cases hunit
  | content _ _ _ hunit => cases hunit
  | body _ _ _ hunit => cases hunit
  | data _ _ hunit => cases hunit

/-- The next packet starts behind the end of one. -/
theorem Reads.eq_initial (h : s.Reads text rest .complete t) : t = .initial s.mode :=
  h.inv_complete.2.2.2

/-- A move by itself. -/
theorem GoesTo.of_move (h : s.Moves text rest t) : s.GoesTo text rest t := by
  have hgo : s.GoesTo (text ++ []) rest t := .move h .here
  rwa [List.append_nil] at hgo

/-- However many moves are made, the mode stays. -/
theorem GoesTo.mode_eq (h : s.GoesTo text rest t) : t.mode = s.mode := by
  induction h with
  | here => rfl
  | move hm _ ih => rw [ih, hm.mode_eq]

/-- Moves leave nothing owed where nothing was. -/
theorem GoesTo.owed_eq (h : s.GoesTo text rest t) (ho : s.owed = .nothing) : t.owed = .nothing := by
  induction h with
  | here => exact ho
  | move hm _ ih => exact ih hm.owed_eq.1

/-- What moves take behind a value starts with the line feed. -/
theorem GoesTo.inv_lineFeed (h : s.GoesTo text rest t) (ho : s.owed = .lineFeed line) :
    (text = [] ∧ t = s) ∨ ∃ behind, text = Byte.lineFeed :: behind ∧ t.owed = .nothing := by
  cases h with
  | here => exact .inl ⟨rfl, rfl⟩
  | @move _ u _ _ behind _ hm hgo =>
    obtain ⟨rfl, -⟩ := hm.inv_lineFeed ho
    exact .inr ⟨behind, rfl, hgo.owed_eq hm.owed_eq.1⟩

/-- A unit is read where nothing is owed, or it is a further part of a value. -/
theorem Reads.nothing_or_piece (h : s.Reads text rest e t) :
    s.owed = .nothing ∨ ∃ slot missing owed, s.owed = .value slot missing ∧
      PieceUnit slot missing text rest e owed ∧ t = { s.consume text.length with owed } := by
  cases h with
  | piece ho hunit => exact .inr ⟨_, _, _, ho, hunit, rfl⟩
  | routing ho => exact .inl ho
  | content ho => exact .inl ho
  | body ho => exact .inl ho
  | data ho => exact .inl ho
  | closing ho => exact .inl ho

/-- No unit is read in front of the line feed behind a value. -/
theorem not_reads_of_lineFeed (ho : s.owed = .lineFeed line) : ¬ s.Reads text rest e t := by
  intro h
  obtain ho' | ⟨slot, missing, owed, ho', -⟩ := h.nothing_or_piece
  · rw [ho] at ho'
    cases ho'
  · rw [ho] at ho'
    cases ho'

end State

variable {s t : State} {input text rest : Bytes} {e : Event}

/-- An open value is not gone on with where there is nothing. -/
theorem step_nil_of_open (h : s.HasOpen) : step s [] = .wait s 0 := by
  obtain ⟨slot, missing, ho⟩ := h
  rw [step, ho]
  rfl

/-! ### A step from what it can do -/

/-- A unit that is found is counted. -/
theorem record_of_some {part : Part} {scan : Scan Cause (Option (Event × Owed))} {owed : Owed}
    {n : Nat} (h : scan input = .done (some (e, owed)) n) :
    record s part scan input = .done (some (e, { s.consume n with part, owed })) n :=
  bind_of_done (measured_of_done h)

/-- Where there is none nothing is counted. -/
theorem record_of_none {part : Part} {scan : Scan Cause (Option (Event × Owed))} {n : Nat}
    (h : scan input = .done none n) : record s part scan input = .done none n :=
  bind_of_done (measured_of_done h)

/-- The content is read in the way that the mode asks for. -/
theorem step_contentPart (h : s.owed = .nothing) :
    step { s with part := contentPart s.mode } = readAnyContent s := by
  obtain ⟨mode, part, announced, consumed, owed⟩ := s
  obtain rfl : owed = .nothing := h
  cases mode <;> rfl

/-- What is read behind the length line. -/
theorem step_behindLength (h : s.owed = .nothing) (line : LengthLine) :
    step (s.behindLength line) =
      match line with
      | .absent => readClosing s
      | .untold => readAnyContent { s with announced := none }
      | .told length => readAnyContent { s with announced := some length } := by
  cases line with
  | absent => exact step_of_nothing h
  | untold => exact @step_contentPart { s with announced := none } h
  | told length => exact @step_contentPart { s with announced := some length } h

/-- A move takes its text, and the step goes on behind it. -/
theorem step_of_moves (h : s.Moves text rest t) :
    step s (text ++ rest) = (step t rest).shift text.length := by
  -- Each move is a branch of the step: its bytes are read, and the next part is given the others.
  cases h with
  | @lineFeed line _ howed =>
    have hbyte : byte Byte.lineFeed line.cause ([Byte.lineFeed] ++ rest) = .done () 1 :=
      byte_eq_done_iff.2 ⟨rfl, rest, rfl⟩
    rw [step, howed]
    exact Step.andThen_of_done hbyte
  | @routing b behind howed hpart hb =>
    have hscan : (do return (← scanRouting).map fun event => (event, s) :
        Scan Cause (Option (Event × State))) (b :: behind) = .done none 0 :=
      bind_of_done (scanRouting_eq_none_iff.2 ⟨rfl, b, behind, hb, rfl⟩)
    have ht : step { s with part := .length } = readLength s := step_of_nothing howed
    rw [step_of_nothing howed, readPart, hpart, ht]
    exact Step.ofScan?_of_none hscan
  | @length _ _ line howed hpart hline =>
    have hscan : scanLengthLine (text ++ rest) = .done line text.length :=
      scanLengthLine_eq_done_iff.2 ⟨text, rest, hline, rfl, rfl⟩
    rw [step_of_nothing howed, readPart, hpart]
    show readLength s (text ++ rest) = _
    rw [readLength, Step.andThen_of_done hscan, List.drop_left]
    exact congrArg (Step.shift text.length) (congrFun (step_behindLength howed line).symm rest)
  | full howed hpart hfull =>
    have ht : step { s with part := .closing } = readClosing s := step_of_nothing howed
    rw [step_of_nothing howed, readPart, hpart, ht]
    show readContent s rest = (readClosing s rest).shift 0
    rw [readContent, if_pos hfull, Step.shift_zero]
  | @content b behind howed hpart hfull hb =>
    have hscan : record s .content (scanContent s) (b :: behind) = .done none 0 :=
      record_of_none (scanContent_eq_none_iff.2 ⟨rfl, b, behind, hb, rfl⟩)
    have ht : step { s with part := .method } = readMethod s := step_of_nothing howed
    rw [step_of_nothing howed, readPart, hpart, ht]
    show readContent s (b :: behind) = _
    rw [readContent, if_neg (by simp [hfull])]
    exact Step.ofScan?_of_none hscan
  | @method b behind howed hpart hb =>
    have hscan : record s .closing (scanBody s) (b :: behind) = .done none 0 :=
      record_of_none (scanBody_eq_none_iff.2 ⟨rfl, b, behind, hb, rfl⟩)
    have ht : step { s with part := .closing } = readClosing s := step_of_nothing howed
    rw [step_of_nothing howed, readPart, hpart, ht]
    exact Step.ofScan?_of_none hscan
  | data howed hpart hno =>
    have hscan : record s .closing (scanData s) rest = .done none 0 :=
      record_of_none (scanData_eq_none_iff.2 ⟨rfl, hno⟩)
    have ht : step { s with part := .closing } = readClosing s := step_of_nothing howed
    rw [step_of_nothing howed, readPart, hpart, ht]
    exact Step.ofScan?_of_none hscan

/-- A step goes on behind the moves it makes. -/
theorem step_of_goesTo (h : s.GoesTo text rest t) :
    step s (text ++ rest) = (step t rest).shift text.length := by
  induction h with
  | here => exact (Step.shift_zero _).symm
  | move hm _ ih =>
    rw [List.append_assoc, step_of_moves hm, ih, Step.shift_shift, List.length_append]

/-- A unit that can be read is read. -/
theorem step_of_reads (h : s.Reads text rest e t) :
    step s (text ++ rest) = .emit e t text.length := by
  cases h with
  | @piece slot missing _ _ _ owed howed hunit =>
    rw [step, howed]
    exact Step.ofScan_of_done
      (scanPiece_eq_done_iff.2 ⟨text, rest, owed, hunit, rfl, rfl, rfl⟩)
  | routing howed hpart hm =>
    rw [step_of_nothing howed, readPart, hpart]
    exact Step.ofScan?_of_some
      (bind_of_done (scanRouting_eq_some_iff.2 ⟨_, text, rest, hm, rfl, rfl, rfl⟩))
  | content howed hpart hfull hunit =>
    rw [step_of_nothing howed, readPart, hpart]
    show readContent s (text ++ rest) = _
    rw [readContent, if_neg (by simp [hfull])]
    rw [Step.ofScan?_of_some
      (record_of_some (scanContent_eq_some_iff.2 ⟨text, rest, hunit, rfl, rfl⟩)), ← hpart]
    rfl
  | @body method data _ _ owed howed hpart hkey hunit =>
    rw [step_of_nothing howed, readPart, hpart]
    exact Step.ofScan?_of_some
      (record_of_some (scanBody_eq_some_iff.2 ⟨method, data, rest, hkey, hunit, rfl, rfl⟩))
  | data howed hpart hunit =>
    rw [step_of_nothing howed, readPart, hpart]
    exact Step.ofScan?_of_some
      (record_of_some (scanData_eq_some_iff.2 ⟨text, rest, hunit, rfl, rfl⟩))
  | closing howed hpart hexact =>
    rw [step_of_nothing howed, readPart, hpart]
    exact Step.ofScan_of_done (scanClosing_eq_done_iff.2 ⟨hexact, rfl, rfl, rfl, rest, rfl⟩)

end PacketWire.Packet
