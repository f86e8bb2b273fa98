import PacketWire.Proofs.Scanner.Engine
import PacketWire.Scanner.Packet

namespace PacketWire.Packet

open Walk

/-!
# The engine of packets simulates the machine

The walks over the lines and units of a packet follow the scans of these (`walkEntity_follows` and
others), and the parts, which go on to one another, report the steps that go on likewise
(`partOn_reports`).
-/

variable {σ : Type} {s : State}

/-! ### Lines -/

/-- Going past a byte and the word behind it: where nothing follows the byte, the word has no end
    either. -/
theorem follows_advance (class? : UInt8 → Bool) :
    Follows (do advance; word class? : Walk σ Cause Bytes) (do Scan.skip 1; Scan.word class?) := by
  intro w hw
  have hpos : w.pos ≤ w.buffer.length := hw
  show Tracks w (EStateM.bind advance _ w) _
  unfold EStateM.bind
  rw [advance_apply]
  -- The walk asks for a byte behind the next one at once, and the scan does so for the end of the
  -- word.
  by_cases h : w.buffer.length ≤ w.pos + 1
  · have hend : w.ahead.drop (min 1 w.ahead.length) = [] := by
      refine List.drop_of_length_le ?_
      rw [w.length_ahead]
      omega
    rw [if_pos h, Scan.bind_apply]
    dsimp only [Scan.skip]
    rw [hend]
    exact .more
  · have hplace : min (w.pos + 1) w.buffer.length = w.pos + 1 := by omega
    have htracks : Tracks w ((word class? : Walk σ Cause Bytes)
        { w with pos := min (w.pos + 1) w.buffer.length }) _ :=
      ((follows_skip 1).bind fun _ => follows_word class?) w hw
    rw [hplace] at htracks
    rw [if_neg h]
    exact htracks

/-- The name of a modifier; if there is none, the fault lies at the operator. -/
theorem walkName_follows : Follows (walkName : Walk σ Cause Bytes) scanName :=
  (follows_advance Byte.isKeyword).expect _ _

/-- The value on the rest of a line, and the line feed behind it. -/
theorem walkLineValue_follows : Follows (walkLineValue : Walk σ Cause Bytes) scanLineValue := by
  refine follows_byte.bind fun b => Follows.ite ?_ (Follows.ite ?_ (follows_fail _))
  · refine (follows_skip 1).bind fun _ => (follows_upTo _).bind fun value => ?_
    exact (follows_skip 1).bind_pure _
  · exact (follows_skip 1).bind_pure _

/-- The length of a value, with the space and the tab around it. -/
theorem walkValueLength_follows : Follows (walkValueLength : Walk σ Cause Nat) scanValueLength := by
  refine (follows_skip 1).bind fun _ => (follows_number.expect _ _).bind fun length => ?_
  exact (follows_expectByte _ _).bind_pure _

/-- The name of an entity modifier, and its length where a space comes behind it. -/
theorem walkEntityHead_follows : Follows (walkEntityHead : Walk σ Cause _) scanEntityHead := by
  refine walkName_follows.bind fun name => follows_byte.bind fun b => ?_
  exact (walkValueLength_follows.bind_pure _).ite (follows_pure _)

/-- The closing line is looked for in the bytes ahead. -/
theorem walkLines_eq (w : Walker σ) :
    (walkLines : Walk σ Cause Bytes) w =
      (if closingLine.isPrefixOf w.ahead then pure []
        else (Bytes.before (Byte.lineFeed :: closingLine) w.ahead).elim needMore fun front => do
          skip (front.length + 1)
          return w.ahead.take (front.length + 1) : Walk σ Cause Bytes) w := by
  show (if closingLine.isPrefixOf w.ahead then pure [] else _ : Walk σ Cause Bytes) w = _
  split
  · rfl
  · have hfind : (find? (Byte.lineFeed :: closingLine) : Walk σ Cause _) w =
        .ok ((Bytes.before (Byte.lineFeed :: closingLine) w.ahead).map List.length) w := rfl
    show EStateM.bind (find? (Byte.lineFeed :: closingLine)) _ w = _
    unfold EStateM.bind
    rw [hfind]
    cases Bytes.before (Byte.lineFeed :: closingLine) w.ahead <;> rfl

/-- The lines up to the closing one; what is looked for starts with the line feed of the last. -/
theorem walkLines_follows : Follows (walkLines : Walk σ Cause Bytes) scanLines := by
  intro w hw
  rw [walkLines_eq]
  unfold scanLines
  split
  · exact .done (Nat.zero_le _)
  · cases hfront : Bytes.before (Byte.lineFeed :: closingLine) w.ahead with
    | none => exact .more
    | some front =>
      -- What is looked for starts with the line feed that the last line ends with.
      obtain ⟨behind, hbefore⟩ := Bytes.eq_append_of_before hfront
      have hahead : w.ahead = (front ++ [Byte.lineFeed]) ++ (closingLine ++ behind) := by
        simp [hbefore]
      have hlines : w.ahead.take (front.length + 1) = front ++ [Byte.lineFeed] := by
        rw [hahead]
        exact List.take_left' (by simp)
      have hlength : front.length + 1 ≤ w.ahead.length := by
        simp [hahead]
      have hskip := follows_skip (κ := Cause) (front.length + 1) w hw
      unfold Scan.skip at hskip
      rw [Nat.min_eq_left hlength] at hskip
      dsimp only
      rw [← hlines]
      exact hskip.bind_pure fun _ => w.ahead.take (front.length + 1)

/-- The length line, or the `|` in its place, which stays. -/
theorem walkLengthLine_follows :
    Follows (walkLengthLine : Walk σ Cause LengthLine) scanLengthLine := by
  refine (follows_number.expect _ _).bind fun length => ?_
  cases length with
  | some length => exact (follows_expectByte _ _).bind_pure _
  | none =>
    refine follows_byte.bind fun b => (follows_pure _).ite ?_
    exact (follows_expectByte _ _).bind_pure _

/-! ### Units -/

/-- A routing modifier, if the next byte is an operator. -/
theorem walkRouting_follows : Follows (walkRouting : Walk σ Cause (Option Event)) scanRouting := by
  refine follows_byte.bind fun b => ?_
  cases Operator.ofGlyph? b with
  | none => exact follows_pure _
  | some oper => exact walkName_follows.bind fun name => walkLineValue_follows.bind_pure _

/-- The byte behind the first one is looked at only where the content starts. -/
theorem walkIsAlone_follows : Follows (walkIsAlone s : Walk σ Cause Bool) (scanIsAlone s) :=
  (follows_byteAt_one.bind_pure _).ite (follows_pure false)

/-- The glyph tells which state action it is. -/
theorem walkStateAction_follows (glyph : UInt8) :
    Follows (walkStateAction glyph : Walk σ Cause Event) (scanStateAction glyph) := by
  unfold walkStateAction scanStateAction
  cases StateAction.ofGlyph? glyph with
  | none => exact follows_fail _
  | some action =>
    cases action with
    | none => exact follows_fail _
    | reset => exact (follows_skip 2).bind_pure _
    | resync => exact (follows_skip 2).bind_pure _

/-- Whether a value fits is told by numbers, not by the buffer. -/
theorem walkRoom_follows (head length : Nat) :
    Follows (walkRoom s head length : Walk σ Cause _) (scanRoom s head length) := by
  unfold walkRoom scanRoom
  cases s.announced with
  | none => exact follows_pure ()
  | some announced => exact (follows_fail _).ite (follows_pure ())

/-- An entity modifier; how many bytes its head takes is told by the places around it. -/
theorem walkEntity_follows (oper : Operator) :
    Follows (walkEntity s oper : Walk σ Cause _) (scanEntity s oper) := by
  refine walkEntityHead_follows.measured.bind fun ((name, length), used) => ?_
  cases length with
  | none => exact walkLineValue_follows.bind_pure _
  | some length =>
    refine (walkRoom_follows used length).bind fun _ => (follows_take length).bind fun p => ?_
    cases p with
    | whole value => exact follows_pure _
    | part value => exact follows_pure _

/-- A state action or an entity modifier, if the next byte is an operator. -/
theorem walkContent_follows : Follows (walkContent s : Walk σ Cause _) (scanContent s) := by
  refine follows_byte.bind fun glyph => ?_
  cases Operator.ofGlyph? glyph with
  | none => exact follows_pure _
  | some oper =>
    refine walkIsAlone_follows.bind fun alone => Follows.ite ?_ ?_
    · exact (walkStateAction_follows glyph).bind_pure _
    · exact (walkEntity_follows oper).bind_pure _

/-- The data behind a method, up to its length or to the closing line. -/
theorem walkBodyData_follows (method : Bytes) (consumed : Nat) :
    Follows (walkBodyData s method consumed : Walk σ Cause _) (scanBodyData s method consumed) := by
  unfold walkBodyData scanBodyData
  cases s.announced with
  | none => exact walkLines_follows.bind_pure _
  | some announced =>
    refine (follows_fail _).ite ((follows_pure _).ite ((follows_take _).bind fun p => ?_))
    cases p with
    | whole data => exact follows_pure _
    | part data => exact follows_pure _

/-- A method and the data behind it, if the next byte starts a keyword. -/
theorem walkBody_follows : Follows (walkBody s : Walk σ Cause _) (scanBody s) := by
  refine follows_keyword.measured.bind fun (method, used) => (follows_pure _).ite ?_
  refine (follows_expectByte _ _).bind fun _ => ?_
  exact (walkBodyData_follows method _).bind_pure _

/-- Raw content, up to its length or to the closing line. -/
theorem walkData_follows : Follows (walkData s : Walk σ Cause _) (scanData s) := by
  unfold walkData scanData
  cases s.announced with
  | none => exact walkLines_follows.bind fun lines => (follows_pure _).ite (follows_pure _)
  | some announced =>
    refine (follows_pure _).ite ((follows_takeOn _).bind fun p => ?_)
    cases p with
    | whole bytes => exact follows_pure _
    | part bytes => exact follows_pure _

/-- A further part of a value. -/
theorem walkPiece_follows (slot : Slot) (missing : Nat) :
    Follows (walkPiece s slot missing : Walk σ Cause _) (scanPiece s slot missing) := by
  refine (follows_takeOn missing).bind fun p => ?_
  cases p with
  | part bytes => exact follows_pure _
  | whole bytes => exact follows_pure _

/-- Whether the content has its length is told by numbers, not by the buffer. -/
theorem walkLengthCheck_follows :
    Follows (walkLengthCheck s : Walk σ Cause _) (scanLengthCheck s) := by
  unfold walkLengthCheck scanLengthCheck
  cases s.announced with
  | none => exact follows_pure ()
  | some announced => exact (follows_pure ()).ite (follows_fail _)

/-- Both bytes of the line are looked at before either is taken, and so the place of the second one
    is told from the first. -/
theorem walkClosingLine_follows : Follows (walkClosingLine : Walk σ Cause _) scanClosingLine := by
  intro w hw
  show Tracks w (EStateM.bind (byteAt 0) _ w) _
  unfold EStateM.bind
  rw [byteAt_apply]
  cases hinput : w.ahead with
  | nil => exact .more
  | cons b rest =>
    by_cases hb : b = Byte.pipe
    · subst hb
      -- The walk has not moved when it looks at the second byte; the scan has taken the first one.
      have hscan : scanClosingLine (Byte.pipe :: rest) =
          (Scan.byte Byte.lineFeed .badClosingLine rest).shift 1 := Scan.byte_bind_cons
      show Tracks w (EStateM.bind (byteAt 1) _ w) _
      unfold EStateM.bind
      rw [byteAt_apply, hinput, hscan]
      cases rest with
      | nil => exact .more
      | cons c rest =>
        show Tracks w ((if c = Byte.lineFeed then skip 2 else failAt .badClosingLine (w.pos + 1) :
          Walk σ Cause _) w) _
        rw [Scan.byte_cons]
        split
        · have hskip := follows_skip (κ := Cause) 2 w hw
          rw [Scan.skip_of_le (by simp [hinput])] at hskip
          exact hskip
        · exact failAt_tracks w _ 1
    · have hscan : scanClosingLine (b :: rest) = .fault ⟨.badClosingLine, 0⟩ :=
        Scan.bind_of_fault (Scan.byte_cons.trans (if_neg hb))
      show Tracks w ((if b = Byte.pipe then _ else failAt .badClosingLine w.pos :
        Walk σ Cause _) w) _
      rw [if_neg hb, hscan]
      exact failAt_tracks w _ 0

/-- The end of a packet, with its closing line unless only content is parsed. -/
theorem walkClosing_follows : Follows (walkClosing s : Walk σ Cause _) (scanClosing s) := by
  refine walkLengthCheck_follows.bind fun _ => ?_
  cases s.mode with
  | contentOnly length => exact follows_pure _
  | whole => exact walkClosingLine_follows.bind_pure _
  | routingOnly => exact walkClosingLine_follows.bind_pure _

/-- The bytes of a unit are counted by the places around it. -/
theorem recorded_follows {unit : Walk σ Cause (Option (Event × Owed))}
    {scan : Scan Cause (Option (Event × Owed))} (h : Follows unit scan) (part : Part) :
    Follows (recorded s part unit) (record s part scan) :=
  h.measured.bind_pure _

/-! ### Parts -/

/-- Wherever a parser of the same packet is, a walk reports what a step from there tells. -/
def ReportsOn (s : State) (walk : Walk State Cause Event)
    (step : Bytes → Step State Event Cause) : Prop :=
  ∀ w : Walker State, w.IsWithin → w.state.mode = s.mode →
    Reports engine.restart id w (walk w) (step w.ahead)

/-- The end of the packet. -/
theorem closingOn_reports : ReportsOn s (closingOn s) (readClosing s) := fun _ hw hmode =>
  walkClosing_follows.report hw (congrArg State.initial hmode.symm)

/-- The method, or the end in its place. -/
theorem methodOn_reports : ReportsOn s (methodOn s) (readMethod s) := fun _ hw hmode =>
  (recorded_follows walkBody_follows .closing).reportOr hw (congrArg State.initial hmode.symm)
    fun v hv hstate => closingOn_reports v hv (by rw [hstate])

/-- The end where the content is full, and otherwise its next unit or the method in its place. -/
theorem contentOn_reports : ReportsOn s (contentOn s) (readContent s) := by
  intro w hw hmode
  have hrestart : engine.restart { s with part := .content } = engine.restart w.state :=
    congrArg State.initial hmode.symm
  unfold readContent
  show Reports _ _ w ((if s.isFull then closingOn s else
    reportOr (recorded s .content (walkContent s)) (methodOn s) : Walk State Cause Event)
      (w.begun { s with part := .content })) _
  by_cases hfull : s.isFull
  · rw [if_pos hfull, if_pos hfull]
    exact (closingOn_reports (w.begun _) hw rfl).here ⟨rfl, rfl, Nat.zero_le _⟩ hrestart
  · rw [if_neg hfull, if_neg hfull]
    exact (recorded_follows walkContent_follows .content).reportOr hw hrestart
      fun v hv hstate => methodOn_reports v hv (by rw [hstate])

/-- Raw content, or the end in its place. -/
theorem dataOn_reports : ReportsOn s (dataOn s) (readData s) := fun _ hw hmode =>
  (recorded_follows walkData_follows .closing).reportOr hw (congrArg State.initial hmode.symm)
    fun v hv hstate => closingOn_reports v hv (by rw [hstate])

/-- The mode tells which content it is. -/
theorem anyContentOn_reports : ReportsOn s (anyContentOn s) (readAnyContent s) := by
  unfold anyContentOn readAnyContent
  cases s.mode with
  | routingOnly => exact dataOn_reports
  | whole => exact contentOn_reports
  | contentOnly length => exact contentOn_reports

/-- The length line, and then the content or the end. -/
theorem lengthOn_reports : ReportsOn s (lengthOn s) (readLength s) := fun _ hw hmode =>
  walkLengthLine_follows.andThen hw rfl (congrArg State.initial hmode.symm)
    fun line v hv hstate =>
      match line with
      | .absent => closingOn_reports v hv (by rw [hstate])
      | .untold => anyContentOn_reports v hv (by rw [hstate])
      | .told _ => anyContentOn_reports v hv (by rw [hstate])

/-- A routing modifier, or the length line in its place. -/
theorem routingOn_reports : ReportsOn s (routingOn s) (readRouting s) := fun _ hw hmode =>
  (walkRouting_follows.bind_pure _).reportOr hw (congrArg State.initial hmode.symm)
    fun v hv hstate => lengthOn_reports v hv (by rw [hstate])

/-- Whichever part comes next. -/
theorem partOn_reports : ReportsOn s (partOn s) (readPart s) := by
  unfold partOn readPart
  cases s.part with
  | routing => exact routingOn_reports
  | length => exact lengthOn_reports
  | content => exact contentOn_reports
  | method => exact methodOn_reports
  | data => exact dataOn_reports
  | closing => exact closingOn_reports

/-- What is owed comes first, and then the part. -/
theorem walk_reports (w : Walker State) (hw : w.IsWithin) :
    Reports engine.restart id w (walk w) (step w.state w.ahead) := by
  obtain ⟨⟨buffer, pos, mark⟩, mode, part, announced, consumed, owed⟩ := w
  cases owed with
  | nothing =>
    exact (partOn_reports ⟨⟨buffer, pos, pos⟩, _⟩ hw rfl).here ⟨rfl, rfl, Nat.zero_le _⟩ rfl
  | value slot missing => exact (walkPiece_follows slot missing).report hw rfl
  | lineFeed line =>
    exact (follows_expectByte _ _).andThen hw rfl rfl fun _ v hv hstate =>
      partOn_reports v hv (by rw [hstate]; rfl)

/-- The engine of packets does what the machine of packets tells. -/
theorem engine_simulates : engine.Simulates machine id fun _ => id where
  walk := walk_reports
  view_keep _ _ := rfl
  view_restart _ := rfl
  isFinal := rfl

end PacketWire.Packet
