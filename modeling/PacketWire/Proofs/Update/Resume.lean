import PacketWire.Proofs.Update.Whole

namespace PacketWire.Update

open Scan PacketWire.Path PacketWire.Parser

/-!
# Updates that are read on

An update whose bytes come in two parts is read as it is where they come in one, if the first part
does not end behind a path that the second goes on with (`CutsPath`). There the end of the bytes has
been taken as the end of the path, and an operator is looked for in the middle of it.
-/

variable {input back front text rest value digits : Bytes} {u : Update} {t : State}
  {es ws : List Event} {n length missing : Nat} {seg : Segment} {segments : List Segment}
  {r : Step State Event Cause}

/-! ### Parts of keys and values -/

/-- A unit in front of others, where the parts of a key or of a value make one. -/
def Event.prepend : Event → List Event → List Event
  | path (.keyOpening front length), path (.keyPiece value isLast) :: es =>
    if isLast then path (.segment (.key ⟨front ++ value, true⟩)) :: es
    else path (.keyOpening (front ++ value) length) :: es
  | path (.keyPiece front false), path (.keyPiece value isLast) :: es =>
    path (.keyPiece (front ++ value) isLast) :: es
  | opening type front length, piece value isLast :: es =>
    if isLast then operand ⟨type, front ++ value, true⟩ :: es
    else opening type (front ++ value) length :: es
  | piece front false, piece value isLast :: es => piece (front ++ value) isLast :: es
  | e, es => e :: es

/-- Units with the parts of each key and of each value joined. -/
def joined (es : List Event) : List Event := es.foldr Event.prepend []

/-- A unit that is whole is joined with nothing. -/
theorem prepend_of_isWhole {e : Event} (h : e.IsWhole) : e.prepend es = e :: es := by
  cases e with
  | path piece =>
    cases piece with
    | segment seg => rfl
    | keyOpening value length => exact absurd h id
    | keyPiece value isLast => exact absurd h id
  | operator oper => rfl
  | operand operand => rfl
  | opening type value length => exact absurd h id
  | piece value isLast => exact absurd h id
  | finish => exact absurd h id

/-- Units are joined from the last one on. -/
theorem joined_cons {e : Event} : joined (e :: es) = e.prepend (joined es) := rfl

/-- The last part of a key is joined with nothing behind it. -/
theorem prepend_lastKeyPiece :
    Event.prepend (.path (.keyPiece value true)) es = .path (.keyPiece value true) :: es := by
  unfold Event.prepend
  split <;> simp_all

/-- Units that are whole are not changed by joining. -/
theorem joined_of_isWhole (h : ∀ e ∈ es, e.IsWhole) : joined es = es := by
  induction es with
  | nil => rfl
  | cons e es ih =>
    obtain ⟨he, hes⟩ := List.forall_mem_cons.1 h
    rw [joined_cons, ih hes, prepend_of_isWhole he]

/-! ### Where a path goes on -/

/-- These bytes go on with a path, if it is in front of them in an update: they start with no space
    and no operator. -/
def GoesOn (back : Bytes) : Prop :=
  ∃ b rest, back = b :: rest ∧ b ≠ Byte.space ∧ Operator.ofGlyph? b = none

/-- The first bytes of an update are a path, and the others go on with it. -/
def CutsPath (front back : Bytes) : Prop := (∃ p : Path, p.Spelled front) ∧ GoesOn back

/-- What cannot go on with a path starts with a space or an operator, or is nothing. -/
theorem stops_of_not_goesOn {class? : UInt8 → Bool} (hspace : class? Byte.space = false)
    (hoper : ∀ oper : Operator, class? oper.glyph = false) (h : ¬ GoesOn back) :
    Stops class? back := by
  cases back with
  | nil => exact stops_nil
  | cons b rest =>
    refine stops_cons_iff.2 ?_
    by_cases hb : b = Byte.space
    · rw [hb, hspace]
    · cases hglyph : Operator.ofGlyph? b with
      | none => exact absurd ⟨b, rest, rfl, hb, hglyph⟩ h
      | some oper => rw [Operator.ofGlyph?_eq_some_iff.1 hglyph, hoper]

/-- So it ends every step of a path. -/
theorem segmentStops_of_not_goesOn (h : ¬ GoesOn back) : seg.Stops back :=
  Segment.stops_of_keyword
    (stops_of_not_goesOn (by decide) (fun oper => by cases oper <;> decide) h)

/-- A path by itself is read up to its end, and then an operator is looked for. -/
theorem exists_runs_of_series (h : Series SegmentSpelled segments text) :
    ∃ es, machine.Runs (.path .segment) text es (.wait .operator text.length) := by
  induction h with
  | nil => exact ⟨[], .last rfl trivial⟩
  | @cons seg segments text rest hspelled hrest ih =>
    obtain ⟨es, hruns⟩ := ih
    have hstops : seg.Stops rest := Segment.stops_of_keyword (stops_of_series hrest)
    have hstep := step_of_startUnit (.segment hspelled hstops)
    rw [List.length_append]
    exact ⟨_ :: es, .unit hstep rfl (by rwa [List.drop_left])⟩

/-! ### Runs that are taken up again -/

/-- From where a machine waits, a run with more bytes behind it comes to the end, and gives these
    units with those before the wait. -/
def EndsAfter (t : State) (input : Bytes) (es ws : List Event) : Prop :=
  ∃ fs u n, machine.Runs t input fs (.emit .finish u n) ∧ joined (es ++ fs) = ws

/-- A run that comes to the end ends after no units before. -/
theorem EndsAfter.of_runs {u : State} (h : machine.Runs t input ws (.emit .finish u n))
    (hws : ∀ e ∈ ws, e.IsWhole) : EndsAfter t input [] ws :=
  ⟨ws, u, n, h, joined_of_isWhole hws⟩

/-- A whole unit may stand in front. -/
theorem EndsAfter.cons {e : Event} (he : e.IsWhole) (h : EndsAfter t input es ws) :
    EndsAfter t input (e :: es) (e :: ws) := by
  obtain ⟨fs, u, n, hruns, rfl⟩ := h
  exact ⟨fs, u, n, hruns, prepend_of_isWhole he⟩

/-- No run that starts behind the operand waits. -/
theorem not_runs_done_wait : ¬ machine.Runs .done input es (.wait t n) := by
  intro h
  generalize hr : Step.wait t n = r at h
  cases h with
  | last hstep =>
    subst hr
    exact step_done_ne_wait hstep
  | unit hstep hne =>
    obtain rfl := eq_of_step_done_eq_emit hstep
    cases hne

/-- Where the step from a state waits and takes nothing, its run does. -/
theorem eq_of_runs_of_wait {s : State} (hstep : machine.step s input = .wait s 0)
    (h : machine.Runs s input es (.wait t n)) : es = [] ∧ t = s ∧ n = 0 := by
  obtain ⟨rfl, hwait⟩ := Machine.runs_unique (.last hstep trivial) h
  cases hwait
  exact ⟨rfl, rfl, rfl⟩

/-- The rest of a key is read, and what is behind its brace as at the start of an update. -/
theorem runs_keyWithin (hlength : value.length = missing) (hne : value ≠ [])
    (h : machine.Runs (.path .segment) rest es r) :
    machine.Runs (.path (.keyWithin missing)) (value ++ Byte.closeBrace :: rest)
      (.path (.keyPiece value true) :: es) ((r.shift 1).shift missing) := by
  refine .unit (step_keyWithin_of_length hlength hne) rfl ?_
  rw [List.drop_left' hlength]
  exact Machine.Runs.shift step_keyEnd h

/-- The rest of an operand is read, and nothing is behind it. -/
theorem runs_within (hlength : value.length = missing) (hne : value ≠ []) :
    machine.Runs (.within missing) value [.piece value true]
      ((Step.emit .finish .done 0).shift missing) := by
  have hstep : machine.step (.within missing) (value ++ []) =
      .emit (.piece value true) .done missing := step_within_of_length hlength hne
  rw [List.append_nil] at hstep
  refine .unit hstep rfl ?_
  rw [List.drop_of_length_le (Nat.le_of_eq hlength)]
  exact .last rfl rfl

/-- An operand that waits goes on to what it is when read at once. -/
theorem endsAfter_of_runs_operand {u : State} {k : Nat}
    (h : machine.Runs .operand input es (.wait t n))
    (hall : machine.Runs .operand (input ++ back) ws (.emit .finish u k))
    (hws : ∀ e ∈ ws, e.IsWhole) : EndsAfter t ((input ++ back).drop n) es ws := by
  generalize hr : Step.wait t n = r at h
  cases h with
  | last hstep =>
    subst hr
    obtain ⟨rfl, rfl⟩ := eq_of_step_operand_eq_wait hstep
    exact .of_runs hall hws
  | unit hstep _ hruns =>
    obtain ⟨j, rfl, rfl⟩ := Step.shift_eq_wait_iff.1 hr.symm
    obtain ⟨operand, rfl, rfl⟩ | ⟨type, value, length, rfl, rfl, hopens, rfl⟩ :=
      step_operand_eq_emit hstep
    · exact absurd hruns not_runs_done_wait
    · -- the operand is cut, and all of it is there in the end
      rw [List.drop_length] at hruns
      obtain ⟨rfl, rfl, rfl⟩ := eq_of_runs_of_wait step_within_nil hruns
      obtain ⟨operand, rfl⟩ := eq_of_runs_operand hall hws
      obtain ⟨t', k', r', hstep', -, hdone, hr'⟩ := Machine.runs_cons_iff.1 hall
      obtain ⟨j', rfl, -⟩ := Step.shift_eq_emit_iff.1 hr'.symm
      obtain ⟨rfl, rfl, hlength, rfl⟩ := eq_of_step_operand_eq_operand hopens hstep'
      have hlt := hopens.lt
      rw [Nat.add_zero, List.drop_left]
      have hrest : machine.Runs (.within (length - value.length)) back [.piece back true] _ :=
        runs_within hlength (List.ne_nil_of_length_pos (by omega))
      exact ⟨_, _, _, hrest, rfl⟩

/-- A key that is cut is read on, if all of it is there in the end. -/
theorem endsAfter_of_keyOpening {u : State} {k : Nat} (hnum : Numeral length digits)
    (hlt : value.length < length)
    (hall : machine.Runs (.path .segment)
      (Byte.openBrace :: digits ++ Byte.space :: value ++ back) ws (.emit .finish u k))
    (hws : ∀ e ∈ ws, e.IsWhole) :
    EndsAfter (.path (.keyWithin (length - value.length))) back
      [.path (.keyOpening value length)] ws := by
  -- The run over all bytes starts with the key: it is not the end there, nor an operator, and the
  -- missing bytes are there.
  cases ws with
  | nil =>
    cases hall with
    | last hstep =>
      obtain ⟨_, _, hunit, -⟩ := step_path_eq_emit_iff.1 hstep
      cases hunit
  | cons e ws =>
    obtain ⟨he, hwhole⟩ := List.forall_mem_cons.1 hws
    obtain ⟨t, n, r, hstep, -, hruns, hr⟩ := Machine.runs_cons_iff.1 hall
    obtain ⟨j, rfl, -⟩ := Step.shift_eq_emit_iff.1 hr.symm
    obtain ⟨text, rest, hunit, hi, rfl⟩ := step_path_eq_emit_iff.1 hstep
    rw [hi, List.drop_left] at hruns
    cases hunit with
    | keyOpening => exact absurd he id
    | @operator _ _ oper hgap =>
      obtain rfl | rfl := hgap
      · exact absurd (List.cons.inj hi).1 (by cases oper <;> decide)
      · exact absurd (List.cons.inj hi).1 (by decide)
    | segment hspelled =>
      obtain ⟨piece, rfl, rfl, hlength⟩ := hspelled.exists_piece hnum hlt hi.symm
      have hrest : machine.Runs (.path (.keyWithin (length - value.length)))
          (piece ++ Byte.closeBrace :: rest) (.path (.keyPiece piece true) :: ws) _ :=
        runs_keyWithin hlength (List.ne_nil_of_length_pos (by omega)) hruns
      refine ⟨_, _, _, hrest, ?_⟩
      rw [List.singleton_append, joined_cons, joined_cons, joined_of_isWhole hwhole,
        prepend_lastKeyPiece]
      rfl

/-- A path that waits goes on likewise, unless it was cut where it could have ended. -/
theorem endsAfter_of_runs_path {u : State} {k : Nat}
    (h : machine.Runs (.path .segment) input es (.wait t n))
    (hall : machine.Runs (.path .segment) (input ++ back) ws (.emit .finish u k))
    (hws : ∀ e ∈ ws, e.IsWhole) (hcut : GoesOn back → ¬ ∃ p : Path, p.Spelled input) :
    EndsAfter t ((input ++ back).drop n) es ws := by
  generalize hs : State.path .segment = s at h
  generalize hr : Step.wait t n = r at h
  induction h generalizing ws n k with
  | @last s input r hstep =>
    subst hs hr
    obtain ⟨rfl, rfl | ⟨rfl, hgap⟩⟩ := eq_of_step_path_eq_wait hstep
    · exact .of_runs hall hws
    · -- nothing of the update is there but what may stand in front of its operator
      have hstops : Stops startsSegment (input ++ back) := by
        obtain rfl | rfl := hgap
        · have hnot : ¬ GoesOn back := fun hgoes => hcut hgoes ⟨⟨[]⟩, .mk .nil⟩
          exact stops_of_not_goesOn (by decide) (fun oper => by cases oper <;> decide) hnot
        · exact stops_cons_iff.2 (by decide)
      exact .of_runs (hall.congr (step_path_eq_operator hstops).symm) hws
  | @unit s t' input e m es r hstep hne hruns ih =>
    subst hs
    obtain ⟨j, rfl, rfl⟩ := Step.shift_eq_wait_iff.1 hr.symm
    obtain ⟨text, rest, hunit, rfl, rfl⟩ := step_path_eq_emit_iff.1 hstep
    rw [← List.drop_drop, List.append_assoc, List.drop_left]
    rw [List.drop_left] at hruns ih
    cases hunit with
    | keyOpening hnum hlt =>
      obtain ⟨rfl, rfl, rfl⟩ := eq_of_runs_of_wait step_keyWithin_nil hruns
      rw [List.append_nil] at hall
      exact endsAfter_of_keyOpening hnum hlt hall hws
    | operator hgap =>
      rw [List.append_assoc] at hall
      obtain ⟨ws, r, rfl, hr', hall⟩ := hall.of_emit (step_of_startUnit (.operator hgap)) rfl
      obtain ⟨k, rfl, -⟩ := Step.shift_eq_emit_iff.1 hr'.symm
      rw [List.drop_left] at hall
      exact (endsAfter_of_runs_operand hruns hall (List.forall_mem_cons.1 hws).2).cons trivial
    | @segment seg _ _ hspelled hstops =>
      have hmore : seg.Stops (rest ++ back) := by
        refine Segment.stops_append hstops fun hnil => ?_
        by_cases hgoes : GoesOn back
        · subst hnil
          exact absurd ⟨⟨[seg]⟩, .mk (.cons hspelled .nil)⟩ (hcut hgoes)
        · exact segmentStops_of_not_goesOn hgoes
      rw [List.append_assoc] at hall
      obtain ⟨ws, r, rfl, hr', hall⟩ :=
        hall.of_emit (step_of_startUnit (.segment hspelled hmore)) rfl
      obtain ⟨k, rfl, -⟩ := Step.shift_eq_emit_iff.1 hr'.symm
      rw [List.drop_left] at hall
      refine (ih hall (List.forall_mem_cons.1 hws).2 ?_ rfl rfl).cons trivial
      rintro hgoes ⟨p, hp⟩
      cases hp with
      | mk hseries => exact hcut hgoes ⟨⟨seg :: _⟩, .mk (.cons hspelled hseries)⟩

/-- An update of which the first bytes have been read until more were needed is read to its end
    with the others, and its units are the same as if all bytes had come at once, except where a
    path is cut: there the byte behind it is taken for an operator, and is none. -/
theorem resumes_unless_cutsPath {q : Parser machine} (hu : parse (front ++ back) = .ok u)
    (hwait : WaitsAfter front parser es q) :
    (¬ CutsPath front back →
      ∃ fs r, Finishes (front ++ back) q fs .finish r ∧ joined (es ++ fs) = u.units) ∧
      (CutsPath front back → Fails (front ++ back) q [] ⟨.noOperator, front.length⟩) := by
  obtain ⟨t, n, hfront, hq⟩ := (waitsAfter_iff isBounded_machine (Nat.zero_le _)).1 hwait
  obtain rfl : q = ⟨t, n⟩ := by simpa [parser] using hq
  obtain ⟨t', k, hall⟩ := runs_of_parse hu
  have hle : n ≤ (front ++ back).length := by
    have hfrontLe := hfront.le_of_wait isBounded_machine
    rw [List.length_append]
    exact Nat.le_trans hfrontLe (Nat.le_add_right ..)
  constructor
  · intro hcut
    obtain ⟨fs, v, j, hruns, hjoined⟩ := endsAfter_of_runs_path hfront hall
      (fun e he => isWhole_of_mem_units he) fun hgoes hpath => hcut ⟨hpath, hgoes⟩
    exact ⟨fs, _, (finishes_iff isBounded_machine hle).2 ⟨rfl, v, j, hruns, rfl⟩, hjoined⟩
  -- The path ends with the front, so the parser is past it, and the next byte is no operator.
  · rintro ⟨⟨p, hpath⟩, b, rest, rfl, hb, hoper⟩
    cases hpath with
    | mk hseries =>
      obtain ⟨es', hruns⟩ := exists_runs_of_series hseries
      obtain ⟨-, hr⟩ := Machine.runs_unique hruns hfront
      cases hr
      refine (fails_iff isBounded_machine hle).2 ⟨⟨.noOperator, 0⟩, .last ?_ trivial, rfl⟩
      rw [List.drop_left]
      exact Step.ofScan_of_fault (scanOperator_of_none hb hoper)

/-- Behind a key an update is read on from its operator, and not from another step of its path. -/
theorem resumes_behind_key :
    (∃ fs r, Finishes (Bytes.ofText "\x7bk\x7d" ++ Bytes.ofText " = x")
      (⟨.operator, 3⟩ : Parser machine) fs .finish r ∧
        joined (.path (.segment (.key ⟨Bytes.ofText "k", false⟩)) :: fs) =
          units ⟨⟨[.key ⟨Bytes.ofText "k", false⟩]⟩, .assign, ⟨[], Bytes.ofText "x", false⟩⟩) ∧
      Fails (Bytes.ofText "\x7bk\x7d" ++ Bytes.ofText "#1= x") (⟨.operator, 3⟩ : Parser machine) []
        ⟨.noOperator, 3⟩ := by
  have hwait : WaitsAfter (Bytes.ofText "\x7bk\x7d") parser
      [.path (.segment (.key ⟨Bytes.ofText "k", false⟩))] ⟨.operator, 3⟩ :=
    ⟨by decide, ⟨.path .segment, 3⟩, .step rfl (.refl _), rfl⟩
  have hkey : SegmentSpelled (.key ⟨Bytes.ofText "k", false⟩) (Bytes.ofText "\x7bk\x7d") :=
    .key (.delimited (by decide) fun b hb => by cases hb; decide)
  have hpath : (⟨[.key ⟨Bytes.ofText "k", false⟩]⟩ : Path).Spelled
      (Bytes.ofText "\x7bk\x7d" ++ []) := .mk (.cons hkey .nil)
  have hspace : ¬ GoesOn (Bytes.ofText " = x") := by
    rintro ⟨b, rest, hi, hb, -⟩
    exact hb (List.cons.inj hi).1.symm
  have hgoes : GoesOn (Bytes.ofText "#1= x") := ⟨Byte.hash, _, rfl, by decide, rfl⟩
  have hshort : parse (Bytes.ofText "\x7bk\x7d" ++ Bytes.ofText " = x") =
      .ok ⟨⟨[.key ⟨Bytes.ofText "k", false⟩]⟩, .assign, ⟨[], Bytes.ofText "x", false⟩⟩ := rfl
  have hlong : parse (Bytes.ofText "\x7bk\x7d" ++ Bytes.ofText "#1= x") =
      .ok ⟨⟨[.key ⟨Bytes.ofText "k", false⟩, .index 1]⟩, .assign,
        ⟨[], Bytes.ofText "x", false⟩⟩ := rfl
  exact ⟨(resumes_unless_cutsPath hshort hwait).1 fun hcut => hspace hcut.2,
    (resumes_unless_cutsPath hlong hwait).2 ⟨⟨_, hpath⟩, hgoes⟩⟩

end PacketWire.Update
