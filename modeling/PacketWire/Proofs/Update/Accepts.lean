import PacketWire.Proofs.Series
import PacketWire.Proofs.Update.Whole
import PacketWire.Spelling.Values

namespace PacketWire.Update

open Scan Machine PacketWire.Path

/-!
# The updates that are accepted

A byte string is read as an update where it is a way to write this update, and nowhere else
(`parse_eq_ok_iff`). It is read by a run that gives the units of the update, and such runs are there
for the ways to write it (`runs_units_iff`).
-/

variable {input buffer text : Bytes} {operand : Element} {oper : Operator} {segments : List Segment}
  {u : Update} {t : State} {n : Nat}

/-! ### Runs -/

theorem separates_form : form.Separates := nofun

/-- An operand is all that is left of an update. -/
theorem step_operand_eq_operand_iff :
    machine.step .operand input = .emit (.operand operand) t n ↔
      operand.OperandSpelled input ∧ t = .done ∧ n = input.length := by
  have hspelled (text : Bytes) : form.Spells operand text ↔ operand.OperandSpelled text :=
    Element.spells_iff_operandSpelled rfl rfl
  -- No byte ends an operand, so a whole one is all that there is.
  have hwhole {isLast : Bool} : Element.scan form input = .done (.whole operand isLast) n ↔
      operand.OperandSpelled input ∧ isLast = true ∧ n = input.length := by
    rw [Element.scan_eq_whole_iff separates_form]
    constructor
    · rintro ⟨text, rest, htext, hends, rfl, rfl, rfl⟩
      obtain rfl := Element.endsBefore_none_iff.1 hends
      rw [List.append_nil]
      exact ⟨(hspelled text).1 htext, rfl, rfl⟩
    · rintro ⟨htext, rfl, rfl⟩
      exact ⟨input, [], (hspelled input).2 htext, Element.endsBefore_nil, rfl,
        (List.append_nil input).symm, rfl⟩
  constructor
  · intro h
    obtain ⟨_, isLast, hscan, hoperand, rfl⟩ | ⟨_, _, _, -, hopening, -⟩ :=
      scanOperand_eq_done (Step.ofScan_eq_emit_iff.1 h)
    · cases hoperand
      obtain ⟨htext, -, rfl⟩ := hwhole.1 hscan
      exact ⟨htext, rfl, rfl⟩
    · cases hopening
  · rintro ⟨htext, rfl, rfl⟩
    refine Step.ofScan_of_done (bind_eq_done_iff.2
      ⟨.whole operand true, input.length, 0, ?_, rfl, rfl⟩)
    exact hwhole.2 ⟨htext, rfl, rfl⟩

/-- From the operand on there is one run, if it ends. -/
theorem runs_operand_iff :
    (∃ t n, machine.Runs .operand input [.operand operand] (.emit .finish t n)) ↔
      operand.OperandSpelled input := by
  constructor
  · rintro ⟨t, n, hruns⟩
    obtain ⟨t', n', r, hstep, -, -, -⟩ := runs_cons_iff.1 hruns
    exact (step_operand_eq_operand_iff.1 hstep).1
  · intro htext
    have hend : machine.Runs .done (input.drop input.length) [] (.emit .finish .done 0) := by
      rw [List.drop_length]
      exact .last rfl rfl
    exact ⟨_, _, .unit (step_operand_eq_operand_iff.2 ⟨htext, rfl, rfl⟩) rfl hend⟩

/-- An operator and an operand are read behind a gap. -/
theorem runs_operator_iff :
    (∃ t n, machine.Runs (.path .segment) input [.operator oper, .operand operand]
        (.emit .finish t n)) ↔
      ∃ gap text, IsGap gap ∧ operand.OperandSpelled text ∧ input = gap ++ oper.glyph :: text := by
  constructor
  · rintro ⟨t, n, hruns⟩
    obtain ⟨t', n', r, hstep, -, hruns, hr⟩ := runs_cons_iff.1 hruns
    obtain ⟨k, rfl, -⟩ := Step.shift_eq_emit_iff.1 hr.symm
    obtain ⟨text, rest, hunit, rfl, rfl⟩ := step_path_eq_emit_iff.1 hstep
    cases hunit with
    | @operator gap _ _ hgap =>
      rw [List.drop_left] at hruns
      exact ⟨gap, rest, hgap, runs_operand_iff.1 ⟨_, _, hruns⟩, by simp⟩
  · rintro ⟨gap, text, hgap, htext, rfl⟩
    obtain ⟨t, n, hruns⟩ := runs_operand_iff.2 htext
    have hunit : StartUnit (gap ++ [oper.glyph]) text (.operator oper) .operand := .operator hgap
    rw [← @List.drop_left _ (gap ++ [oper.glyph]) text] at hruns
    have hall := Runs.unit (step_of_startUnit hunit) rfl hruns
    rw [List.append_assoc] at hall
    exact ⟨_, _, hall⟩

/-- No name or number goes on where an operator is. -/
theorem keywordStops_of_isGap {gap : Bytes} (h : IsGap gap) :
    Stops Byte.isKeyword (gap ++ oper.glyph :: text) := by
  obtain rfl | rfl := h
  · exact stops_cons_iff.2 (by cases oper <;> decide)
  · exact stops_cons_iff.2 (by decide)

theorem spelled_iff :
    Spelled u buffer ↔ ∃ pathText gap text, Series SegmentSpelled u.path.segments pathText ∧
      IsGap gap ∧ u.operand.OperandSpelled text ∧
      buffer = pathText ++ gap ++ u.oper.glyph :: text := by
  constructor
  · intro h
    cases h with
    | mk hpath hgap htext =>
      cases hpath with
      | mk hsegments => exact ⟨_, _, _, hsegments, hgap, htext, rfl⟩
  · rintro ⟨pathText, gap, text, hsegments, hgap, htext, rfl⟩
    exact .mk (.mk hsegments) hgap htext

/-- An update is read by a run that gives its units where it is a way to write it. -/
theorem runs_units_iff :
    (∃ t n, machine.Runs (.path .segment) buffer u.units (.emit .finish t n)) ↔
      Spelled u buffer := by
  obtain ⟨⟨segments⟩, oper, operand⟩ := u
  rw [spelled_iff]
  dsimp only
  -- On the steps of the path, each of which is one unit and one piece of the text.
  induction segments generalizing buffer with
  | nil =>
    have hunits : units ⟨⟨[]⟩, oper, operand⟩ = [.operator oper, .operand operand] := rfl
    rw [hunits, runs_operator_iff]
    constructor
    · rintro ⟨gap, text, hgap, htext, rfl⟩
      exact ⟨[], gap, text, .nil, hgap, htext, rfl⟩
    · rintro ⟨pathText, gap, text, hsegments, hgap, htext, rfl⟩
      cases hsegments
      exact ⟨gap, text, hgap, htext, rfl⟩
  | cons seg segments ih =>
    have hunits : units ⟨⟨seg :: segments⟩, oper, operand⟩ =
        .path (.segment seg) :: units ⟨⟨segments⟩, oper, operand⟩ := rfl
    rw [hunits]
    constructor
    · rintro ⟨t, n, hruns⟩
      obtain ⟨t', n', r, hstep, -, hruns, hr⟩ := runs_cons_iff.1 hruns
      obtain ⟨k, rfl, -⟩ := Step.shift_eq_emit_iff.1 hr.symm
      obtain ⟨line, rest, hunit, rfl, rfl⟩ := step_path_eq_emit_iff.1 hstep
      cases hunit with
      | segment hspelled hstops =>
        rw [List.drop_left] at hruns
        obtain ⟨pathText, gap, text, hsegments, hgap, htext, rfl⟩ := ih.1 ⟨_, _, hruns⟩
        exact ⟨line ++ pathText, gap, text, .cons hspelled hsegments, hgap, htext, by simp⟩
    · rintro ⟨pathText, gap, text, hsegments, hgap, htext, rfl⟩
      cases hsegments with
      | @cons _ _ line rest hspelled hsegments =>
        obtain ⟨t, n, hruns⟩ := ih.2 ⟨rest, gap, text, hsegments, hgap, htext, rfl⟩
        have hstops : seg.Stops (rest ++ gap ++ oper.glyph :: text) := by
          rw [List.append_assoc]
          exact Segment.stops_of_keyword ((stops_of_series hsegments).append
            (keywordStops_of_isGap hgap))
        have hstep := step_of_startUnit (.segment hspelled hstops)
        rw [← @List.drop_left _ line (rest ++ gap ++ oper.glyph :: text)] at hruns
        have hall := Runs.unit hstep rfl hruns
        rw [← List.append_assoc, ← List.append_assoc] at hall
        exact ⟨_, _, hall⟩

/-! ### Updates -/

/-- An update has no more units than bytes, but for an operand that is not written. -/
theorem length_units_le (h : Spelled u buffer) : u.units.length ≤ buffer.length + 1 := by
  obtain ⟨pathText, gap, text, hsegments, -, -, rfl⟩ := spelled_iff.1 h
  have hle : u.path.segments.length ≤ pathText.length :=
    Series.length_le (fun hspelled => by
      obtain ⟨b, tail, rfl, -⟩ := hspelled.starts
      exact List.cons_ne_nil b tail) hsegments
  simp only [units, List.length_append, List.length_map, List.length_cons, List.length_nil]
  omega

theorem parse_of_spelled (h : Spelled u buffer) : parse buffer = .ok u := by
  obtain ⟨t, n, hruns⟩ := runs_units_iff.2 h
  have hdrain : parser.drain buffer = u.units.map .event ++ [.event .finish] :=
    Parser.drain_of_runs isBounded_machine hruns (length_units_le h)
  rw [parse, hdrain]
  exact ofAnswers_units

/-- A buffer is read as an update exactly where it is a way to write this update. -/
theorem parse_eq_ok_iff : parse buffer = .ok u ↔ Spelled u buffer :=
  ⟨fun h => runs_units_iff.1 (runs_of_parse h), parse_of_spelled⟩

end PacketWire.Update
