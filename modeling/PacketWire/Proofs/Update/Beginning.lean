import PacketWire.Proofs.Element.Beginning
import PacketWire.Proofs.Path.Beginning
import PacketWire.Proofs.Update.Accepts

namespace PacketWire.Update

open Scan Machine PacketWire.Path

/-!
# Beginnings of updates

What is in front of a cut through an update is a path, and behind it the beginning of one more step
or of the operator and the operand (`Spelled.of_append`). The parser fails there just if the step or
the operand ends at a bare mark (`failsJustAt`).
-/

variable {front back text head : Bytes} {segments : List Segment} {oper : Operator} {u : Update}
  {f : Fault Cause} {f? : Option (Fault Cause)}

/-- The beginning of what may stand behind the steps of a path, with the fault that it makes, if
    there is one. -/
inductive Begins : Option (Fault Cause) → Bytes → Prop where
  /-- A step, or the beginning of one. -/
  | step {text : Bytes} : SegmentBegins none text → Begins none text
  /-- A bare mark of a step. -/
  | bareStep {f : Fault Path.Cause} {text : Bytes} :
      Path.Bare f text → Begins (some (f.map .path)) text
  /-- What stands in front of an operator. -/
  | gap {gap : Bytes} : IsGap gap → Begins none gap
  /-- An operator and an operand, or more of it than a bare mark. -/
  | operand {gap text : Bytes} {oper : Operator} :
      IsGap gap → form.Begins text → Begins none (gap ++ oper.glyph :: text)
  /-- An operator and a bare mark of an operand. -/
  | bareOperand {gap text : Bytes} {oper : Operator} {f : Fault Cause} :
      IsGap gap → form.Bare f text →
        Begins (some (f.shift (gap.length + 1))) (gap ++ oper.glyph :: text)

/-- An update is cut behind a bare mark: behind a path there is the beginning of a step, or of an
    operator and an operand, that makes this fault. -/
def CutsMark : Bytes → Fault Cause → Prop :=
  Parser.CutBehind (fun text => ∃ p, Path.Spelled p text) Begins

/-! ### Cuts -/

/-- The beginning of a step is one of an update. -/
theorem begins_of_segmentBegins {f? : Option (Fault Path.Cause)} (h : SegmentBegins f? head) :
    ∃ f?, Begins f? head := by
  cases f? with
  | none => exact ⟨none, .step h⟩
  | some f =>
    cases h with
    | bare hbare => exact ⟨_, .bareStep hbare⟩

/-- The first bytes of what may stand in front of an operator may stand there, too. -/
theorem isGap_of_append (h : IsGap (front ++ back)) : IsGap front := by
  cases front with
  | nil => exact .inl rfl
  | cons b front =>
    obtain hnil | hspace := h
    · cases hnil
    · obtain ⟨rfl, hnil⟩ := List.cons.inj hspace
      obtain rfl := (List.append_eq_nil_iff.1 hnil).1
      exact .inr rfl

/-- Behind the path, the operator and the operand may be cut. -/
theorem begins_of_append {gap operandText : Bytes} {operand : Element} (hgap : IsGap gap)
    (htext : operand.OperandSpelled operandText)
    (hi : front ++ back = gap ++ oper.glyph :: operandText) : ∃ f?, Begins f? front := by
  have hspells : form.Spells operand operandText :=
    (Element.spells_iff_operandSpelled rfl rfl).2 htext
  obtain ⟨rest, rfl, -⟩ | ⟨behind, rfl, hbehind⟩ := List.append_eq_append_iff.1 hi
  · exact ⟨none, .gap (isGap_of_append hgap)⟩
  · cases behind with
    | nil =>
      rw [List.append_nil]
      exact ⟨none, .gap hgap⟩
    | cons b behind =>
      obtain ⟨rfl, rfl⟩ := List.cons.inj hbehind
      obtain hbegins | ⟨f, hbare⟩ := hspells.of_append
      · exact ⟨none, .operand hgap hbegins⟩
      · exact ⟨_, .bareOperand hgap hbare⟩

/-- The first bytes of an update are a path and the beginning of what stands behind. -/
theorem Spelled.of_append (h : Spelled u (front ++ back)) :
    ∃ (p : Path) (text head : Bytes) (f? : Option (Fault Cause)), p.Spelled text ∧
      front = text ++ head ∧ Begins f? head := by
  obtain ⟨pathText, gap, operandText, hsegments, hgap, hoperand, hi⟩ := spelled_iff.1 h
  rw [List.append_assoc] at hi
  -- the cut is inside the path, or behind it
  obtain ⟨rest, rfl, -⟩ | ⟨front, rfl, hbehind⟩ := List.append_eq_append_iff.1 hi
  · obtain ⟨segments, text, head, hseries, rfl, f?, hhead⟩ :=
      hsegments.of_append ⟨none, .nothing⟩ SegmentSpelled.of_append
    obtain ⟨g?, hbegins⟩ := begins_of_segmentBegins hhead
    exact ⟨_, text, head, g?, .mk hseries, rfl, hbegins⟩
  · obtain ⟨f?, hbegins⟩ := begins_of_append hgap hoperand hbehind.symm
    exact ⟨_, pathText, front, f?, .mk hsegments, rfl, hbegins⟩

/-! ### Runs -/

/-- No name or number goes on in what stands behind the steps of a path. -/
theorem Begins.stops (h : Begins f? head) : Stops Byte.isKeyword head := by
  cases h with
  | step hbegins => exact hbegins.stops
  | bareStep hbare => exact (SegmentBegins.bare hbare).stops
  | gap hgap =>
    obtain rfl | rfl := hgap
    · exact stops_nil
    · exact stops_cons_iff.2 (by decide)
  | operand hgap => exact keywordStops_of_isGap hgap
  | bareOperand hgap => exact keywordStops_of_isGap hgap

/-- The run over a path comes to what is behind it. -/
theorem passes_of_series (h : Series SegmentSpelled segments text)
    (hstops : Stops Byte.isKeyword head) :
    machine.Passes (.path .segment) text (.path .segment) head := by
  induction h with
  | nil => exact .refl
  | @cons seg segments line text hspelled hsegments ih =>
    have hbehind : seg.Stops (text ++ head) :=
      Segment.stops_of_keyword ((stops_of_series hsegments).append hstops)
    exact (Passes.of_emit (step_of_startUnit (.segment hspelled hbehind)) rfl).trans ih

/-- The run over an operator comes to its operand. -/
theorem passes_of_glyph {gap : Bytes} (h : IsGap gap) :
    machine.Passes (.path .segment) (gap ++ [oper.glyph]) .operand text :=
  .of_emit (step_of_startUnit (.operator h)) rfl

/-- The beginning of a step is read without a fault, unless it ends at a bare mark. -/
theorem lasts_of_segmentBegins (h : SegmentBegins none head) :
    machine.Lasts (.path .segment) head := by
  cases h with
  | nothing => exact .of_wait rfl
  | @segment seg _ hspelled =>
    have hstops : seg.Stops [] := Segment.stops_of_keyword stops_nil
    have hstep := step_of_startUnit (.segment hspelled hstops)
    rw [List.append_nil] at hstep
    exact .of_emit hstep rfl (.of_wait rfl)
  | key hcut =>
    obtain hmore | ⟨value, length, hdone⟩ := @scanSegment_of_cut true _ hcut
    · have hread : Path.step true .segment head = .wait .segment 0 := Step.ofScan_of_more hmore
      refine .of_wait (t := .path .segment) (n := 0) ?_
      show readPath .segment head = _
      rw [readPath, hread]
    · exact .of_emit (step_path_of_piece hdone) rfl (.of_wait step_keyWithin_nil)

/-- A bare mark of a step is a fault of the update. -/
theorem fails_of_bareStep {f : Fault Path.Cause} (h : Path.Bare f text) :
    machine.FailsWith (.path .segment) text (f.map .path) := by
  have hread : Path.step true .segment text = .fault f :=
    Step.ofScan_of_fault (scanSegment_of_bare h)
  refine .of_fault ?_
  show readPath .segment text = _
  rw [readPath, hread]

/-- The beginning of an operand is read without a fault, unless it ends at a bare mark. -/
theorem lasts_of_operandBegins (h : form.Begins text) : machine.Lasts .operand text := by
  cases h with
  | @whole operand text hspells =>
    have hoperand := (Element.spells_iff_operandSpelled rfl rfl).1 hspells
    exact .of_emit (step_operand_eq_operand_iff.2 ⟨hoperand, rfl, rfl⟩) rfl (.of_final rfl rfl)
  | @opening type value text length hopens =>
    have hscan := Element.scan_eq_opening_iff.2 ⟨hopens, rfl⟩
    have hstep : machine.step .operand text =
        .emit (.opening type value length) (.within (length - value.length)) text.length :=
      Step.ofScan_of_done (bind_of_done hscan)
    exact .of_emit hstep rfl (.of_wait step_within_nil)
  | length htype hnum hpos =>
    exact .of_wait (Step.ofScan_of_more (bind_of_more (Element.scan_of_length htype hnum hpos)))

/-- A bare mark of an operand is a fault. -/
theorem fails_of_operandBare (h : form.Bare f text) : machine.FailsWith .operand text f :=
  .of_fault (Step.ofScan_of_fault (bind_of_fault (Element.scan_of_bare h)))

/-- A parser of updates fails at the beginning of an update just if this ends at a bare mark. -/
theorem failsJustAt (h : Spelled u (front ++ back)) :
    parser.FailsJustAt front (CutsMark front) := by
  have hglyph : ∀ gap text : Bytes, ∀ oper : Operator,
      gap ++ oper.glyph :: text = gap ++ [oper.glyph] ++ text := fun gap text oper => by simp
  refine Parser.failsJustAt_of_passes isBounded_machine (t := .path .segment) ?_ ?_ ?_ ?_
  · rintro text head f? ⟨p, hspelled⟩ hbegins
    cases hspelled with
    | mk hsegments => exact passes_of_series hsegments hbegins.stops
  · intro head hbegins
    cases hbegins with
    | step hbegins => exact lasts_of_segmentBegins hbegins
    | gap hgap =>
      obtain rfl | rfl := hgap
      · exact .of_wait rfl
      · exact .of_wait rfl
    | operand hgap hbegins =>
      rw [hglyph]
      exact (passes_of_glyph hgap).lasts (lasts_of_operandBegins hbegins)
  · intro head g hbegins
    cases hbegins with
    | bareStep hbare => exact fails_of_bareStep hbare
    | @bareOperand gap text oper f hgap hbare =>
      have hfails := (@passes_of_glyph text oper gap hgap).fails (fails_of_operandBare hbare)
      rw [List.length_append, ← hglyph] at hfails
      exact hfails
  · obtain ⟨p', text, head, f?, hspelled, htext, hbegins⟩ := h.of_append
    exact ⟨text, head, f?, ⟨p', hspelled⟩, htext, hbegins⟩

end PacketWire.Update
