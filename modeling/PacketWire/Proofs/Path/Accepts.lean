import PacketWire.Proofs.Path.Units
import PacketWire.Proofs.Resumable.Drain
import PacketWire.Proofs.Resumable.Rest

namespace PacketWire.Path

open Scan Machine

/-!
# The paths that are accepted

A byte string is read as a path where it is a way to write this path, and nowhere else
(`parse_eq_ok_iff`). A path that comes whole makes one unit for each step (`units`); the parts of a
key that does not are joined (`joined`).
-/

variable {input text buffer : Bytes} {segments : List Segment} {read p : Path} {e : Event}
  {es : List Event} {t : State} {n : Nat} {answers : List (Answer Event Cause)}

/-! ### Parts -/

/-- A unit in front of others, where the parts of a key make one step. -/
def Event.prepend : Event → List Event → List Event
  | piece (.keyOpening front length), piece (.keyPiece value isLast) :: es =>
    if isLast then piece (.segment (.key ⟨front ++ value, true⟩)) :: es
    else piece (.keyOpening (front ++ value) length) :: es
  | piece (.keyPiece front false), piece (.keyPiece value isLast) :: es =>
    piece (.keyPiece (front ++ value) isLast) :: es
  | e, es => e :: es

/-- Units with the parts of each key joined. -/
def joined (es : List Event) : List Event := es.foldr Event.prepend []

/-- The units of a path, in front of its end. -/
def units (p : Path) : List Event := p.segments.map fun seg => .piece (.segment seg)

/-! ### Runs -/

/-- Where a step of the path may come a unit is read just where one is spelled. -/
theorem step_segment_eq_emit_iff :
    machine.step .segment input = .emit e t n ↔
      ∃ text rest, Unit false text rest e t ∧ input = text ++ rest ∧ n = text.length :=
  Step.ofScan_eq_emit_iff.trans scanSegment_eq_done_iff

/-- No step of the parser takes more than there is. -/
theorem isBounded_machine : machine.IsBounded :=
  Machine.isBounded_of_used_le fun s _ => used_step_le s

/-- A run that ends has read the steps, if a path is made of its units. -/
theorem series_of_runs (h : machine.Runs .segment input es (.emit .finish t n))
    (hread : ofAnswers read (es.map .event ++ [.event .finish]) = .ok p) :
    ∃ segments, Series SegmentSpelled segments input ∧ p = ⟨read.segments ++ segments⟩ := by
  generalize hs : State.segment = s at h
  generalize hr : Step.emit Event.finish t n = r at h
  induction h generalizing read n with
  | last hstep =>
    subst hs hr
    obtain ⟨text, rest, hunit, rfl, -⟩ := step_segment_eq_emit_iff.1 hstep
    cases hunit with
    | finish =>
      cases hread
      exact ⟨[], .nil, by rw [List.append_nil]⟩
    -- only within an update does a path end in front of a byte
    | finishEmbedded hembedded => cases hembedded
  | unit hstep hne _ ih =>
    subst hs
    obtain ⟨k, rfl, -⟩ := Step.shift_eq_emit_iff.1 hr.symm
    obtain ⟨text, rest, hunit, rfl, rfl⟩ := step_segment_eq_emit_iff.1 hstep
    cases hunit with
    | finish => cases hne
    | finishEmbedded => cases hne
    | keyOpening => cases hread
    | @segment seg _ _ hspelled =>
      rw [List.drop_left] at ih
      obtain ⟨segments, hsegments, rfl⟩ := ih hread rfl rfl
      exact ⟨seg :: segments, .cons hspelled hsegments, by simp⟩

/-- Steps that are written one behind the other are read by a run. -/
theorem runs_of_series (h : Series SegmentSpelled segments text) :
    ∃ es t n, machine.Runs .segment text es (.emit .finish t n) ∧ es.length ≤ text.length ∧
      joined es = (⟨segments⟩ : Path).units ∧
      ∀ read, ofAnswers read (es.map .event ++ [.event .finish]) =
        .ok ⟨read.segments ++ segments⟩ := by
  induction h with
  | nil =>
    refine ⟨[], .segment, 0, .last rfl rfl, Nat.le_refl 0, rfl, fun read => ?_⟩
    rw [List.append_nil]
    rfl
  | @cons seg segments text rest hspelled hsegments ih =>
    obtain ⟨es, t, n, hruns, hlength, hjoined, hread⟩ := ih
    have hstops : seg.Stops rest := Segment.stops_of_keyword (stops_of_series hsegments)
    have hstep := step_segment_eq_emit_iff.2 ⟨text, rest, .segment hspelled hstops, rfl, rfl⟩
    have hpos : 0 < text.length := by
      obtain ⟨b, tail, rfl, -⟩ := hspelled.starts
      exact Nat.succ_pos _
    rw [← @List.drop_left _ text rest] at hruns
    refine ⟨_, t, _, .unit hstep rfl hruns, ?_, ?_, fun read => ?_⟩
    · rw [List.length_cons, List.length_append]
      omega
    · exact congrArg (Event.piece (.segment seg) :: ·) hjoined
    · have hone := hread ⟨read.segments ++ [seg]⟩
      rw [List.append_assoc] at hone
      exact hone

/-! ### Paths -/

/-- A path is made of answers only if the answer behind a number of units is a unit, too. -/
theorem exists_event_of_ofAnswers (hes : ∀ e ∈ es, machine.isFinal e = false)
    (h : ofAnswers read (es.map .event ++ answers) = .ok p) :
    ∃ e more, answers = .event e :: more := by
  refine Parser.exists_event_of_read ofAnswers (fun _ => nofun) (fun _ _ => nofun)
    (fun _ _ _ => nofun) (fun {read e answers} hne hread => ?_) hes h
  cases e with
  | piece piece =>
    cases piece with
    | segment seg => exact ⟨_, hread⟩
    | keyOpening value length => cases hread
    | keyPiece value isLast => cases hread
  | finish => cases hne

/-- What is read as a path is a way to write it. -/
theorem spelled_of_parse (h : parse buffer = .ok p) : Spelled p buffer := by
  obtain ⟨es, e, t, n, hruns, hfinal, hread⟩ :=
    Parser.exists_runs_of_drain isBounded_machine (p := parser) (Nat.zero_le _)
      (P := fun answers => ofAnswers ⟨[]⟩ answers = .ok p) h exists_event_of_ofAnswers
  obtain rfl : e = .finish := eq_of_beq hfinal
  obtain ⟨segments, hsegments, rfl⟩ := series_of_runs hruns hread
  exact .mk hsegments

/-- A path is read off a way to write it by a run that gives its units. -/
theorem runs_of_spelled (h : Spelled p buffer) :
    ∃ es t n, machine.Runs .segment buffer es (.emit .finish t n) ∧ es.length ≤ buffer.length ∧
      joined es = p.units ∧ ofAnswers ⟨[]⟩ (es.map .event ++ [.event .finish]) = .ok p := by
  cases h with
  | mk hsegments =>
    obtain ⟨es, t, n, hruns, hlength, hjoined, hread⟩ := runs_of_series hsegments
    exact ⟨es, t, n, hruns, hlength, hjoined, hread ⟨[]⟩⟩

/-- A way to write a path is read as this path. -/
theorem parse_of_spelled (h : Spelled p buffer) : parse buffer = .ok p := by
  obtain ⟨es, t, n, hruns, hlength, -, hread⟩ := runs_of_spelled h
  have hdrain : parser.drain buffer = es.map .event ++ [.event .finish] :=
    Parser.drain_of_runs isBounded_machine hruns (by omega)
  rw [parse, hdrain]
  exact hread

/-- A buffer is read as a path exactly where it is a way to write this path. -/
theorem parse_eq_ok_iff : parse buffer = .ok p ↔ Spelled p buffer :=
  ⟨spelled_of_parse, parse_of_spelled⟩

end PacketWire.Path
