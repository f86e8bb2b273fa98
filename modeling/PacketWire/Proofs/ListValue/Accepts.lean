import PacketWire.Proofs.ListValue.Units
import PacketWire.Proofs.Resumable.Drain

namespace PacketWire.ListValue

open Scan Machine

/-!
# The lists that are accepted

A byte string is read as a list where it is a way to write this list, and nowhere else
(`parse_eq_ok_iff`). Behind the default type every run of the parser is one unit for each element;
each of them ends in front of a `|` or with the buffer.
-/

variable {input text buffer type : Bytes} {elements : List Element} {read l : ListValue} {e : Event}
  {es : List Event} {t : State} {n : Nat} {answers : List (Answer Event Cause)}

/-! ### Runs -/

theorem ofAnswers_typeUnits :
    ofAnswers ⟨[], []⟩ ((typeUnits Event.type type ++ es).map .event ++ answers) =
      ofAnswers ⟨type, []⟩ (es.map .event ++ answers) := by
  cases type with
  | nil => rfl
  | cons b type => rfl

/-- A run over the elements that ends has read them, if a list is made of its units. -/
theorem series_of_runs (h : machine.Runs .elements input es (.emit .finish t n))
    (hread : ofAnswers read (es.map .event ++ [.event .finish]) = .ok l) :
    ∃ elements, Series ItemSpelled elements input ∧
      l = { read with elements := read.elements ++ elements } := by
  generalize hs : State.elements = s at h
  generalize hr : Step.emit Event.finish t n = r at h
  -- Every unit in front of the end is a whole element: of parts no list is made.
  induction h generalizing read n with
  | last hstep =>
    subst hs hr
    obtain ⟨rfl, -⟩ | ⟨text, rest, hunit, -⟩ := step_elements_eq_emit_iff.1 hstep
    · cases hread
      exact ⟨[], .nil, by rw [List.append_nil]⟩
    · cases hunit
  | unit hstep hne _ ih =>
    subst hs
    obtain ⟨k, rfl, -⟩ := Step.shift_eq_emit_iff.1 hr.symm
    obtain ⟨-, rfl, -⟩ | ⟨text, rest, hunit, rfl, rfl⟩ := step_elements_eq_emit_iff.1 hstep
    · cases hne
    · cases hunit with
      | opening => cases hread
      | @whole element _ _ hspelled =>
        rw [List.drop_left] at ih
        obtain ⟨elements, helements, rfl⟩ :=
          @ih { read with elements := read.elements ++ [element] } k hread rfl rfl
        exact ⟨element :: elements, .cons (.mk hspelled) helements, by simp⟩

/-- Elements that are written one behind the other are read by a run. -/
theorem runs_of_series (h : Series ItemSpelled elements text) :
    ∃ es t n, machine.Runs .elements text es (.emit .finish t n) ∧ es.length ≤ text.length ∧
      joined es = elements.map (.element · false) ∧
      ∀ read, ofAnswers read (es.map .event ++ [.event .finish]) =
        .ok { read with elements := read.elements ++ elements } := by
  induction h with
  | nil =>
    refine ⟨[], .elements, 0, .last rfl rfl, Nat.le_refl 0, rfl, fun read => ?_⟩
    rw [List.append_nil]
    rfl
  | @cons element elements text rest hitem helements ih =>
    obtain ⟨es, t, n, hruns, hlength, hjoined, hread⟩ := ih
    cases hitem with
    | @mk _ text hspelled =>
      have hunit : slot.Unit (Byte.pipe :: text) rest (.element element rest.isEmpty) .elements :=
        .whole hspelled (endsBefore_of_series helements)
      have hstep := step_elements_eq_emit_iff.2 (.inr ⟨_, rest, hunit, rfl, rfl⟩)
      rw [← @List.drop_left _ (Byte.pipe :: text) rest] at hruns
      refine ⟨_, t, _, .unit hstep rfl hruns, ?_, ?_, fun read => ?_⟩
      · rw [List.length_cons, List.length_append, List.length_cons]
        omega
      · exact congrArg (Event.element element false :: ·) hjoined
      · have hone := hread { read with elements := read.elements ++ [element] }
        rw [List.append_assoc] at hone
        exact hone

/-! ### Lists -/

/-- A list is made of answers only if the answer behind a number of units is a unit, too. -/
theorem exists_event_of_ofAnswers (hes : ∀ e ∈ es, machine.isFinal e = false)
    (h : ofAnswers read (es.map .event ++ answers) = .ok l) :
    ∃ e more, answers = .event e :: more := by
  refine Parser.exists_event_of_read ofAnswers (fun _ => nofun) (fun _ _ => nofun)
    (fun _ _ _ => nofun) (fun {read e answers} hne hread => ?_) hes h
  cases e with
  | type type => exact ⟨_, hread⟩
  | element element isLast => exact ⟨_, hread⟩
  | opening type value length => cases hread
  | piece value isLast => cases hread
  | finish => cases hne

theorem spelled_of_parse (h : parse buffer = .ok l) : Spelled l buffer := by
  obtain ⟨es, e, t, n, hruns, hfinal, hread⟩ :=
    Parser.exists_runs_of_drain isBounded_machine (p := parser) (Nat.zero_le _)
      (P := fun answers => ofAnswers ⟨[], []⟩ answers = .ok l) h exists_event_of_ofAnswers
  obtain rfl : e = .finish := eq_of_beq hfinal
  obtain ⟨type, text, es, r, htype, -, hi, rfl, hr, hruns⟩ := startsTyped.exists_runs hruns
  obtain rfl : buffer = type ++ text := hi
  obtain ⟨k, rfl, -⟩ := Step.shift_eq_emit_iff.1 hr.symm
  rw [ofAnswers_typeUnits] at hread
  obtain ⟨elements, helements, rfl⟩ := series_of_runs hruns hread
  exact .mk htype helements

/-- A list is read off a way to write it by a run that gives its units. -/
theorem runs_of_spelled (h : Spelled l buffer) :
    ∃ es t n, machine.Runs .type buffer es (.emit .finish t n) ∧ es.length ≤ buffer.length ∧
      joined es = l.units ∧ ofAnswers ⟨[], []⟩ (es.map .event ++ [.event .finish]) = .ok l := by
  cases h with
  | @mk type text elements htype helements =>
    obtain ⟨es, t, n, hruns, hlength, hjoined, hread⟩ := runs_of_series helements
    have hstops : Stops Byte.isKeyword text := (endsBefore_of_series helements).stops fun d hd => by
      cases hd
      decide
    refine ⟨_, t, _, startsTyped.runs htype hstops hruns, ?_, ?_, ?_⟩
    · have hle := @length_typeUnits_le _ Event.type type
      rw [List.length_append, List.length_append]
      omega
    · rw [joined_typeUnits, hjoined]
      rfl
    · rw [ofAnswers_typeUnits]
      exact hread ⟨type, []⟩

theorem parse_of_spelled (h : Spelled l buffer) : parse buffer = .ok l := by
  obtain ⟨es, t, n, hruns, hlength, -, hread⟩ := runs_of_spelled h
  have hdrain : parser.drain buffer = es.map .event ++ [.event .finish] :=
    Parser.drain_of_runs isBounded_machine hruns (by omega)
  rw [parse, hdrain]
  exact hread

/-- A buffer is read as a list exactly where it is a way to write this list. -/
theorem parse_eq_ok_iff : parse buffer = .ok l ↔ Spelled l buffer :=
  ⟨spelled_of_parse, parse_of_spelled⟩

/-! ### Lists that come in parts -/

/-- The parser of lists goes on, if more input comes, as if all of it had been there. -/
theorem resumes_machine : machine.Resumes Event.prepend := by
  have helements : machine.ResumesAt Event.prepend .elements := by
    refine .of_ofScan (fun _ => rfl) fun {input e t n} hstep hne => ?_
    cases input with
    | nil =>
      cases hstep
      cases hne
    | cons b input => exact hasSlot.goesOn joins_slot hstep
  intro s
  cases s with
  | type => exact startsTyped.resumesAt hasSlot.endsAt_next helements
  | elements => exact helements
  | within missing => exact hasSlot.readsRest.resumesAt joins_slot.parts

/-- What is accepted where it comes all at once is accepted where it comes in parts. -/
theorem readsThrough_of_parse {value : Bytes} {l : ListValue} (h : parse value = .ok l) :
    parser.ReadsThrough joined .finish value l.units := by
  obtain ⟨ws, t, n, hruns, -, hws, -⟩ := runs_of_spelled (parse_eq_ok_iff.1 h)
  rw [← hws]
  exact Parser.readsThrough_of_runs isBounded_machine resumes_machine hruns

end PacketWire.ListValue
