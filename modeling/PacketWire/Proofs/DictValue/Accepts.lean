import PacketWire.Proofs.DictValue.Units
import PacketWire.Proofs.Resumable.Drain

namespace PacketWire.DictValue

open Scan Machine

/-!
# The dicts that are accepted

A byte string is read as a dict where it is a way to write this dict, and nowhere else
(`parse_eq_ok_iff`). Behind the default type every run of the parser is two units for each entry,
and between them the closing brace of the key and the value are still ahead (`Ahead`).
-/

variable {input text buffer type : Bytes} {entries : List Entry} {pending : Option Key}
  {read d : DictValue} {es : List Event} {s t : State} {n : Nat}
  {answers : List (Answer Event Cause)}

/-! ### Runs -/

theorem ofAnswers_typeUnits :
    ofAnswers ⟨[], []⟩ pending ((typeUnits Event.type type ++ es).map .event ++ answers) =
      ofAnswers ⟨type, []⟩ pending (es.map .event ++ answers) := by
  cases type with
  | nil => rfl
  | cons b type => rfl

/-- What is ahead in a state, where entries are still to be read and a key may have been read that
    has no value yet. -/
inductive Ahead : State → Option Key → List Entry → Bytes → Prop where
  /-- The entries. -/
  | entries {entries : List Entry} {text : Bytes} :
      Series EntrySpelled entries text → Ahead .key none entries text
  /-- The closing brace of a key, its value, and the entries behind them. -/
  | value {key : Key} {value : Element} {entries : List Entry} {text rest : Bytes} :
      value.Spelled (some Byte.openBrace) text → Series EntrySpelled entries rest →
        Ahead .value (some key) (⟨key, value⟩ :: entries) (Byte.closeBrace :: text ++ rest)

/-- A run that ends, at a key or at a value, has read the entries that are ahead, if a dict is made
    of its units. -/
theorem ahead_of_runs (h : machine.Runs s input es (.emit .finish t n))
    (hs : s = .key ∧ pending = none ∨ s = .value ∧ pending.isSome)
    (hread : ofAnswers read pending (es.map .event ++ [.event .finish]) = .ok d) :
    ∃ entries, Ahead s pending entries input ∧
      d = { read with entries := read.entries ++ entries } := by
  generalize hr : Step.emit Event.finish t n = r at h
  -- Keys and values come in turn: a key is pending just where a value is next.
  induction h generalizing read pending n with
  | last hstep =>
    subst hr
    rcases hs with ⟨rfl, rfl⟩ | ⟨rfl, hp⟩
    · obtain ⟨text, rest, hunit, rfl, -⟩ := step_key_eq_emit_iff.1 hstep
      cases hunit
      cases hread
      exact ⟨[], .entries .nil, by rw [List.append_nil]⟩
    · obtain ⟨key, rfl⟩ := Option.isSome_iff_exists.1 hp
      cases hread
  | @unit s t input e k es r hstep hne hruns ih =>
    obtain ⟨j, rfl, -⟩ := Step.shift_eq_emit_iff.1 hr.symm
    rcases hs with ⟨rfl, rfl⟩ | ⟨rfl, hp⟩
    · obtain ⟨text, rest, hunit, rfl, rfl⟩ := step_key_eq_emit_iff.1 hstep
      cases hunit with
      | finish => cases hne
      | opening => cases hread
      | @key key text _ hinside =>
        obtain ⟨entries, hahead, rfl⟩ := ih (.inr ⟨rfl, rfl⟩) hread rfl
        rw [List.drop_left] at hahead
        refine ⟨entries, ?_, rfl⟩
        -- The text of the value stands in front of those of the other entries; with the key it is
        -- an entry.
        cases hahead with
        | @value _ value entries valueText rest hvalue hentries =>
          have hentry : EntrySpelled ⟨key, value⟩
              (Byte.openBrace :: text ++ [Byte.closeBrace] ++ valueText) :=
            .mk hinside.spelled hvalue
          have hseries := Series.cons hentry hentries
          rw [List.append_assoc, List.append_assoc] at hseries
          exact .entries hseries
    · obtain ⟨key, rfl⟩ := Option.isSome_iff_exists.1 hp
      cases input with
      | nil => cases hstep
      | cons b input =>
        obtain ⟨text, rest, hunit, hi, rfl⟩ := hasSlot.step_eq_emit_iff.1 hstep
        rw [hi, List.drop_left] at ih
        cases hunit with
        | opening => cases hread
        | @whole value text _ hspelled =>
          obtain ⟨entries, hahead, rfl⟩ := ih (.inl ⟨rfl, rfl⟩) hread rfl
          cases hahead with
          | entries hentries =>
            refine ⟨⟨key, value⟩ :: entries, ?_, by simp⟩
            rw [hi]
            exact .value hspelled hentries

/-- Entries that are written one behind the other are read by a run. -/
theorem runs_of_series (h : Series EntrySpelled entries text) :
    ∃ es t n, machine.Runs .key text es (.emit .finish t n) ∧ es.length ≤ text.length ∧
      joined es = entries.flatMap Entry.units ∧
      ∀ read, ofAnswers read none (es.map .event ++ [.event .finish]) =
        .ok { read with entries := read.entries ++ entries } := by
  induction h with
  | nil =>
    refine ⟨[], .key, 0, .last rfl rfl, Nat.le_refl 0, rfl, fun read => ?_⟩
    rw [List.append_nil]
    rfl
  | @cons entry entries text rest hentry hentries ih =>
    obtain ⟨es, t, n, hruns, hlength, hjoined, hread⟩ := ih
    cases hentry with
    | @mk key value keyText valueText hkey hvalue =>
      obtain ⟨inside, rfl, hinside⟩ := hkey.exists_inside
      -- An entry is two steps of the machine: its key, and its value up to the next brace.
      have hkeyStep := step_key_eq_emit_iff.2
        ⟨_, _, .key (hinside (valueText ++ rest)), rfl, rfl⟩
      have hvalueUnit : slot.Unit (Byte.closeBrace :: valueText) rest
          (.value value rest.isEmpty) .key := .whole hvalue (endsBefore_of_series hentries)
      have hvalueStep : machine.step .value (Byte.closeBrace :: (valueText ++ rest)) = _ :=
        hasSlot.step_eq_emit_iff.2 ⟨_, rest, hvalueUnit, rfl, rfl⟩
      have htext : Byte.openBrace :: inside ++ [Byte.closeBrace] ++ valueText ++ rest =
          Byte.openBrace :: inside ++ Byte.closeBrace :: (valueText ++ rest) := by simp
      rw [htext]
      have hvalueRuns := Runs.unit hvalueStep rfl
        (by rwa [← List.cons_append, List.drop_left] : machine.Runs .key _ es _)
      have hkeyRuns := Runs.unit hkeyStep rfl
        (by rwa [List.drop_left] : machine.Runs .value _ (.value value rest.isEmpty :: es) _)
      refine ⟨_, t, _, hkeyRuns, ?_, ?_, fun read => ?_⟩
      · simp only [List.length_cons, List.length_append]
        omega
      · exact congrArg ([.key key, .value value false] ++ ·) hjoined
      · have hone := hread { read with entries := read.entries ++ [⟨key, value⟩] }
        rw [List.append_assoc] at hone
        exact hone

/-! ### Dicts -/

/-- A dict is made of answers only if the answer behind a number of units is a unit, too. -/
theorem exists_event_of_ofAnswers (hes : ∀ e ∈ es, machine.isFinal e = false)
    (h : ofAnswers read pending (es.map .event ++ answers) = .ok d) :
    ∃ e more, answers = .event e :: more := by
  let readFrom (start : DictValue × Option Key) := ofAnswers start.1 start.2
  have hstart : readFrom (read, pending) (es.map .event ++ answers) = .ok d := h
  refine Parser.exists_event_of_read readFrom (fun _ => nofun) (fun _ _ => nofun)
    (fun _ _ _ => nofun) (fun {start e answers} hne hread => ?_) hes hstart
  obtain ⟨read, pending⟩ := start
  cases e with
  | type type => exact ⟨({ read with type }, pending), hread⟩
  | key key => exact ⟨(read, some key), hread⟩
  | keyOpening value length => cases hread
  | keyPiece value isLast => cases hread
  | value element isLast =>
    cases pending with
    | none => cases hread
    | some key => exact ⟨(_, none), hread⟩
  | valueOpening type value length => cases hread
  | valuePiece value isLast => cases hread
  | finish => cases hne

theorem spelled_of_parse (h : parse buffer = .ok d) : Spelled d buffer := by
  obtain ⟨es, e, t, n, hruns, hfinal, hread⟩ :=
    Parser.exists_runs_of_drain isBounded_machine (p := parser) (Nat.zero_le _)
      (P := fun answers => ofAnswers ⟨[], []⟩ none answers = .ok d) h exists_event_of_ofAnswers
  obtain rfl : e = .finish := eq_of_beq hfinal
  obtain ⟨type, text, es, r, htype, -, hi, rfl, hr, hruns⟩ := startsTyped.exists_runs hruns
  obtain rfl : buffer = type ++ text := hi
  obtain ⟨k, rfl, -⟩ := Step.shift_eq_emit_iff.1 hr.symm
  rw [ofAnswers_typeUnits] at hread
  obtain ⟨entries, hahead, rfl⟩ := ahead_of_runs hruns (.inl ⟨rfl, rfl⟩) hread
  cases hahead with
  | entries hentries => exact .mk htype hentries

/-- A dict is read off a way to write it by a run that gives its units. -/
theorem runs_of_spelled (h : Spelled d buffer) :
    ∃ es t n, machine.Runs .type buffer es (.emit .finish t n) ∧ es.length ≤ buffer.length ∧
      joined es = d.units ∧
      ofAnswers ⟨[], []⟩ none (es.map .event ++ [.event .finish]) = .ok d := by
  cases h with
  | @mk type text entries htype hentries =>
    obtain ⟨es, t, n, hruns, hlength, hjoined, hread⟩ := runs_of_series hentries
    have hstops : Stops Byte.isKeyword text := (endsBefore_of_series hentries).stops fun d hd => by
      cases hd
      decide
    refine ⟨_, t, _, startsTyped.runs htype hstops hruns, ?_, ?_, ?_⟩
    · have hle := @length_typeUnits_le _ Event.type type
      rw [List.length_append, List.length_append]
      omega
    · rw [joined_typeUnits, hjoined]
      rfl
    · rw [ofAnswers_typeUnits]
      exact hread ⟨type, []⟩

theorem parse_of_spelled (h : Spelled d buffer) : parse buffer = .ok d := by
  obtain ⟨es, t, n, hruns, hlength, -, hread⟩ := runs_of_spelled h
  have hdrain : parser.drain buffer = es.map .event ++ [.event .finish] :=
    Parser.drain_of_runs isBounded_machine hruns (by omega)
  rw [parse, hdrain]
  exact hread

/-- A buffer is read as a dict exactly where it is a way to write this dict. -/
theorem parse_eq_ok_iff : parse buffer = .ok d ↔ Spelled d buffer :=
  ⟨spelled_of_parse, parse_of_spelled⟩

end PacketWire.DictValue
