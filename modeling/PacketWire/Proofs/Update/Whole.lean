import PacketWire.Proofs.Resumable.Drain
import PacketWire.Proofs.Update.Units

namespace PacketWire.Update

open PacketWire.Parser

/-!
# Updates that are read whole

A buffer that holds an update is read by one run: its units are the steps of the path, the operator
and the operand, and then comes the end (`runs_of_parse`).
-/

variable {buffer input : Bytes} {u : Update} {es : List Event} {s t : State} {n : Nat}
  {answers : List (Answer Event Cause)} {read : Draft}

/-- The units of an update that comes whole, in front of its end. -/
def units (u : Update) : List Event :=
  u.path.segments.map (fun seg => .path (.segment seg)) ++ [.operator u.oper, .operand u.operand]

/-- This unit is no part of a longer one, and not the end. -/
def Event.IsWhole : Event → Prop
  | path (.segment _) => True
  | operator _ => True
  | operand _ => True
  | _ => False

theorem isWhole_of_mem_units {e : Event} (h : e ∈ u.units) : e.IsWhole := by
  rcases List.mem_append.1 h with h | h
  · obtain ⟨seg, -, rfl⟩ := List.mem_map.1 h
    trivial
  · rcases List.mem_cons.1 h with rfl | h
    · trivial
    · obtain rfl := List.mem_singleton.1 h
      trivial

/-! ### Runs -/

/-- A run that ends behind the operand has read nothing more. -/
theorem eq_nil_of_runs_done (h : machine.Runs .done input es (.emit .finish t n)) : es = [] := by
  generalize hr : Step.emit Event.finish t n = r at h
  cases h with
  | last => rfl
  | unit hstep hne =>
    obtain rfl := eq_of_step_done_eq_emit hstep
    cases hne

/-- A run that ends, from the operand on. -/
theorem eq_of_runs_operand (h : machine.Runs .operand input es (.emit .finish t n))
    (hwhole : ∀ e ∈ es, e.IsWhole) : ∃ operand, es = [.operand operand] := by
  generalize hr : Step.emit Event.finish t n = r at h
  cases h with
  | last hstep =>
    subst hr
    obtain ⟨operand, he, -⟩ | ⟨type, value, length, he, -⟩ := step_operand_eq_emit hstep
    · cases he
    · cases he
  | unit hstep hne hruns =>
    obtain ⟨k, rfl, -⟩ := Step.shift_eq_emit_iff.1 hr.symm
    obtain ⟨operand, rfl, rfl⟩ | ⟨type, value, length, rfl, -⟩ := step_operand_eq_emit hstep
    · obtain rfl := eq_nil_of_runs_done hruns
      exact ⟨operand, rfl⟩
    · exact absurd (hwhole _ List.mem_cons_self) id

/-- A run that ends, from the start of an update on. -/
theorem exists_units_of_runs (h : machine.Runs (.path .segment) input es (.emit .finish t n))
    (hwhole : ∀ e ∈ es, e.IsWhole) : ∃ u, es = units u := by
  generalize hs : State.path .segment = s at h
  generalize hr : Step.emit Event.finish t n = r at h
  -- Step by step up to the operator, behind which there is the operand and the end.
  induction h generalizing n with
  | last hstep =>
    subst hs hr
    obtain ⟨text, rest, hunit, -⟩ := step_path_eq_emit_iff.1 hstep
    cases hunit
  | @unit _ t _ e k es r hstep hne hruns ih =>
    subst hs
    obtain ⟨j, rfl, -⟩ := Step.shift_eq_emit_iff.1 hr.symm
    obtain ⟨he, hes⟩ := List.forall_mem_cons.1 hwhole
    obtain ⟨text, rest, hunit, rfl, rfl⟩ := step_path_eq_emit_iff.1 hstep
    cases hunit with
    | @segment seg _ _ hspelled hstops =>
      obtain ⟨u, rfl⟩ := ih hes rfl rfl
      exact ⟨{ u with path := ⟨seg :: u.path.segments⟩ }, rfl⟩
    | keyOpening => exact absurd he id
    | @operator gap _ oper hgap =>
      obtain ⟨operand, rfl⟩ := eq_of_runs_operand hruns hes
      exact ⟨⟨⟨[]⟩, oper, operand⟩, rfl⟩

/-! ### Parsing -/

/-- An update is read off units that are whole only, and the answer behind them is a unit. -/
theorem isWhole_of_ofAnswers (hes : ∀ e ∈ es, machine.isFinal e = false)
    (h : ofAnswers read (es.map .event ++ answers) = .ok u) :
    (∀ e ∈ es, e.IsWhole) ∧ ∃ e more, answers = .event e :: more := by
  induction es generalizing read with
  | nil =>
    cases answers with
    | nil => cases h
    | cons answer more =>
      cases answer with
      | event e => exact ⟨nofun, e, more, rfl⟩
      | more => cases h
      | fault f => cases h
  | cons e es ih =>
    obtain ⟨hne, htail⟩ := List.forall_mem_cons.1 hes
    cases e with
    | path piece =>
      cases piece with
      | segment seg =>
        obtain ⟨hwhole, hanswers⟩ := ih htail h
        exact ⟨List.forall_mem_cons.2 ⟨trivial, hwhole⟩, hanswers⟩
      | keyOpening value length => cases h
      | keyPiece value isLast => cases h
    | operator oper =>
      obtain ⟨hwhole, hanswers⟩ := ih htail h
      exact ⟨List.forall_mem_cons.2 ⟨trivial, hwhole⟩, hanswers⟩
    | operand operand =>
      obtain ⟨hwhole, hanswers⟩ := ih htail h
      exact ⟨List.forall_mem_cons.2 ⟨trivial, hwhole⟩, hanswers⟩
    | opening type value length => cases h
    | piece value isLast => cases h
    | finish => cases hne

theorem ofAnswers_segments {segments : List Path.Segment} :
    ofAnswers read ((segments.map fun seg => .path (.segment seg)).map .event ++ answers) =
      ofAnswers { read with path := ⟨read.path.segments ++ segments⟩ } answers := by
  induction segments generalizing read with
  | nil => simp
  | cons seg segments ih =>
    have hone : ofAnswers read
        (((seg :: segments).map fun seg => .path (.segment seg)).map .event ++ answers) =
          ofAnswers { read with path := ⟨read.path.segments ++ [seg]⟩ }
            ((segments.map fun seg => .path (.segment seg)).map .event ++ answers) := rfl
    rw [hone, ih, List.append_assoc, List.singleton_append]

theorem ofAnswers_units : ofAnswers {} (u.units.map .event ++ [.event .finish]) = .ok u := by
  rw [units, List.map_append, List.append_assoc, ofAnswers_segments]
  rfl

/-- A buffer that holds an update is read by a run that gives its units. -/
theorem runs_of_parse (h : parse buffer = .ok u) :
    ∃ t n, machine.Runs (.path .segment) buffer u.units (.emit .finish t n) := by
  obtain ⟨es, e, t, n, hruns, hfinal, hread⟩ :=
    exists_runs_of_drain isBounded_machine (p := parser) (Nat.zero_le _)
      (P := fun answers => ofAnswers {} answers = .ok u) h fun hes h =>
        (isWhole_of_ofAnswers hes h).2
  obtain rfl : e = .finish := eq_of_beq hfinal
  obtain ⟨u', rfl⟩ := exists_units_of_runs hruns
    (isWhole_of_ofAnswers hruns.isFinal_eq_false hread).1
  obtain rfl : u' = u := Except.ok.inj (ofAnswers_units.symm.trans hread)
  exact ⟨t, n, hruns⟩

end PacketWire.Update
