import PacketWire.Proofs.DictValue.Accepts

namespace PacketWire.DictValue

open Scan Machine

/-!
# Dicts that come in parts

A dict whose bytes come in a growing buffer is read as it is where they come all at once, as long as
more input is needed in between (`resumes_machine`). A key that the input cuts comes with its last
part, and its closing brace is read along with the value.
-/

variable {input : Bytes} {b : UInt8} {e : Event} {t : State} {n : Nat}

/-- A key, or what there is of it, is read again, or goes on as a longer one. -/
theorem goesOn_key (hstep : machine.step .key (b :: input) = .emit e t n) :
    machine.GoesOn Event.prepend .key (b :: input) e t n := by
  obtain ⟨text, rest, hunit, hi, rfl⟩ := step_key_eq_emit_iff.1 hstep
  -- A whole key is the same with more bytes behind it. One that was cut is cut again, or it is
  -- whole now, and what was missing is its last part.
  cases hunit with
  | finish => cases hi
  | key hinside =>
    refine .again (by simp [hi]) fun back => ?_
    rw [hi, List.append_assoc]
    exact step_key_eq_emit_iff.2 ⟨_, rest ++ back, .key (hinside.append back), rfl, rfl⟩
  | @opening value digits length hnum hlt =>
    rw [List.append_nil] at hi
    refine .cut (by rw [hi]) readsRest_key.step_nil fun {back e' t' n'} hemit => ?_
    obtain ⟨text', rest, hunit, hi', rfl⟩ := step_key_eq_emit_iff.1 hemit
    cases hunit with
    | finish => cases hi'
    | opening =>
      rw [hi', List.append_nil]
      exact ⟨rfl, .inl ⟨rfl, readsRest_key.step_nil⟩⟩
    | @key key text' _ hinside =>
      rw [hi, List.cons_append, List.cons_append] at hi'
      obtain ⟨piece, rfl, rfl, hlength⟩ :=
        hinside.exists_piece hnum hlt (List.cons.inj hi').2.symm
      refine ⟨rfl, .inr ⟨piece.length + 0, ?_, ?_⟩⟩
      · have hlengths := congrArg List.length (List.cons.inj hi').2
        simp only [List.length_append, List.length_cons] at hlengths ⊢
        omega
      · refine readsRest_key.completes (List.ne_nil_of_length_pos (by omega)) hlength trivial ?_
          (Step.shift_zero _).symm
        intro es
        show Event.prepend (.keyOpening value length) (Event.prepend (.keyPiece piece true) es) = _
        rw [prepend_lastKeyPiece]
        rfl

/-- The parser of dicts goes on, if more input comes, as if all of it had been there. -/
theorem resumes_machine : machine.Resumes Event.prepend := by
  have hkey : machine.ResumesAt Event.prepend .key := by
    refine .of_ofScan (fun _ => rfl) fun {input e t n} hstep hne => ?_
    cases input with
    | nil =>
      cases hstep
      cases hne
    | cons b input => exact goesOn_key hstep
  intro s
  cases s with
  | type => exact startsTyped.resumesAt hasSlot.endsAt_next hkey
  | key => exact hkey
  | keyWithin missing => exact readsRest_key.resumesAt joinsParts_key
  | value =>
    refine .of_ofScan (fun _ => rfl) fun {input e t n} hstep _ => ?_
    cases input with
    | nil => cases hstep
    | cons b input => exact hasSlot.goesOn joins_slot hstep
  | valueWithin missing => exact hasSlot.readsRest.resumesAt joins_slot.parts

/-- What is accepted where it comes all at once is accepted where it comes in parts. -/
theorem readsThrough_of_parse {value : Bytes} {d : DictValue} (h : parse value = .ok d) :
    parser.ReadsThrough joined .finish value d.units := by
  obtain ⟨ws, t, n, hruns, -, hws, -⟩ := runs_of_spelled (parse_eq_ok_iff.1 h)
  rw [← hws]
  exact Parser.readsThrough_of_runs isBounded_machine resumes_machine hruns

end PacketWire.DictValue
