import PacketWire.Proofs.Path.Accepts

namespace PacketWire.Path

open Scan Machine

/-!
# Paths that come in parts

A path whose bytes come in a growing buffer is read as it is where they come all at once, as long as
more input is needed in between (`resumes_machine`). Only a key can be cut there: the end of the
buffer ends numbers and names. Behind the last part of a key its closing brace is still ahead, and
what comes behind the brace is read as behind a key that comes whole.
-/

variable {input : Bytes} {e : Event} {es : List Event} {t : State} {n : Nat}

/-! ### Keys -/

/-- The rest of a key may stand in front of anything. -/
def keyRest : Rest State Event where
  piece value isLast := .piece (.keyPiece value isLast)
  next := .keyEnd
  within := .keyWithin
  Ends _ := True

theorem readsRest_key : machine.ReadsRest keyRest :=
  .of_unended (fun _ _ => rfl) (fun _ => trivial) fun _ _ => rfl

/-- The last part of a key is joined with nothing behind it. -/
theorem prepend_lastKeyPiece {part : Bytes} :
    Event.prepend (.piece (.keyPiece part true)) es = .piece (.keyPiece part true) :: es := by
  cases es <;> rfl

theorem joinsParts_key : JoinsParts keyRest Event.prepend := by
  intro value value' es
  show Event.prepend (.piece (.keyPiece value false))
    (Event.prepend (.piece (.keyPiece value' true)) es) = _
  rw [prepend_lastKeyPiece]
  exact prepend_lastKeyPiece.symm

/-! ### Steps -/

/-- A step, or what there is of it, is read again, or goes on as a longer one. -/
theorem goesOn_segment (hstep : machine.step .segment input = .emit e t n)
    (hne : machine.isFinal e = false) : machine.GoesOn Event.prepend .segment input e t n := by
  obtain ⟨text, rest, hunit, rfl, rfl⟩ := step_segment_eq_emit_iff.1 hstep
  cases hunit with
  | finish => cases hne
  | finishEmbedded => cases hne
  | segment hspelled hstops =>
    cases rest with
    | nil =>
      refine .atEnd ⟨.finish, .segment, 0, ?_, rfl⟩
      rw [List.drop_left]
      rfl
    | cons b rest =>
      refine .again (by simp) fun back => ?_
      rw [List.append_assoc]
      have hstops' := @Segment.stops_append _ _ back hstops nofun
      exact step_segment_eq_emit_iff.2 ⟨text, _, .segment hspelled hstops', rfl, rfl⟩
  | @keyOpening value digits length hnum hlt =>
    rw [List.append_nil]
    refine .cut rfl readsRest_key.step_nil fun {back e' t' n'} hemit => ?_
    obtain ⟨text, rest, hunit, hi, rfl⟩ := step_segment_eq_emit_iff.1 hemit
    cases hunit with
    | finish => cases hi
    | finishEmbedded hembedded => cases hembedded
    | keyOpening =>
      rw [hi, List.append_nil]
      exact ⟨rfl, .inl ⟨rfl, readsRest_key.step_nil⟩⟩
    | @segment seg text _ hspelled =>
      obtain ⟨piece, rfl, rfl, hlength⟩ := hspelled.exists_piece hnum hlt hi.symm
      -- the key takes its closing brace along, and the last part of it does not
      refine ⟨rfl, .inr ⟨piece.length + 1, ?_, ?_⟩⟩
      · have hlengths := congrArg List.length hi
        simp only [List.length_append, List.length_cons] at hlengths ⊢
        omega
      · refine readsRest_key.completes (List.ne_nil_of_length_pos (by omega)) hlength trivial ?_
          step_keyEnd_closeBrace
        intro es
        show Event.prepend (.piece (.keyOpening value length))
          (Event.prepend (.piece (.keyPiece piece true)) es) = _
        rw [prepend_lastKeyPiece]
        rfl

/-- The parser of paths goes on, if more input comes, as if all of it had been there. -/
theorem resumes_machine : machine.Resumes Event.prepend := by
  have hsegment : machine.ResumesAt Event.prepend .segment :=
    .of_ofScan (fun _ => rfl) goesOn_segment
  intro s
  cases s with
  | segment => exact hsegment
  | keyWithin missing => exact readsRest_key.resumesAt joinsParts_key
  | keyEnd =>
    have hclosed (rest : Bytes) : machine.step .keyEnd (Byte.closeBrace :: rest) =
        (machine.step .segment rest).shift 1 := step_keyEnd_closeBrace
    exact .of_byte rfl hclosed (fun hb _ => ⟨_, step_keyEnd_of_ne hb⟩) hsegment

/-- What is accepted where it comes all at once is accepted where it comes in parts. -/
theorem readsThrough_of_parse {value : Bytes} {p : Path} (h : parse value = .ok p) :
    parser.ReadsThrough joined .finish value p.units := by
  obtain ⟨ws, t, n, hruns, -, hws, -⟩ := runs_of_spelled (parse_eq_ok_iff.1 h)
  rw [← hws]
  exact Parser.readsThrough_of_runs isBounded_machine resumes_machine hruns

end PacketWire.Path
