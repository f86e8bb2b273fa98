import PacketWire.Proofs.Path.Advance
import PacketWire.Proofs.Update.Accepts

namespace PacketWire.Update

open Scan Machine PacketWire.Parser

/-!
# Progress in updates

The end of the path makes no unit, and the operator behind it takes bytes; so each unit of an update
does, but for the end and for an operand of which nothing is there. Such an operand comes once at
most, as nothing but the end comes behind any operand (`eq_finish_behind_operand`).
-/

variable {s t : State} {input buffer : Bytes} {e : Event} {es : List Event}
  {missing n : Nat} {p q : Parser machine}

/-- The operand of which nothing is there. -/
def emptyOperand : Element := ⟨[], [], false⟩

/-- Some bytes are missing of a key or a value that was cut. -/
def State.IsValid : State → Prop
  | path state => state.IsValid
  | within missing => 0 < missing
  | _ => True

/-! ### Units -/

/-- The operator takes its glyph, and the operand comes next. -/
theorem eq_operator_of_scan (h : scanOperator input = .done (e, t) n) :
    (∃ oper, e = .operator oper) ∧ t = .operand ∧ 0 < n := by
  obtain ⟨gap, rest, oper, hgap, rfl⟩ | ⟨-, hmore⟩ | ⟨f, hfault⟩ := @scanOperator_cases input
  · rw [scanOperator_glyph hgap] at h
    cases h
    exact ⟨⟨oper, rfl⟩, rfl, Nat.succ_pos _⟩
  · rw [hmore] at h
    cases h
  · rw [hfault] at h
    cases h

/-- What is read of the path is a piece of it, or the operator, which comes with its end. -/
theorem step_path_emit_cases {state : Path.State}
    (h : machine.step (.path state) input = .emit e t n) :
    (∃ piece state', Path.step true state input = .emit (.piece piece) state' n ∧
        e = .path piece ∧ t = .path state') ∨
      ∃ state' used k, Path.step true state input = .emit .finish state' used ∧
        scanOperator (input.drop used) = .done (e, t) k ∧ n = used + k := by
  have hread : readPath state input = .emit e t n := h
  rw [readPath] at hread
  cases hstep : Path.step true state input with
  | wait state' used => rw [hstep] at hread; cases hread
  | fault f => rw [hstep] at hread; cases hread
  | emit unit state' used =>
    rw [hstep] at hread
    cases unit with
    | piece piece =>
      cases hread
      exact .inl ⟨piece, state', rfl, rfl, rfl⟩
    | finish =>
      obtain ⟨k, hk, rfl⟩ := Step.shift_eq_emit_iff.1 hread
      exact .inr ⟨state', used, k, rfl, Step.ofScan_eq_emit_iff.1 hk, rfl⟩

/-- Whatever is read of the path, or behind it, takes bytes. -/
theorem emit_path {state : Path.State} (hs : state.IsValid)
    (h : machine.step (.path state) input = .emit e t n) : t.IsValid ∧ 0 < n := by
  obtain ⟨piece, state', hstep, rfl, rfl⟩ | ⟨state', used, k, -, hscan, rfl⟩ :=
    step_path_emit_cases h
  · obtain ⟨hvalid, hpos | he⟩ := Path.emit_of_step hs hstep
    · exact ⟨hvalid, hpos⟩
    · cases he
  · obtain ⟨-, rfl, hpos⟩ := eq_operator_of_scan hscan
    exact ⟨trivial, Nat.add_pos_right used hpos⟩

/-- An operand takes bytes, unless there is nothing of it. -/
theorem emit_operand (h : machine.step .operand input = .emit e t n) :
    t.IsValid ∧ (0 < n ∨ (e = .operand emptyOperand ∧ t = .done)) := by
  obtain ⟨operand, rfl, rfl⟩ | ⟨type, value, length, rfl, rfl, hopens, rfl⟩ :=
    step_operand_eq_emit h
  · obtain ⟨-, -, rfl⟩ := step_operand_eq_operand_iff.1 h
    cases input with
    | nil =>
      cases h
      exact ⟨trivial, .inr ⟨rfl, rfl⟩⟩
    | cons b input => exact ⟨trivial, .inl (Nat.succ_pos _)⟩
  · refine ⟨Nat.sub_pos_of_lt hopens.lt, .inl (List.length_pos_iff.2 ?_)⟩
    cases hopens with
    | mk => simp [Element.countedHead]

/-- The rest of an operand may stand in front of anything. -/
def operandRest : Rest State Event where
  piece := .piece
  next := .done
  within := .within
  Ends _ := True

/-- The rest of an operand is read like the rest of any value. -/
theorem readsRest_operand : machine.ReadsRest operandRest :=
  .of_unended (fun _ _ => rfl) (fun _ => trivial) fun _ _ => rfl

/-- Each further part of an operand takes bytes. -/
theorem emit_within (hpos : 0 < missing) (h : machine.step (.within missing) input = .emit e t n) :
    t.IsValid ∧ 0 < n := by
  have hstep : machine.step (operandRest.within missing) input = .emit e t n := h
  exact readsRest_operand.advances trivial (fun _ => id) hpos hstep

/-- Behind the operand there is nothing but the end. -/
theorem emit_done (h : machine.step .done input = .emit e t n) : e = .finish ∧ t = .done := by
  cases input with
  | nil =>
    cases h
    exact ⟨rfl, rfl⟩
  | cons b input => cases h

/-- Every unit of an update takes bytes, but for the end and an empty operand. -/
theorem emit_of_step (hs : s.IsValid) (h : machine.step s input = .emit e t n) :
    t.IsValid ∧ (0 < n ∨ e = .finish ∨ (e = .operand emptyOperand ∧ t = .done)) := by
  cases s with
  | path state => exact (emit_path hs h).imp_right .inl
  | operator =>
    obtain ⟨-, rfl, hoper⟩ := eq_operator_of_scan (Step.ofScan_eq_emit_iff.1 h)
    exact ⟨trivial, .inl hoper⟩
  | operand => exact (emit_operand h).imp_right fun hpos => hpos.imp_right .inr
  | within missing => exact (emit_within hs h).imp_right .inl
  | done =>
    obtain ⟨rfl, rfl⟩ := emit_done h
    exact ⟨trivial, .inr (.inl rfl)⟩

/-! ### Waiting -/

/-- A parser that waits in the path, or behind it, waits in the same place when called again. -/
theorem wait_path {state : Path.State} (hs : state.IsValid)
    (h : machine.step (.path state) input = .wait t n) :
    t.IsValid ∧ machine.step t (input.drop n) = .wait t 0 := by
  have hread : readPath state input = .wait t n := h
  rw [readPath] at hread
  cases hstep : Path.step true state input with
  | fault f => rw [hstep] at hread; cases hread
  | wait state' used =>
    rw [hstep] at hread
    cases hread
    obtain ⟨hvalid, hagain⟩ := Path.wait_of_step hs hstep
    refine ⟨hvalid, ?_⟩
    show readPath state' _ = _
    rw [readPath, hagain]
  | emit unit state' used =>
    rw [hstep] at hread
    cases unit with
    | piece piece => cases hread
    | finish =>
      -- the path has ended, and the operator is waited for
      obtain ⟨j, hj, rfl⟩ := Step.shift_eq_wait_iff.1 hread
      obtain ⟨-, rfl, rfl⟩ := Step.ofScan_eq_wait_iff.1 hj
      exact ⟨trivial, hj⟩

/-- A parser that waits does so again with no bytes more. -/
theorem wait_of_step (hs : s.IsValid) (h : machine.step s input = .wait t n) :
    t.IsValid ∧ machine.step t (input.drop n) = .wait t 0 := by
  cases s with
  | path state => exact wait_path hs h
  | operator =>
    obtain ⟨-, rfl, rfl⟩ := Step.ofScan_eq_wait_iff.1 h
    exact ⟨trivial, h⟩
  | operand =>
    obtain ⟨-, rfl, rfl⟩ := Step.ofScan_eq_wait_iff.1 h
    exact ⟨trivial, h⟩
  | within missing =>
    obtain ⟨-, rfl, rfl⟩ := Step.ofScan_eq_wait_iff.1 h
    exact ⟨hs, h⟩
  | done => exact absurd h step_done_ne_wait

/-! ### Progress -/

/-- The parser of updates makes progress with every unit but the end and an operand of which nothing
    is there. -/
theorem advances_machine :
    machine.Advances State.IsValid fun e => e = .finish ∨ e = .operand emptyOperand where
  isBounded := isBounded_machine
  restart _ := trivial
  emit hs h := (emit_of_step hs h).imp_right fun hpos => hpos.imp_right fun hstill =>
    hstill.imp_right And.left
  wait hs h := wait_of_step hs h
  still hs h hne hnext := by
    obtain ⟨-, hpos | rfl | ⟨-, rfl⟩⟩ := emit_of_step hs h
    · exact absurd hpos (Nat.lt_irrefl 0)
    · cases hne
    · rw [(emit_done hnext).1]
      rfl

/-! ### Behind the operand -/

/-- A whole operand is the last thing in an update. -/
theorem eq_done_of_operand {operand : Element}
    (h : machine.step s input = .emit (.operand operand) t n) : t = .done := by
  cases s with
  | operator =>
    obtain ⟨⟨oper, he⟩, -⟩ := eq_operator_of_scan (Step.ofScan_eq_emit_iff.1 h)
    cases he
  | done =>
    obtain ⟨he, -⟩ := emit_done h
    cases he
  | operand =>
    obtain ⟨_, -, rfl⟩ | ⟨_, _, _, he, -⟩ := step_operand_eq_emit h
    · rfl
    · cases he
  | within missing =>
    have hstep : machine.step (operandRest.within missing) input = .emit (.operand operand) t n := h
    obtain ⟨text, behind, hunit, -⟩ := readsRest_operand.emit_iff.1 hstep
    generalize he : Event.operand operand = e at hunit
    cases hunit <;> cases he
  | path state =>
    obtain ⟨_, _, -, he, -⟩ | ⟨_, _, _, -, hscan, -⟩ := step_path_emit_cases h
    · cases he
    · obtain ⟨⟨oper, he⟩, -⟩ := eq_operator_of_scan hscan
      cases he

/-- Behind the operand nothing comes but the end, whatever buffer is read on. -/
theorem eq_finish_of_reads (hq : p.state = .done) (h : Reads buffer p es q) :
    ∀ e ∈ es, e = .finish := by
  induction h with
  | refl => nofun
  | @step p r q e es hparse _ ih =>
    obtain ⟨input, n, hstep⟩ := exists_step_of_event hparse
    rw [hq] at hstep
    obtain ⟨rfl, hr⟩ := emit_done hstep
    exact List.forall_mem_cons.2 ⟨rfl, ih hr⟩

/-- So whatever comes of later buffers, it is nothing but the end. -/
theorem eq_finish_behind_operand {operand : Element} {r : Parser machine} {later : Bytes}
    (h : p.parse buffer = (.event (.operand operand), q)) (hreads : Reads later q es r) :
    ∀ e ∈ es, e = .finish := by
  obtain ⟨input, n, hstep⟩ := exists_step_of_event h
  exact eq_finish_of_reads (eq_done_of_operand hstep) hreads

end PacketWire.Update
