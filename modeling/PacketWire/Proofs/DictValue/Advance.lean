import PacketWire.Proofs.DictValue.Resume
import PacketWire.Proofs.Resumable.Progress

namespace PacketWire.DictValue

open Scan Machine

/-!
# Progress in dicts

Each unit of a dict takes bytes: a default type is not empty, a key stands behind its opening brace
and a value behind the closing one, and of a key or a value that is cut some bytes are missing. Only
the end takes none (`advances_machine`).
-/

variable {s t : State} {input : Bytes} {e : Event} {n : Nat}

/-- Some bytes are missing of a key or a value that was cut. -/
def State.IsValid : State → Prop
  | keyWithin missing => 0 < missing
  | valueWithin missing => 0 < missing
  | _ => True

theorem emit_key (h : machine.step .key input = .emit e t n) :
    t.IsValid ∧ (0 < n ∨ e = .finish) := by
  obtain ⟨text, rest, hunit, rfl, rfl⟩ := step_key_eq_emit_iff.1 h
  cases hunit with
  | key => exact ⟨trivial, .inl (Nat.succ_pos _)⟩
  | opening _ hlt => exact ⟨Nat.sub_pos_of_lt hlt, .inl (Nat.succ_pos _)⟩
  | finish => exact ⟨trivial, .inr rfl⟩

theorem emit_value (h : machine.step .value input = .emit e t n) : t.IsValid ∧ 0 < n := by
  cases input with
  | nil => cases h
  | cons b input =>
    obtain ⟨text, rest, hunit, -, rfl⟩ := hasSlot.step_eq_emit_iff.1 h
    exact hunit.advances trivial fun _ => id

/-- What is waited in is a valid state. -/
theorem isValid_of_wait (hs : s.IsValid) (h : machine.step s input = .wait t n) : t.IsValid := by
  cases s with
  | keyWithin missing =>
    obtain ⟨-, rfl, -⟩ := readsRest_key.wait_iff.1 h
    exact hs
  | valueWithin missing =>
    obtain ⟨-, rfl, -⟩ := hasSlot.readsRest.wait_iff.1 h
    exact hs
  | type =>
    obtain ⟨-, rfl, -⟩ := Step.ofScan_eq_wait_iff.1 h
    trivial
  | key =>
    obtain ⟨-, rfl, -⟩ := Step.ofScan_eq_wait_iff.1 h
    trivial
  | value =>
    obtain ⟨-, rfl, -⟩ := Step.ofScan_eq_wait_iff.1 h
    trivial

/-- The parser of dicts makes progress with every unit but the end. -/
theorem advances_machine : machine.Advances State.IsValid (· = .finish) := by
  refine .of_isFinal isBounded_machine (fun _ => trivial) (fun {s t input e n} hs h => ?_)
    (fun {s t input n} hs h => ⟨isValid_of_wait hs h, wait_again h ((resumes_machine s).wait h).2⟩)
    (by rintro e rfl; rfl)
  cases s with
  | type =>
    obtain ⟨rfl, hpos⟩ | h := startsTyped.emit_cases h
    · exact ⟨trivial, .inl hpos⟩
    · exact emit_key h
  | key => exact emit_key h
  | keyWithin missing => exact (readsRest_key.advances trivial (fun _ => id) hs h).imp_right .inl
  | value => exact (emit_value h).imp_right .inl
  | valueWithin missing =>
    exact (hasSlot.readsRest.advances trivial (fun _ => id) hs h).imp_right .inl

end PacketWire.DictValue
