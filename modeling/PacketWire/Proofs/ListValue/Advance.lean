import PacketWire.Proofs.ListValue.Accepts
import PacketWire.Proofs.Resumable.Progress

namespace PacketWire.ListValue

open Scan Machine

/-!
# Progress in lists

Each unit of a list takes bytes: a default type is not empty, an element stands behind its `|`, and
of a value that is cut some bytes are missing. Only the end takes none (`advances_machine`).
-/

variable {s t : State} {input : Bytes} {e : Event} {n : Nat}

/-- Some bytes are missing of a value that was cut. -/
def State.IsValid : State → Prop
  | within missing => 0 < missing
  | _ => True

theorem emit_elements (h : machine.step .elements input = .emit e t n) :
    t.IsValid ∧ (0 < n ∨ e = .finish) := by
  obtain ⟨rfl, rfl, rfl, rfl⟩ | ⟨text, rest, hunit, rfl, rfl⟩ := step_elements_eq_emit_iff.1 h
  · exact ⟨trivial, .inr rfl⟩
  · exact (hunit.advances trivial fun _ => id).imp_right .inl

/-- What is waited in is a valid state. -/
theorem isValid_of_wait (hs : s.IsValid) (h : machine.step s input = .wait t n) : t.IsValid := by
  cases s with
  | within missing =>
    obtain ⟨-, rfl, -⟩ := hasSlot.readsRest.wait_iff.1 h
    exact hs
  | type =>
    obtain ⟨-, rfl, -⟩ := Step.ofScan_eq_wait_iff.1 h
    trivial
  | elements =>
    obtain ⟨-, rfl, -⟩ := Step.ofScan_eq_wait_iff.1 h
    trivial

/-- The parser of lists makes progress with every unit but the end. -/
theorem advances_machine : machine.Advances State.IsValid (· = .finish) := by
  refine .of_isFinal isBounded_machine (fun _ => trivial) (fun {s t input e n} hs h => ?_)
    (fun {s t input n} hs h => ⟨isValid_of_wait hs h, wait_again h ((resumes_machine s).wait h).2⟩)
    (by rintro e rfl; rfl)
  cases s with
  | type =>
    obtain ⟨rfl, hpos⟩ | h := startsTyped.emit_cases h
    · exact ⟨trivial, .inl hpos⟩
    · exact emit_elements h
  | elements => exact emit_elements h
  | within missing =>
    exact (hasSlot.readsRest.advances trivial (fun _ => id) hs h).imp_right .inl

end PacketWire.ListValue
