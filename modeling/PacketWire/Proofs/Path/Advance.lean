import PacketWire.Proofs.Path.Resume
import PacketWire.Proofs.Resumable.Progress

namespace PacketWire.Path

open Scan Machine

/-!
# Progress in paths

Each step of a path starts with a byte of its own, and of a key that is cut some bytes are missing;
only the end takes none. So it is whether the path stands by itself or in front of something else
(`emit_of_step`, `wait_of_step`).
-/

variable {embedded : Bool} {s t : State} {input text rest : Bytes} {e : Event} {missing n : Nat}

/-- Some bytes are missing of a key that was cut. -/
def State.IsValid : State → Prop
  | keyWithin missing => 0 < missing
  | _ => True

/-- Every unit of a path has a byte, but for the end. -/
theorem Unit.pos_or_finish (h : Unit embedded text rest e t) :
    t.IsValid ∧ (0 < text.length ∨ e = .finish) := by
  cases h with
  | segment hspelled =>
    obtain ⟨b, tail, rfl, -⟩ := hspelled.starts
    exact ⟨trivial, .inl (Nat.succ_pos _)⟩
  | keyOpening _ hlt => exact ⟨Nat.sub_pos_of_lt hlt, .inl (Nat.succ_pos _)⟩
  | finish => exact ⟨trivial, .inr rfl⟩
  | finishEmbedded => exact ⟨trivial, .inr rfl⟩

/-- So a step of the path takes bytes, or is the end. -/
theorem emit_segment (h : step embedded .segment input = .emit e t n) :
    t.IsValid ∧ (0 < n ∨ e = .finish) := by
  obtain ⟨text, rest, hunit, -, rfl⟩ := scanSegment_eq_done_iff.1 (Step.ofScan_eq_emit_iff.1 h)
  exact hunit.pos_or_finish

/-- Each further part of a key takes bytes. -/
theorem emit_keyWithin (hpos : 0 < missing)
    (h : step embedded (.keyWithin missing) input = .emit e t n) :
    t.IsValid ∧ 0 < n := by
  -- the rest of a key is read in the same way wherever the path stands
  have hstep : machine.step (keyRest.within missing) input = .emit e t n := h
  exact readsRest_key.advances trivial (fun _ => id) hpos hstep

/-- Every unit of a path takes bytes, but for the end. -/
theorem emit_of_step (hs : s.IsValid) (h : step embedded s input = .emit e t n) :
    t.IsValid ∧ (0 < n ∨ e = .finish) := by
  cases s with
  | segment => exact emit_segment h
  | keyWithin missing => exact (emit_keyWithin hs h).imp_right .inl
  | keyEnd =>
    cases input with
    | nil => cases h
    | cons b input =>
      by_cases hb : b = Byte.closeBrace
      · rw [hb, step_keyEnd_closeBrace] at h
        obtain ⟨j, hj, rfl⟩ := Step.shift_eq_emit_iff.1 h
        exact ⟨(emit_segment hj).1, .inl (Nat.lt_add_right j Nat.one_pos)⟩
      · rw [step_keyEnd_of_ne hb] at h
        cases h

/-- A path waits for bytes behind those that it has taken, and for nothing else. -/
theorem wait_of_step (hs : s.IsValid) (h : step embedded s input = .wait t n) :
    t.IsValid ∧ step embedded t (input.drop n) = .wait t 0 := by
  cases s with
  | segment =>
    obtain ⟨-, rfl, rfl⟩ := Step.ofScan_eq_wait_iff.1 h
    exact ⟨trivial, h⟩
  | keyWithin missing =>
    obtain ⟨-, rfl, rfl⟩ := Step.ofScan_eq_wait_iff.1 h
    exact ⟨hs, h⟩
  | keyEnd =>
    cases input with
    | nil =>
      cases h
      exact ⟨trivial, rfl⟩
    | cons b input =>
      -- Behind the brace of a key it is the next step of the path that waits.
      by_cases hb : b = Byte.closeBrace
      · rw [hb, step_keyEnd_closeBrace] at h
        obtain ⟨j, hj, rfl⟩ := Step.shift_eq_wait_iff.1 h
        obtain ⟨-, rfl, rfl⟩ := Step.ofScan_eq_wait_iff.1 hj
        exact ⟨trivial, hj⟩
      · rw [step_keyEnd_of_ne hb] at h
        cases h

/-- The parser of paths makes progress with every unit but the end. -/
theorem advances_machine : machine.Advances State.IsValid (· = .finish) :=
  .of_isFinal isBounded_machine (fun _ => trivial) (fun hs h => emit_of_step hs h)
    (fun hs h => wait_of_step hs h) (by rintro e rfl; rfl)

end PacketWire.Path
