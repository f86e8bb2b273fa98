import PacketWire.Proofs.Resumable.Growth
import PacketWire.Resumable

namespace PacketWire.Parser

/-!
# Calls of a parser

A call is a step at the cursor (`parse_of_le`), and calls in a row are taken apart one by one
(`reads_cons_iff`).
-/

variable {σ ε κ : Type} {m : Machine σ ε κ} {p q : Parser m} {buffer : Bytes} {event : ε}
  {events : List ε}

theorem parse_of_le (hc : p.cursor ≤ buffer.length) :
    p.parse buffer =
      p.answer ((m.step p.state (buffer.drop p.cursor)).shift p.cursor) := by
  rw [parse, Nat.min_eq_left hc]

/-- A call gives a unit where the step at the cursor does. -/
theorem parse_eq_event_iff (hc : p.cursor ≤ buffer.length) :
    p.parse buffer = (.event event, q) ↔
      ∃ t n, m.step p.state (buffer.drop p.cursor) = .emit event t n ∧ q = ⟨t, p.cursor + n⟩ := by
  rw [parse_of_le hc]
  cases m.step p.state (buffer.drop p.cursor) with
  | wait t n => simp [Step.shift, answer]
  | fault f => simp [Step.shift, answer]
  | emit e t n =>
    constructor
    · intro h
      cases h
      exact ⟨t, n, rfl, rfl⟩
    · rintro ⟨t', n', ht, rfl⟩
      cases ht
      rfl

/-- Wherever the cursor is, a unit is one of a step. -/
theorem exists_step_of_event (h : p.parse buffer = (.event event, q)) :
    ∃ input n, m.step p.state input = .emit event q.state n := by
  rw [parse] at h
  cases hstep : m.step p.state (buffer.drop (min p.cursor buffer.length)) with
  | wait t n => rw [hstep] at h; cases h
  | fault f => rw [hstep] at h; cases h
  | emit e t n =>
    rw [hstep] at h
    cases h
    exact ⟨_, n, hstep⟩

/-- A call asks for more input where the step at the cursor does. -/
theorem parse_eq_more_iff (hc : p.cursor ≤ buffer.length) :
    p.parse buffer = (.more, q) ↔
      ∃ t n, m.step p.state (buffer.drop p.cursor) = .wait t n ∧ q = ⟨t, p.cursor + n⟩ := by
  rw [parse_of_le hc]
  cases m.step p.state (buffer.drop p.cursor) with
  | emit e t n => simp [Step.shift, answer]
  | fault f => simp [Step.shift, answer]
  | wait t n =>
    constructor
    · intro h
      cases h
      exact ⟨t, n, rfl, rfl⟩
    · rintro ⟨t', n', ht, rfl⟩
      cases ht
      rfl

/-- A parser that meets a fault starts over. -/
theorem eq_reset_of_fault {f : Fault κ} (h : p.parse buffer = (.fault f, q)) : q = p.reset := by
  have hanswer : ∀ s : Step σ ε κ, p.answer s = (.fault f, q) → q = p.reset := by
    intro s hs
    cases s <;> cases hs
    rfl
  exact hanswer _ h

theorem reads_nil_iff : Reads buffer p [] q ↔ q = p := by
  constructor
  · intro h
    cases h
    rfl
  · rintro rfl
    exact .refl q

theorem reads_cons_iff :
    Reads buffer p (event :: events) q ↔
      ∃ r, p.parse buffer = (.event event, r) ∧ Reads buffer r events q := by
  constructor
  · intro h
    cases h with
    | step hparse h => exact ⟨_, hparse, h⟩
  · rintro ⟨r, hparse, h⟩
    exact .step hparse h

end PacketWire.Parser
