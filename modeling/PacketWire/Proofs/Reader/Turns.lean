import PacketWire.Reader.Basic

namespace PacketWire.Reader

open Packet

/-!
# The turns of a reader

A call for the next packet makes one turn after the other, each of them a call of the parser, until
there is something to give (`turn`, `nextWithin_succ`). What a turn comes to is told by the answer
of the parser, and for a unit by the length that it announces (`turns_turn`).
-/

/-- One turn of the loop: what the call gives, or the reader that the loop goes on with. -/
def turn (r : Reader) : (Result × Reader) ⊕ Reader :=
  let (answer, parser) := r.parser.parse r.buffer
  let read := { r with parser }
  match answer with
  | .more => .inl (.ok none, read.dropRead)
  | .fault f => .inl (.error (.malformed f), read.clear)
  | .event .complete =>
    .inl (.ok (some r.incoming.packet), { read.dropRead with incoming := {} })
  | .event e =>
    match r.excess? e with
    | some length =>
      .inl (.error (.valueTooLarge length r.maxValue), { read.clear with parser := parser.reset })
    | none => .inr { read with incoming := r.incoming.apply e }

/-- What a turn can come to, from the answer of the parser. -/
inductive Turns (r : Reader) : (Result × Reader) ⊕ Reader → Prop where
  /-- The parser asks for more. -/
  | more {q : Parser machine} :
      r.parser.parse r.buffer = (.more, q) →
        Turns r (.inl (.ok none, { r with parser := q }.dropRead))
  /-- The parser meets a fault. -/
  | malformed {f : Fault Cause} {q : Parser machine} :
      r.parser.parse r.buffer = (.fault f, q) →
        Turns r (.inl (.error (.malformed f), { r with parser := q }.clear))
  /-- The packet is complete. -/
  | complete {q : Parser machine} :
      r.parser.parse r.buffer = (.event .complete, q) →
        Turns r (.inl (.ok (some r.incoming.packet),
          { { r with parser := q }.dropRead with incoming := {} }))
  /-- A value is too large. -/
  | tooLarge {e : Event} {q : Parser machine} {length : Nat} :
      r.parser.parse r.buffer = (.event e, q) → e ≠ .complete →
        e.announces? = some length → r.maxValue < length →
        Turns r (.inl (.error (.valueTooLarge length r.maxValue),
          { { r with parser := q }.clear with parser := q.reset }))
  /-- A unit is noted, and the loop goes on. -/
  | unit {e : Event} {q : Parser machine} :
      r.parser.parse r.buffer = (.event e, q) → e ≠ .complete →
        (∀ length, e.announces? = some length → length ≤ r.maxValue) →
        Turns r (.inr { r with parser := q, incoming := r.incoming.apply e })

variable {r r' : Reader} {e : Event} {f : Fault Cause} {q : Parser machine} {length : Nat}

/-! ### One turn -/

/-- A unit is too large if it announces more than the limit. -/
theorem excess?_eq_some_iff :
    r.excess? e = some length ↔ e.announces? = some length ∧ r.maxValue < length := by
  rw [excess?, Option.filter_eq_some_iff, decide_eq_true_iff]

/-- A unit is not too large if all it announces is within the limit. -/
theorem excess?_eq_none_iff :
    r.excess? e = none ↔ ∀ length, e.announces? = some length → length ≤ r.maxValue := by
  simp only [excess?, Option.filter_eq_none_iff, decide_eq_true_iff, Nat.not_lt]

/-- Where the parser needs more, the call gives nothing yet. -/
theorem turn_of_more (hparse : r.parser.parse r.buffer = (.more, q)) :
    r.turn = .inl (.ok none, { r with parser := q }.dropRead) := by
  rw [turn, hparse]

/-- Where the parser fails, the call gives the fault and the reader starts over. -/
theorem turn_of_fault (hparse : r.parser.parse r.buffer = (.fault f, q)) :
    r.turn = .inl (.error (.malformed f), { r with parser := q }.clear) := by
  rw [turn, hparse]

/-- Where a packet ends, the call gives it. -/
theorem turn_of_complete (hparse : r.parser.parse r.buffer = (.event .complete, q)) :
    r.turn = .inl (.ok (some r.incoming.packet),
      { { r with parser := q }.dropRead with incoming := {} }) := by
  rw [turn, hparse]

/-- A unit that announces a length beyond the limit ends the call. -/
theorem turn_of_tooLarge (hparse : r.parser.parse r.buffer = (.event e, q))
    (hlength : e.announces? = some length) (hlt : r.maxValue < length) :
    r.turn = .inl (.error (.valueTooLarge length r.maxValue),
      { { r with parser := q }.clear with parser := q.reset }) := by
  have hexcess := excess?_eq_some_iff.2 ⟨hlength, hlt⟩
  rw [turn, hparse]
  cases e with
  | complete => cases hlength
  | _ => simp only [hexcess]

/-- The loop goes on behind a unit that announces no length beyond the limit. -/
theorem turn_of_unit (hparse : r.parser.parse r.buffer = (.event e, q)) (hne : e ≠ .complete)
    (hfits : ∀ length, e.announces? = some length → length ≤ r.maxValue) :
    r.turn = .inr { r with parser := q, incoming := r.incoming.apply e } := by
  have hexcess := excess?_eq_none_iff.2 hfits
  rw [turn, hparse]
  cases e with
  | complete => exact absurd rfl hne
  | _ => simp only [hexcess]

/-- A turn is one of these, or it takes up a unit. -/
theorem turns_turn (r : Reader) : r.Turns r.turn := by
  cases hparse : r.parser.parse r.buffer with
  | mk answer q =>
    cases answer with
    | more =>
      rw [turn_of_more hparse]
      exact .more hparse
    | fault f =>
      rw [turn_of_fault hparse]
      exact .malformed hparse
    | event e =>
      by_cases hcomplete : e = .complete
      · subst hcomplete
        rw [turn_of_complete hparse]
        exact .complete hparse
      · cases hexcess : r.excess? e with
        | some length =>
          obtain ⟨hlength, hlt⟩ := excess?_eq_some_iff.1 hexcess
          rw [turn_of_tooLarge hparse hlength hlt]
          exact .tooLarge hparse hcomplete hlength hlt
        | none =>
          have hfits := excess?_eq_none_iff.1 hexcess
          rw [turn_of_unit hparse hcomplete hfits]
          exact .unit hparse hcomplete hfits

/-- The loop goes on behind a unit. -/
theorem exists_event_of_turn (h : r.turn = .inr r') :
    ∃ e parser, r.parser.parse r.buffer = (.event e, parser) ∧
      r' = { r with parser, incoming := r.incoming.apply e } := by
  have hturns := turns_turn r
  rw [h] at hturns
  cases hturns with
  | unit hparse => exact ⟨_, _, hparse, rfl⟩

/-! ### A call -/

/-- A call that makes so many turns makes one, and the others behind it. -/
theorem nextWithin_succ (r : Reader) (calls : Nat) :
    r.nextWithin (calls + 1) =
      match r.turn with
      | .inl given => given
      | .inr r' => r'.nextWithin calls := by
  rw [nextWithin, turn]
  cases r.parser.parse r.buffer with
  | mk answer parser =>
    cases answer with
    | more => rfl
    | fault f => rfl
    | event e =>
      cases hexcess : r.excess? e with
      | some length => cases e <;> simp only [hexcess]
      | none => cases e <;> simp only [hexcess]

/-- A turn that gives something ends the call. -/
theorem nextWithin_of_inl {given : Result × Reader} (h : r.turn = .inl given) (calls : Nat) :
    r.nextWithin (calls + 1) = given := by
  rw [nextWithin_succ, h]

/-- After any other turn the call goes on. -/
theorem nextWithin_of_inr (h : r.turn = .inr r') (calls : Nat) :
    r.nextWithin (calls + 1) = r'.nextWithin calls := by
  rw [nextWithin_succ, h]

end PacketWire.Reader
