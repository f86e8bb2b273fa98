import PacketWire.Proofs.Reader.Reachable

namespace PacketWire.Reader

open Packet PacketWire.Parser

/-!
# The loop of a reader

A turn that the loop of a call goes on behind has read a unit, and taken bytes (`advances_of_turn`);
so the loop comes to an end within the bytes that are there, and gives what the call gives
(`Reachable.loops_next`).
-/

/-- The loop comes to an end and gives this; it may make any number of turns. -/
inductive Loops : Reader → Result × Reader → Prop where
  /-- The call gives something. -/
  | ends {r : Reader} {given : Result × Reader} : r.turn = .inl given → Loops r given
  /-- The loop goes on. -/
  | goesOn {r r' : Reader} {given : Result × Reader} :
      r.turn = .inr r' → Loops r' given → Loops r given

variable {mode : ModeBits} {max calls : Nat} {r r' : Reader}

/-- A turn that the loop goes on behind has taken bytes. -/
theorem advances_of_turn (hs : r.parser.state.IsValid) (hc : r.parser.cursor ≤ r.buffer.length)
    (h : r.turn = .inr r') :
    r'.parser.state.IsValid ∧ r'.buffer = r.buffer ∧ r.parser.cursor < r'.parser.cursor ∧
      r'.parser.cursor ≤ r.buffer.length := by
  obtain ⟨e, parser, hparse, rfl⟩ := exists_event_of_turn h
  obtain ⟨t, n, hstep, rfl⟩ := (parse_eq_event_iff hc).1 hparse
  have hsends := hs.sends_of_step hstep
  have hn := isBounded_machine.emit hstep
  have hpos := hsends.pos
  rw [List.length_drop] at hn
  exact ⟨hsends.isValid, rfl, show _ < _ + n by omega, show _ + n ≤ _ by omega⟩

/-- The loop makes no more turns than there are bytes ahead, and one. -/
theorem loops_nextWithin (hs : r.parser.state.IsValid) (hc : r.parser.cursor ≤ r.buffer.length)
    (hcalls : r.buffer.length < r.parser.cursor + calls) : r.Loops (r.nextWithin calls) := by
  induction calls generalizing r with
  | zero => omega
  | succ calls ih =>
    rw [nextWithin_succ]
    cases hturn : r.turn with
    | inl given => exact .ends hturn
    | inr r' =>
      obtain ⟨hs', hbuffer, hlt, hle⟩ := advances_of_turn hs hc hturn
      exact .goesOn hturn (ih hs' (hbuffer ▸ hle) (by rw [hbuffer]; omega))

/-- Whatever a reader was fed and asked for, the loop of a call comes to an end. -/
theorem Reachable.loops_next (h : Reachable mode max r) : r.Loops r.next := by
  obtain ⟨s, a, buffer, rfl, htracks⟩ := h.tracks
  refine loops_nextWithin htracks.isValid (Nat.zero_le _) ?_
  show buffer.length < 0 + (buffer.length + 1)
  omega

end PacketWire.Reader
