import PacketWire.Proofs.Packet.Parses
import PacketWire.Proofs.Reader.Chunks

namespace PacketWire

/-!
# Streams of packets

Packets that are written one behind the other make a stream, and a reader gives just these packets,
in whatever chunks the stream comes (`Reader.receive_of_series`). Afterwards it is as it was at the
start.
-/

namespace Packet.State

variable {s t : State} {text rest more : Bytes} {e : Event} {es : List Event}

/-- No value comes in parts in what is read up to the end of a packet. -/
theorem IsValid.announces?_eq_none (hs : s.IsValid)
    (hstep : step s (text ++ (rest ++ more)) = .emit e t text.length)
    (h : t.Parses rest more es) : e.announces? = none := by
  refine Option.eq_none_iff_forall_ne_some.2 fun length hann => ?_
  have hopen := (hs.sends_of_step hstep).hasOpen hann
  -- the value has taken all bytes, but it is not complete
  obtain ⟨go, hg⟩ := growth_eq_some_iff.2 hopen
  obtain ⟨hall, -⟩ := (continues_step s _).cut hstep hg
  obtain ⟨rfl, rfl⟩ : rest = [] ∧ more = [] := by
    simpa using hall
  exact not_parses_of_open hopen h

end Packet.State

namespace Reader

open Packet

variable {max : Nat} {s : State} {a : Incoming} {text rest stream : Bytes} {es : List Event}
  {packets : List Received} {ending : Ending} {chunks : List Bytes} {spelling : Spelling Received}

/-- A packet in front of what is yielded behind it. -/
theorem Yields.of_parses (hs : s.IsValid) (h : s.Parses text rest es)
    (hrest : Yields max (.initial s.mode) {} rest packets ending) :
    Yields max s a (text ++ rest) ((es.foldl Incoming.apply a).packet :: packets) ending := by
  induction h generalizing a with
  | complete hreads =>
    refine .complete (step_of_reads hreads) ?_
    rw [hreads.eq_initial, List.drop_left]
    exact hrest
  | @move s t text text' rest es hm _ ih =>
    rw [List.append_assoc]
    refine Yields.shift (n := text.length) (t := t) ?_ ?_
    · rw [step_of_moves hm, List.drop_left]
    · rw [List.drop_left]
      exact ih (hs.moves hm) (hm.mode_eq ▸ hrest)
  | @unit s t text text' rest e es hne hreads h ih =>
    rw [List.append_assoc]
    have hstep := step_of_reads hreads
    -- The packet ends, so no unit leaves a value open, and what is whole announces no length.
    refine .unit hstep hne (fun length hann => ?_) ?_
    · rw [hs.announces?_eq_none hstep h] at hann
      cases hann
    · rw [List.drop_left]
      exact ih (hs.sends_of_step hstep).isValid (hreads.mode_eq ▸ hrest)

/-- The packets that are written by a spelling are parsed by a parser for a mode, and put together
    from their units. -/
structure Parsable (mode : Mode) (spelling : Spelling Received) : Prop where
  /-- A packet is parsed up to its end, whatever comes behind it. -/
  parses : ∀ {p text}, spelling p text → ∀ rest, (State.initial mode).Parses text rest p.units
  /-- The units tell the packet. -/
  units : ∀ {p text}, spelling p text → (p.units.foldl Incoming.apply {}).packet = p

theorem Yields.of_series {mode : ModeBits} (hspelling : Parsable (.ofBits mode) spelling)
    (h : Series spelling packets stream) :
    Yields max (.initial (.ofBits mode)) {} stream packets
      (.more (.initial (.ofBits mode)) {} []) := by
  have hidle := idle_initial mode
  induction h with
  | nil => exact .more hidle.waits
  | @cons p packets text stream hp _ ih =>
    have hone := Yields.of_parses (a := {}) hidle.isValid (hspelling.parses hp stream) ih
    rw [hspelling.units hp] at hone
    exact hone

/-- A stream of packets gives these packets. -/
theorem receive_of_series {mode : ModeBits} (hspelling : Parsable (.ofBits mode) spelling)
    (h : Series spelling packets chunks.flatten) (hmax : chunks.flatten.length ≤ max) :
    (start mode max).receive chunks = ⟨packets, .ok (start mode max)⟩ := by
  obtain ⟨ending, hyields, hshows⟩ :=
    @receive_yields max _ _ [] chunks (idle_initial mode) (.inl hmax)
  obtain ⟨hpackets, rfl⟩ := yields_unique hyields (.of_series hspelling h)
  generalize hr : (waiting max (.initial (.ofBits mode)) {} []).receive chunks = r at *
  obtain ⟨packets', last⟩ := r
  obtain rfl := hpackets
  cases hshows
  exact hr

end Reader

end PacketWire
