import PacketWire.Proofs.Packet.RoundTrip

namespace PacketWire.Packet

/-!
# The packets that are accepted

The grammar tells of `text` whether it is a packet at all, and a parser of whole packets gets to the
end of a packet after just these texts: it accepts no others (`Spelled.of_finishes`), and refuses
none (`Spelled.finishes`). What a text stands for is not a matter of choice either
(`Spelled.unique`), so the events in front of the end are those of the one packet that is spelled.
-/

variable {buffer text : Bytes} {es : List Event} {n : Nat}

/-- A text spells one packet at most. -/
theorem Spelled.unique {p p' : Received} (h : Spelled p text) (h' : Spelled p' text) : p = p' := by
  have hparses : (State.initial .whole).Parses text [] p.units :=
    State.parses_whole_iff.2 ⟨p, h, rfl⟩
  have hparses' : (State.initial .whole).Parses text [] p'.units :=
    State.parses_whole_iff.2 ⟨p', h', rfl⟩
  obtain ⟨-, hunits⟩ := State.parses_unique hparses hparses' rfl
  -- the packet can be put together from its units again
  have hfold := Incoming.foldl_units h.data_eq_nil
  rw [hunits, Incoming.foldl_units h'.data_eq_nil] at hfold
  injection hfold with hp
  exact hp.symm

/-- What comes in front of the end of a packet is a packet. -/
theorem Spelled.of_finishes {q : Parser machine}
    (h : Parser.Finishes buffer (parser .whole) es .complete q) :
    q.cursor ≤ buffer.length ∧ ∃ p, Spelled p (buffer.take q.cursor) ∧ es = p.units := by
  obtain ⟨text, rest, rfl, hn, hparses⟩ := finishes_iff.1 ⟨q, h, rfl⟩
  rw [hn, List.length_append, List.take_left]
  exact ⟨Nat.le_add_right .., State.parses_whole_iff.1 hparses⟩

/-- A parser of whole packets gets to the end of the first packet of a buffer after `n` bytes, and
    has given these units before, if and only if the first `n` bytes are a way to write the packet
    that has these units; and they are no way to write another one. -/
theorem finishes_iff_spelled :
    (∃ q, Parser.Finishes buffer (parser .whole) es .complete q ∧ q.cursor = n) ↔
      n ≤ buffer.length ∧ ∃ p, Spelled p (buffer.take n) ∧ es = p.units ∧
        ∀ p', Spelled p' (buffer.take n) → p' = p := by
  constructor
  · rintro ⟨q, hq, rfl⟩
    obtain ⟨hn, p, hp, hes⟩ := Spelled.of_finishes hq
    exact ⟨hn, p, hp, hes, fun p' hp' => hp'.unique hp⟩
  · rintro ⟨hn, p, hp, rfl, -⟩
    obtain ⟨q, hq, hcursor⟩ := hp.finishes (buffer.drop n)
    rw [List.take_append_drop] at hq
    refine ⟨q, hq, ?_⟩
    rw [hcursor, List.length_take, Nat.min_eq_left hn]

end PacketWire.Packet
