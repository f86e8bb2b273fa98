import PacketWire.Proofs.Packet.Relay
import PacketWire.Proofs.Packet.RoundTrip

namespace PacketWire.Packet

/-!
# Packets that are read in two stages

The routing header is read first, and later the content that was passed on raw, by a parser that is
told how long it is. Nothing is behind the content then, and no line closes it, but the units are
those of the content that a parser of whole packets reads (`content_agrees_with_whole`).
-/

variable {text rest content buffer : Bytes} {es fs : List Event} {p : Received}

/-- The unit belongs to the content, and not to the routing header. -/
def Event.isInContent : Event → Bool
  | routing _ => false
  | _ => true

/-- The raw content that a reader puts together from units. -/
def rawContent (es : List Event) : Bytes := (es.foldl Incoming.apply {}).packet.content

theorem filter_isInContent_units (p : Received) :
    p.units.filter Event.isInContent = Received.units { p with routing := [] } := by
  have hrouting : (p.routing.map Event.routing).filter Event.isInContent = [] := by
    simp [Event.isInContent]
  have hstate : (Received.stateUnits p.state).filter Event.isInContent =
      Received.stateUnits p.state := by
    cases p.state <;> rfl
  have hentity : (p.entity.map Event.entity).filter Event.isInContent =
      p.entity.map Event.entity := by
    simp [Event.isInContent]
  simp only [Received.units, List.filter_append, hrouting, hstate, hentity]
  cases hm : p.method.isEmpty <;> cases hc : p.content.isEmpty <;> rfl

theorem rawContent_units (routing : List Modifier) (content : Bytes) :
    rawContent (Received.units { routing, content }) = content := by
  rw [rawContent, Incoming.foldl_units fun _ => rfl]

/-! ### The second stage -/

/-- Content on its own is read to its end. -/
theorem ContentSpelled.finishes (h : ContentSpelled p content) :
    ∃ u, Parser.Finishes content (parser (.contentOnly content.length))
      (Received.units { p with routing := [] }) .complete u ∧ u.cursor = content.length := by
  have hawaits : (State.initial (.contentOnly content.length)).Awaits
      { p with routing := [] } content :=
    { spelled := State.contentSpelled_routing [] h
      routing := rfl
      state := fun hc => absurd rfl hc
      measures := fun announced ha => by
        cases ha
        exact Nat.zero_add _
      lines := nofun }
  -- nothing closes content of a known length
  have hparses := @State.Awaits.parses _ [] _ _ hawaits nofun rfl rfl
  have hending : content ++ ending (State.initial (.contentOnly content.length)).mode = content :=
    List.append_nil _
  rw [hending] at hparses
  exact finishes_iff.2 ⟨content, [], (List.append_nil _).symm, rfl, hparses⟩

/-! ### Both stages -/

/-- Where a relay ends a packet at the same place as an end point, it has passed on the content that
    the end point reads. -/
theorem exists_content_of_parses (hwhole : (State.initial .whole).Parses text rest es)
    (hrelay : (State.initial .routingOnly).Parses text rest fs) :
    ∃ p content, ContentSpelled p content ∧ es = p.units ∧
      fs = Received.units { routing := p.routing, content } := by
  obtain ⟨p, hp, rfl⟩ := State.parses_whole_iff.1 hwhole
  obtain ⟨header, line, content, hlaid, rfl⟩ := hp.laidOut
  refine ⟨p, content, hlaid.fields, rfl, ?_⟩
  by_cases hor : line ≠ [Byte.lineFeed] ∨ HoldsNoEnd p.entity
  · have hraw : (State.initial .routingOnly).Parses _ rest _ :=
      parses_relay_iff.2 ⟨_, _, hlaid.rawSpelled hor, rfl⟩
    exact (State.parses_unique hrelay hraw rfl).2
  · -- otherwise the relay would have ended the packet earlier
    obtain ⟨hline, hholds⟩ := not_or.1 hor
    obtain rfl := Decidable.of_not_not hline
    obtain ⟨lines, front, behind, hraw, hne, hsplit⟩ := hlaid.exists_rawSpelled hholds
    have hearly : (State.initial .routingOnly).Parses front (behind ++ rest) _ :=
      parses_relay_iff.2 ⟨_, _, hraw, rfl⟩
    obtain ⟨hsame, -⟩ := State.parses_unique hrelay hearly (by rw [hsplit, List.append_assoc])
    rw [hsplit] at hsame
    exact absurd (List.append_right_eq_self.1 hsame) hne

/-- Reading in two stages agrees with reading a packet at once. Where a relay and an end point end
    the first packet of a buffer at the same place, a parser for content of just the length of what
    the relay has passed on reads it to its end, with the units that the end point has reported
    behind the routing header. -/
theorem content_agrees_with_whole {q r : Parser machine}
    (hwhole : Parser.Finishes buffer (parser .whole) es .complete q)
    (hrelay : Parser.Finishes buffer (parser .routingOnly) fs .complete r)
    (hcursor : r.cursor = q.cursor) :
    ∃ u, Parser.Finishes (rawContent fs) (parser (.contentOnly (rawContent fs).length))
        (es.filter Event.isInContent) .complete u ∧
      u.cursor = (rawContent fs).length := by
  obtain ⟨text, rest, rfl, hlast, hparses⟩ := finishes_iff.1 ⟨q, hwhole, rfl⟩
  obtain ⟨text', rest', hsplit, hlast', hparses'⟩ := finishes_iff.1 ⟨r, hrelay, hcursor⟩
  obtain ⟨rfl, rfl⟩ := List.append_inj hsplit (hlast.symm.trans hlast')
  obtain ⟨p, content, hcontent, rfl, rfl⟩ := exists_content_of_parses hparses hparses'
  rw [filter_isInContent_units, rawContent_units]
  exact hcontent.finishes

/-- A packet with a state action and a method, read at once and in two stages. -/
theorem content_agrees_with_whole_on_resync :
    ∃ q r, Parser.Finishes (Bytes.ofText "\n?\nm\n|\n") (parser .whole)
        [.stateResync, .body (Bytes.ofText "m") []] .complete q ∧
      Parser.Finishes (Bytes.ofText "\n?\nm\n|\n") (parser .routingOnly)
        [.content (Bytes.ofText "?\nm\n")] .complete r ∧ r.cursor = q.cursor ∧
      ∃ u, Parser.Finishes (Bytes.ofText "?\nm\n") (parser (.contentOnly 4))
        [.stateResync, .body (Bytes.ofText "m") []] .complete u ∧ u.cursor = 4 := by
  have hwhole : ∃ q, Parser.Finishes (Bytes.ofText "\n?\nm\n|\n") (parser .whole)
      [.stateResync, .body (Bytes.ofText "m") []] .complete q ∧ q.cursor = 7 :=
    ⟨_, ⟨by decide, rfl, .step rfl (.step rfl (.step rfl (.refl _)))⟩, rfl⟩
  have hrelay : ∃ r, Parser.Finishes (Bytes.ofText "\n?\nm\n|\n") (parser .routingOnly)
      [.content (Bytes.ofText "?\nm\n")] .complete r ∧ r.cursor = 7 :=
    ⟨_, ⟨by decide, rfl, .step rfl (.step rfl (.refl _))⟩, rfl⟩
  obtain ⟨q, hq, hlast⟩ := hwhole
  obtain ⟨r, hr, hlast'⟩ := hrelay
  have hcursor : r.cursor = q.cursor := hlast'.trans hlast.symm
  obtain ⟨u, hu, hend⟩ := content_agrees_with_whole hq hr hcursor
  exact ⟨q, r, hq, hr, hcursor, u, hu, hend⟩

end PacketWire.Packet
