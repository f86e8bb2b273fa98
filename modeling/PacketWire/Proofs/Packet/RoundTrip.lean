import PacketWire.Proofs.Packet.Grammar
import PacketWire.Proofs.Rendering
import PacketWire.Reader.Incoming

namespace PacketWire

/-!
# Packets that are read back

A packet that was built and rendered is read back, whatever comes behind it, just where its wire
form is a way to write it (`Packet.finishes_toBytes_iff`).
-/

/-! ### Packets from their units -/

namespace Incoming

variable {a : Incoming}

theorem foldl_routing (ms : List Modifier) :
    (ms.map Packet.Event.routing).foldl apply a =
      { a with packet.routing := a.packet.routing ++ ms } := by
  induction ms generalizing a with
  | nil => simp
  | cons m ms ih =>
    rw [List.map_cons, List.foldl_cons, ih]
    simp [apply]

theorem foldl_entity (ms : List Modifier) :
    (ms.map Packet.Event.entity).foldl apply a =
      { a with packet.entity := a.packet.entity ++ ms } := by
  induction ms generalizing a with
  | nil => simp
  | cons m ms ih =>
    rw [List.map_cons, List.foldl_cons, ih]
    simp [apply]

/-- A packet is put together from its units. -/
theorem foldl_units {p : Received} (hdata : p.method = [] → p.data = []) :
    p.units.foldl apply {} = ⟨p, none⟩ := by
  obtain ⟨routing, state, entity, method, data, content⟩ := p
  -- the state action is noted in a packet that has none yet
  have hstate : ∀ b : Incoming, b.packet.state = .none →
      (Received.stateUnits state).foldl apply b = { b with packet.state := state } := by
    intro b hb
    cases state with
    | none =>
      obtain ⟨⟨_, _, _, _, _, _⟩, _⟩ := b
      obtain rfl := hb
      rfl
    | reset => rfl
    | resync => rfl
  simp only [Received.units, List.foldl_append, foldl_routing, foldl_entity]
  rw [hstate _ rfl]
  by_cases hm : method = []
  · obtain rfl : data = [] := hdata hm
    subst hm
    cases content <;> simp [apply]
  · cases content <;> simp [apply, hm]

end Incoming

namespace Packet

theorem Spelled.data_eq_nil {p : Received} {text : Bytes} (h : Spelled p text)
    (hm : p.method = []) : p.data = [] := by
  cases h with
  | empty => rfl
  | counted _ _ hcontent =>
    cases hcontent with
    | mk _ _ hb => exact hb.isKeyword.2 hm
  | delimited _ hcontent =>
    cases hcontent with
    | mk _ _ hb => exact hb.isKeyword.2 hm

/-! ### The round trip -/

variable {d : Draft} {t : Thresholds} {p : Packet}

/-- A parser gets to the end of a wire form just where it reads it as some packet. -/
theorem finishes_wire_iff_spelled (h : p.IsValid) {rest : Bytes} {es : List Event} :
    (∃ q, Parser.Finishes (p.wire ++ rest) (parser .whole) es .complete q ∧ q.cursor = p.wireSize) ↔
      ∃ r : Received, Spelled r p.wire ∧ es = r.units := by
  rw [← h.length_wire]
  constructor
  · intro hfinishes
    obtain ⟨text, behind, hi, hn, hparses⟩ := finishes_iff.1 hfinishes
    obtain ⟨rfl, rfl⟩ := List.append_inj hi hn
    exact State.parses_whole_iff.1 hparses
  · rintro ⟨r, hr, rfl⟩
    exact hr.finishes rest

/-- Whatever comes behind it, a packet that was built and rendered is read as this packet, and to
    its end, if and only if the packet is readable; where all decisions on lengths were left open,
    it is. -/
theorem finishes_toBytes_iff (hraw : d.content = none) (hp : d.build t = .ok p)
    (hsize : p.wireSize < Decimal.bound) :
    ∃ bytes, Sendable.toBytes p = some bytes ∧ ∀ rest,
      ((∃ es q, Parser.Finishes (bytes ++ rest) (parser .whole) es .complete q ∧
          (es.foldl Incoming.apply {}).packet = p.received ∧ q.cursor = p.wireSize) ↔
        p.IsReadable) ∧
      (p.IsReadable →
        ∃ q, Parser.Finishes (bytes ++ rest) (parser .whole) p.received.units .complete q ∧
          q.cursor = p.wireSize) ∧
      (d.framing = .automatic → (∀ m ∈ d.entity, m.kind.framing = .automatic) →
        p.IsReadable) := by
  refine ⟨p.wire, (renders_wire_of_build hp).toBytes, fun rest => ?_⟩
  have hvalid := isValid_of_build hp
  -- the content was built from fields, so its wire form is that of the fields
  have hspelled : Spelled p.received p.wire ↔ p.IsReadable := by
    obtain ⟨f, hf⟩ := content_of_build hraw hp
    obtain ⟨routing, content, counted⟩ := p
    obtain rfl : content = .fields f := hf
    exact spelled_wire_iff hvalid hsize
  have hunits : p.IsReadable →
      ∃ q, Parser.Finishes (p.wire ++ rest) (parser .whole) p.received.units .complete q ∧
        q.cursor = p.wireSize := fun hread =>
    (finishes_wire_iff_spelled hvalid).2 ⟨p.received, hspelled.2 hread, rfl⟩
  refine ⟨⟨?_, fun hread => ?_⟩, hunits, isReadable_of_automatic hp⟩
  · rintro ⟨es, q, hq, hpacket, hcursor⟩
    obtain ⟨r, hr, rfl⟩ := (finishes_wire_iff_spelled hvalid).1 ⟨q, hq, hcursor⟩
    -- the units tell the packet that was read, and this is the packet that was built
    rw [Incoming.foldl_units hr.data_eq_nil] at hpacket
    obtain rfl : r = p.received := hpacket
    exact hspelled.1 hr
  · obtain ⟨q, hq, hcursor⟩ := hunits hread
    refine ⟨p.received.units, q, hq, ?_, hcursor⟩
    rw [Incoming.foldl_units hvalid.data]

/-- A value with a line feed and data that is just `|` go out with their lengths, and are read
    back. -/
theorem finishes_toBytes_of_line_feed :
    ∃ p : Packet,
      Draft.build
          { entity := [⟨⟨.set, Bytes.ofText "a", Bytes.ofText "\n"⟩, .entity .automatic⟩],
            method := Bytes.ofText "m", data := Bytes.ofText "|" } {} = .ok p ∧
      Sendable.toBytes p = some (Bytes.ofText "11\n:a 1\t\n\nm\n|\n|\n") ∧ p.IsReadable ∧
      ∃ q, Parser.Finishes (Bytes.ofText "11\n:a 1\t\n\nm\n|\n|\n" ++ Bytes.ofText ":")
        (parser .whole) p.received.units .complete q ∧ q.cursor = p.wireSize := by
  let d : Draft :=
    { entity := [⟨⟨.set, Bytes.ofText "a", Bytes.ofText "\n"⟩, .entity .automatic⟩],
      method := Bytes.ofText "m", data := Bytes.ofText "|" }
  let p : Packet := ⟨[], .fields ⟨.none, [⟨⟨.set, Bytes.ofText "a", Bytes.ofText "\n"⟩, true⟩],
    Bytes.ofText "m", Bytes.ofText "|"⟩, true⟩
  have hbuild : d.build {} = .ok p := rfl
  have hbytes : Sendable.toBytes p = some (Bytes.ofText "11\n:a 1\t\n\nm\n|\n|\n") := by
    decide +kernel
  obtain ⟨bytes, hsent, hfinishes⟩ := finishes_toBytes_iff rfl hbuild (by decide +kernel)
  obtain rfl := Option.some.inj (hsent.symm.trans hbytes)
  obtain ⟨-, hread, hauto⟩ := hfinishes (Bytes.ofText ":")
  have hreadable := hauto rfl (by decide +kernel)
  exact ⟨p, hbuild, hbytes, hreadable, hread hreadable⟩

end Packet

end PacketWire
