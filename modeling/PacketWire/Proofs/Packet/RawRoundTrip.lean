import PacketWire.Proofs.Packet.Forward

namespace PacketWire.Packet

/-!
# Raw content that is read back

A packet that was built from raw content is read back by a parser of routing headers, whatever comes
behind it, just where the length of the content is told, or the content is made of lines none of
which is just `|` (`finishes_raw_toBytes_iff`). The last line feed of such content is the one that
the closing line comes behind.
-/

variable {d : Draft} {p : Packet} {t : Thresholds} {content : Bytes}

/-- Raw content that can do without its length: it ends with a line feed, and none of its lines is
    just `|`. -/
def IsDelimitable (content : Bytes) : Prop :=
  content.getLast? = some Byte.lineFeed ∧ [Byte.pipe] ∉ Bytes.split Byte.lineFeed content

/-- Lines end with a line feed each. -/
theorem unclosed_iff_isDelimitable (hne : content ≠ []) :
    Unclosed content ↔ IsDelimitable content := by
  -- the last line feed is in front of one more piece, which is empty
  have hfront : ∀ front, [Byte.pipe] ∉ Bytes.split Byte.lineFeed (front ++ [Byte.lineFeed]) ↔
      [Byte.pipe] ∉ Bytes.split Byte.lineFeed front := fun front => by
    have hend : Unclosed [Byte.lineFeed] := .line List.not_mem_nil nofun .nil
    rw [← unclosed_lineFeed_iff, List.append_assoc, List.singleton_append,
      unclosed_append_lineFeed_iff, and_iff_left hend]
  constructor
  · intro h
    obtain ⟨front, rfl⟩ := h.eq_append hne
    exact ⟨List.getLast?_concat, (hfront front).2 (unclosed_lineFeed_iff.1 h)⟩
  · rintro ⟨hlast, hlines⟩
    obtain ⟨front, rfl⟩ := List.getLast?_eq_some_iff.1 hlast
    exact unclosed_lineFeed_iff.2 ((hfront front).1 hlines)

/-- The wire form is a way to write the packet with its content as it comes, just where the content
    has its length told or is made of lines none of which is just `|`. -/
theorem IsValid.rawSpelled_wire_iff (h : p.IsValid) (hsize : p.content.wire.length < Decimal.bound)
    (hne : p.content.wire ≠ []) :
    RawSpelled p.routing p.content.wire p.wire ↔ p.counted = true ∨ Unclosed p.content.wire := by
  constructor
  · intro hraw
    have hwire := Decimal.numeral_digits hsize
    generalize hw : p.wire = text at hraw
    generalize hc : p.content.wire = content at hraw
    cases hraw with
    | empty => exact absurd hc hne
    | @counted header digits _ hheader hnum =>
      subst hc
      -- behind the header there are digits, and only a length starts with them
      have hi : ∀ {tail}, p.wire = p.routing.flatMap (fun m => m.wire false) ++ tail →
          digits ++ Byte.lineFeed :: (p.content.wire ++ closingLine) = tail := fun htail =>
        eq_behind_header hheader (by rw [← htail, hw]; simp)
      obtain ⟨hcounted, -⟩ | ⟨-, htail⟩ | ⟨-, hnil, -⟩ := h.wire_cases
      · exact .inl hcounted
      · exact absurd (hi htail) (Decimal.append_ne_cons_of_numeral hnum (by decide))
      · exact absurd hnil hne
    | delimited _ hlines => exact .inr hlines
  · intro hor
    exact h.rawSpelled_wire hsize fun hc => hor.resolve_left (by rw [hc]; nofun)

/-- A relay that gets to the end of a wire form reads it as some packet with its content as it
    comes. -/
theorem finishes_wire_iff_rawSpelled (h : p.IsValid) {rest : Bytes} {es : List Event} :
    (∃ q, Parser.Finishes (p.wire ++ rest) (parser .routingOnly) es .complete q ∧
        q.cursor = p.wireSize) ↔
      ∃ routing content, RawSpelled routing content p.wire ∧
        es = Received.units { routing, content } := by
  rw [← h.length_wire]
  constructor
  · intro hfinishes
    obtain ⟨text, behind, hi, hn, hparses⟩ := finishes_iff.1 hfinishes
    obtain ⟨rfl, rfl⟩ := List.append_inj hi hn
    exact parses_relay_iff.1 hparses
  · rintro ⟨routing, content, hraw, rfl⟩
    exact hraw.finishes rest

/-- What is built from raw content that is not empty. -/
theorem build_raw_eq_ok (hcontent : d.content = some content) (hne : content ≠ [])
    (hp : d.build t = .ok p) :
    p = ⟨d.routing.map Modifier.Draft.modifier, .raw content,
      d.framing.isCounted (Content.wantsLength t (.raw content))⟩ := by
  obtain ⟨-, routing, entity, hrouting, -, rfl⟩ := build_eq_ok hp
  have hraw : d.buildContent entity = .raw content := by
    cases content with
    | nil => exact absurd rfl hne
    | cons b bytes => rw [Draft.buildContent, hcontent]
  rw [Except.eq_map_of_mapM (fun hm => (Modifier.buildRouting_eq_ok hm).1) hrouting, hraw]

/-- Whatever comes behind it, a packet that was built from raw content and rendered is read as its
    routing modifiers and this content, and to its end, if and only if the length of the content is
    told, or the content ends with a line feed and none of its lines is just `|`; where the decision
    on the length was left open, it is. -/
theorem finishes_raw_toBytes_iff (hcontent : d.content = some content) (hne : content ≠ [])
    (hp : d.build t = .ok p) (hsize : p.wireSize < Decimal.bound) :
    p.received = { routing := d.routing.map Modifier.Draft.modifier, content } ∧
    ∃ bytes, Sendable.toBytes p = some bytes ∧ ∀ rest,
      ((∃ es q, Parser.Finishes (bytes ++ rest) (parser .routingOnly) es .complete q ∧
          (es.foldl Incoming.apply {}).packet = p.received ∧ q.cursor = p.wireSize) ↔
        p.counted = true ∨ IsDelimitable content) ∧
      (p.counted = true ∨ IsDelimitable content →
        ∃ q, Parser.Finishes (bytes ++ rest) (parser .routingOnly)
            (p.routing.map .routing ++ [.content content]) .complete q ∧ q.cursor = p.wireSize) ∧
      (d.framing = .automatic → p.counted = true ∨ IsDelimitable content) := by
  have hsent := (renders_wire_of_build hp).toBytes
  have hvalid := isValid_of_build hp
  obtain rfl := build_raw_eq_ok hcontent hne hp
  rw [← unclosed_iff_isDelimitable hne]
  have hlength : content.length < Decimal.bound := by
    have hfits := hvalid.length_content
    rw [wireSize] at hsize
    rw [show content.length = _ from hfits]
    omega
  have hspelled := hvalid.rawSpelled_wire_iff hlength hne
  have hunits := units_of_raw (d.routing.map Modifier.Draft.modifier) content
  rw [if_neg (by simpa using hne)] at hunits
  refine ⟨rfl, _, hsent, fun rest => ⟨⟨?_, fun hor => ?_⟩, fun hor => ?_, fun hauto => ?_⟩⟩
  · rintro ⟨es, q, hq, hpacket, hcursor⟩
    obtain ⟨routing, content', hraw, rfl⟩ :=
      (finishes_wire_iff_rawSpelled hvalid).1 ⟨q, hq, hcursor⟩
    -- the units tell the packet that was read, and this is the packet that was built
    rw [Incoming.foldl_units fun _ => rfl] at hpacket
    cases hpacket
    exact hspelled.1 hraw
  · obtain ⟨q, hq, hcursor⟩ :=
      (finishes_wire_iff_rawSpelled hvalid).2 ⟨_, _, hspelled.2 hor, rfl⟩
    exact ⟨_, q, hq, by rw [Incoming.foldl_units fun _ => rfl]; rfl, hcursor⟩
  · exact (finishes_wire_iff_rawSpelled hvalid).2 ⟨_, _, hspelled.2 hor, hunits.symm⟩
  · -- the length is left out only where the content has no need of it
    refine Decidable.or_iff_not_imp_left.2 fun hc => ?_
    have hframing : d.framing ≠ .delimited := by
      intro hdelimited
      rw [hauto] at hdelimited
      cases hdelimited
    exact unclosed_of_wantsLength (Framing.eq_false_of_isCounted hframing (Bool.eq_false_iff.2 hc))

/-- Content with a closing line that wants only its line feed goes out with its length, and is read
    back although a line feed comes behind the packet. -/
theorem finishes_raw_toBytes_of_pipe :
    ∃ p : Packet,
      Draft.build
          { routing := [⟨⟨.set, Bytes.ofText "a", Bytes.ofText "b"⟩, .routing⟩],
            content := some (Bytes.ofText "\n|") } {} = .ok p ∧
      Sendable.toBytes p = some (Bytes.ofText ":a\tb\n2\n\n||\n") ∧ p.counted = true ∧
      ∃ q, Parser.Finishes (Bytes.ofText ":a\tb\n2\n\n||\n" ++ Bytes.ofText "\n")
          (parser .routingOnly)
          [.routing ⟨.set, Bytes.ofText "a", Bytes.ofText "b"⟩, .content (Bytes.ofText "\n|")]
          .complete q ∧ q.cursor = p.wireSize := by
  let d : Draft :=
    { routing := [⟨⟨.set, Bytes.ofText "a", Bytes.ofText "b"⟩, .routing⟩],
      content := some (Bytes.ofText "\n|") }
  let p : Packet :=
    ⟨[⟨.set, Bytes.ofText "a", Bytes.ofText "b"⟩], .raw (Bytes.ofText "\n|"), true⟩
  have hbuild : d.build {} = .ok p := rfl
  have hbytes : Sendable.toBytes p = some (Bytes.ofText ":a\tb\n2\n\n||\n") := by decide +kernel
  obtain ⟨-, bytes, hsent, hfinishes⟩ :=
    finishes_raw_toBytes_iff rfl (by decide +kernel) hbuild (by decide +kernel)
  obtain rfl := Option.some.inj (hsent.symm.trans hbytes)
  obtain ⟨-, hread, -⟩ := hfinishes (Bytes.ofText "\n")
  exact ⟨p, hbuild, hbytes, rfl, hread (.inl rfl)⟩

end PacketWire.Packet
