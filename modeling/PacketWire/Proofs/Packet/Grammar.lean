import PacketWire.Proofs.Packet.Content

namespace PacketWire.Packet

/-!
# The grammar of packets

What a parser reads from the start of a packet on is the header and the length line, in any mode
(`parses_header_iff`), and the content behind them. Together they are, for a parser of whole
packets, what `Spelled` tells of how a packet may be written (`parses_whole_iff`).
-/

variable {text rest front behind : Bytes} {es : List Event} {line : LengthLine}

/-- No operator starts a length line, or the closing line in its place. -/
theorem LengthUnit.starts (h : LengthUnit front behind line) :
    ∃ b tail, front ++ behind = b :: tail ∧ Operator.ofGlyph? b = none := by
  cases h with
  | absent => exact ⟨_, _, rfl, by decide⟩
  | untold => exact ⟨_, _, rfl, by decide⟩
  | @told length digits behind hnum =>
    cases digits with
    | nil => exact absurd rfl hnum.nonempty
    | cons d digits =>
      have hdigit := hnum.isDigit d List.mem_cons_self
      have hkey : Byte.isKeyword d := by simp [Byte.isKeyword, hdigit]
      exact ⟨d, digits ++ [Byte.lineFeed] ++ behind, rfl, State.ofGlyph?_of_isKeyword hkey⟩

namespace State

variable {s : State}

/-! ### The header and the length line -/

theorem parses_length_iff (hpart : s.part = .length) (ho : s.owed = .nothing) :
    s.Parses text rest es ↔ ∃ front behind line, LengthUnit front (behind ++ rest) line ∧
      text = front ++ behind ∧ (s.behindLength line).Parses behind rest es := by
  constructor
  · intro h
    cases h with
    | complete hreads =>
      exact (hreads.inv ho hpart).elim
    | unit _ hreads =>
      exact (hreads.inv ho hpart).elim
    | move hm h =>
      obtain ⟨line, hline, rfl⟩ := hm.inv ho hpart
      exact ⟨_, _, line, hline, rfl, h⟩
  · rintro ⟨front, behind, line, hline, rfl, h⟩
    exact .move (.length ho hpart hline) h

theorem header_of_parses (h : s.Parses text rest es) (hpart : s.part = .routing)
    (ho : s.owed = .nothing) :
    ∃ ms header behind more, Series PlainSpelled ms header ∧ text = header ++ behind ∧
      es = ms.map .routing ++ more ∧ Parses { s with part := .length } behind rest more := by
  induction h with
  | complete hreads =>
    obtain ⟨-, m, -, he⟩ := hreads.inv ho hpart
    cases he
  | move hm h =>
    obtain ⟨rfl, rfl, -⟩ := hm.inv ho hpart
    exact ⟨[], [], _, _, .nil, rfl, rfl, h⟩
  | unit he hreads h ih =>
    obtain ⟨rfl, m, hm, rfl⟩ := hreads.inv ho hpart
    obtain ⟨ms, header, behind, more, hms, rfl, rfl, hmore⟩ := ih hpart ho
    exact ⟨m :: ms, _, behind, more, .cons hm hms, (List.append_assoc ..).symm, rfl, hmore⟩

/-- A packet starts with the routing modifiers, and the length line follows. -/
theorem parses_header_iff (hpart : s.part = .routing) (ho : s.owed = .nothing) :
    s.Parses text rest es ↔ ∃ ms header front behind line more, Series PlainSpelled ms header ∧
      LengthUnit front (behind ++ rest) line ∧ text = header ++ (front ++ behind) ∧
      es = ms.map .routing ++ more ∧ (s.behindLength line).Parses behind rest more := by
  have hbehind : ∀ line, State.behindLength { s with part := .length } line = s.behindLength line :=
    fun line => by cases line <;> rfl
  constructor
  · intro h
    obtain ⟨ms, header, tail, more, hms, rfl, rfl, hmore⟩ := header_of_parses h hpart ho
    obtain ⟨front, behind, line, hline, rfl, hcontent⟩ :=
      (parses_length_iff (by rfl) (by exact ho)).1 hmore
    rw [hbehind] at hcontent
    exact ⟨ms, header, front, behind, line, more, hms, hline, rfl, rfl, hcontent⟩
  · rintro ⟨ms, header, front, behind, line, more, hms, hline, rfl, rfl, hmore⟩
    induction hms with
    | nil =>
      have hlength : Parses { s with part := .length } (front ++ behind) rest more := by
        refine (parses_length_iff (by rfl) (by exact ho)).2 ⟨front, behind, line, hline, rfl, ?_⟩
        rw [hbehind]
        exact hmore
      -- the next byte tells that the routing modifiers have ended
      obtain ⟨b, tail, hi, hb⟩ := hline.starts
      rw [← List.append_assoc] at hi
      have hmove : s.Moves [] (front ++ behind ++ rest) { s with part := .length } := by
        rw [hi]
        exact .routing ho hpart hb
      exact .skip hmove hlength
    | cons hm _ ih =>
      rw [List.append_assoc]
      exact .unit nofun (.routing ho hpart hm) ih

/-! ### Whole packets -/

/-- The routing modifiers do not matter for the content. -/
theorem contentSpelled_routing {p : Received} {content : Bytes} (routing : List Modifier)
    (h : ContentSpelled p content) : ContentSpelled { p with routing } content := by
  cases h with
  | mk haction hentity hbody hraw =>
    exact @ContentSpelled.mk { p with routing } _ _ _ haction hentity hbody hraw

theorem units_routing {p : Received} (routing : List Modifier) (h : p.routing = []) :
    Received.units { p with routing } = routing.map .routing ++ p.units := by
  simp [Received.units, h]

/-- A parser of whole packets parses what may be written as a packet. -/
theorem parses_whole_iff :
    (State.initial .whole).Parses text rest es ↔
      ∃ p : Received, Spelled p text ∧ es = p.units := by
  rw [parses_header_iff rfl rfl]
  constructor
  · rintro ⟨routing, header, front, behind, line, more, hheader, hline, rfl, rfl, h⟩
    generalize hbehind : behind ++ rest = input at hline
    cases hline with
    | absent =>
      obtain ⟨rfl, rfl, -⟩ := (parses_closing_iff rfl rfl).1 h
      exact ⟨{ routing }, .empty hheader, by simp [Received.units, Received.stateUnits]⟩
    | untold =>
      obtain ⟨p, content, hp, rfl, rfl⟩ := (parses_content_iff rfl rfl rfl).1 h
      have hspelled := contentSpelled_routing routing hp.spelled
      refine ⟨{ p with routing }, ?_, ?_⟩
      · have hwhole := Spelled.delimited hheader hspelled (hp.lines rfl)
        simpa using hwhole
      · exact (units_routing routing hp.routing).symm
    | told hnum =>
      obtain ⟨p, content, hp, rfl, rfl⟩ := (parses_content_iff rfl rfl rfl).1 h
      have hspelled := contentSpelled_routing routing hp.spelled
      -- the bytes of the content have been counted from zero
      have hlength : content.length = _ := (Nat.zero_add _).symm.trans (hp.measures _ rfl)
      refine ⟨{ p with routing }, ?_, ?_⟩
      · have hwhole := Spelled.counted hheader (hlength ▸ hnum) hspelled
        simpa using hwhole
      · exact (units_routing routing hp.routing).symm
  · rintro ⟨p, hp, rfl⟩
    cases hp with
    | @empty routing header hheader =>
      refine ⟨routing, header, [], closingLine, .absent, [], hheader, .absent, rfl, ?_, ?_⟩
      · simp [Received.units, Received.stateUnits]
      · exact (parses_closing_iff rfl rfl).2 ⟨rfl, rfl, fun _ ha => by cases ha⟩
    | @counted _ header digits content hheader hnum hcontent =>
      refine ⟨p.routing, header, digits ++ [Byte.lineFeed], content ++ closingLine,
        .told content.length, _, hheader, .told hnum, by simp,
        @units_routing { p with routing := [] } p.routing rfl, ?_⟩
      refine (parses_content_iff rfl rfl rfl).2 ⟨{ p with routing := [] }, content, ?_, rfl, rfl⟩
      refine ⟨contentSpelled_routing [] hcontent, rfl, fun hc => absurd rfl hc, ?_,
        fun ha => by cases ha⟩
      intro announced ha
      cases ha
      exact Nat.zero_add _
    | @delimited _ header content hheader hcontent hlines =>
      refine ⟨p.routing, header, [Byte.lineFeed], content ++ closingLine, .untold, _, hheader,
        .untold, by simp, @units_routing { p with routing := [] } p.routing rfl, ?_⟩
      refine (parses_content_iff rfl rfl rfl).2 ⟨{ p with routing := [] }, content, ?_, rfl, rfl⟩
      exact ⟨contentSpelled_routing [] hcontent, rfl, fun hc => absurd rfl hc,
        fun _ ha => (by cases ha), fun _ => hlines⟩

end State

/-- An end point finds the end of a packet, whatever comes behind it. -/
theorem Spelled.finishes {p : Received} (h : Spelled p text) (rest : Bytes) :
    ∃ q, Parser.Finishes (text ++ rest) (parser .whole) p.units .complete q ∧
      q.cursor = text.length :=
  finishes_iff.2 ⟨text, rest, rfl, rfl, State.parses_whole_iff.2 ⟨p, h, rfl⟩⟩

end PacketWire.Packet
