import PacketWire.Proofs.Decimal
import PacketWire.Proofs.Packet.Raw

namespace PacketWire.Packet

/-!
# Relays and end points

A relay takes the content of a packet as it comes. An end point looks into the content, and passes
over the values that have a length of their own. Both find the same end of a packet, unless the
length of the content is not told and a value with a length has a line that is just `|`; then the
relay ends the packet at this line (`relay_agrees_iff`).
-/

variable {text rest lines : Bytes} {es : List Event}

/-! ### Lines of the content -/

/-- A modifier is its value, with some bytes of the same line in front. -/
theorem EntitySpelled.exists_front {m : Modifier} {line : Bytes} (h : EntitySpelled m line) :
    ∃ front, Byte.lineFeed ∉ front ∧ 2 ≤ front.length ∧
      line = front ++ m.value ++ [Byte.lineFeed] := by
  -- the glyph and the name are on one line, and are two bytes at least
  have hname : ∀ {oper : Operator} {name : Bytes}, isKeyword name →
      Byte.lineFeed ∉ oper.glyph :: name ∧ 2 ≤ (oper.glyph :: name).length := by
    intro oper name hkey
    obtain ⟨hne, hall⟩ := isKeyword_iff.1 hkey
    have hpos := List.length_pos_iff.2 hne
    refine ⟨fun hmem => ?_, by rw [List.length_cons]; omega⟩
    rcases List.mem_cons.1 hmem with hglyph | hmem
    · cases oper <;> exact absurd hglyph (by decide)
    · exact absurd (hall _ hmem) (by decide)
  cases h with
  | plain h =>
    cases h with
    | @bare oper name hkey =>
      exact ⟨oper.glyph :: name, (hname hkey).1, (hname hkey).2, by simp⟩
    | @valued oper name value hkey =>
      obtain ⟨hl, hlength⟩ := @hname oper _ hkey
      refine ⟨oper.glyph :: name ++ [Byte.tab], ?_, ?_, by simp⟩
      · rw [List.mem_append, not_or]
        exact ⟨hl, by decide⟩
      · rw [List.length_append]
        omega
  | @counted oper name value digits hkey hnum =>
    obtain ⟨hl, hlength⟩ := @hname oper _ hkey
    refine ⟨countedHead oper name digits, ?_, ?_, by simp [countedHead]⟩
    · have hdigits := Decimal.notMem_of_numeral hnum (b := Byte.lineFeed) (by decide)
      have hspace : Byte.lineFeed ∉ Byte.space :: digits := by
        rw [List.mem_cons, not_or]
        exact ⟨by decide, hdigits⟩
      rw [countedHead, List.mem_append, List.mem_append, not_or, not_or]
      exact ⟨⟨hl, hspace⟩, by decide⟩
    · rw [countedHead, List.length_append, List.length_append]
      omega

/-- The line of a modifier is closed at a line of its value behind the first, or not at all. -/
theorem EntitySpelled.unclosed_iff {m : Modifier} {line : Bytes} (h : EntitySpelled m line) :
    Unclosed (line ++ rest) ↔
      [Byte.pipe] ∉ (Bytes.split Byte.lineFeed m.value).tail ∧ Unclosed rest := by
  obtain ⟨front, hl, hlength, rfl⟩ := h.exists_front
  obtain ⟨piece, hsplit⟩ := @Bytes.split_append_of_notMem _ _ m.value hl
  -- the first line of the value has the front before it, so it is longer than `|`
  have hne : [Byte.pipe] ≠ front ++ piece := fun he => by
    have hsum := congrArg List.length he
    simp only [List.length_append, List.length_cons, List.length_nil] at hsum
    omega
  rw [List.append_assoc, List.singleton_append, unclosed_append_lineFeed_iff, hsplit, List.mem_cons,
    not_or, and_iff_right hne]

/-- Modifiers close nothing if no value of theirs has a line that is just `|`. -/
theorem unclosed_entities_iff {ms : List Modifier} {entity : Bytes}
    (h : Series EntitySpelled ms entity) :
    Unclosed (entity ++ rest) ↔
      (∀ m ∈ ms, [Byte.pipe] ∉ (Bytes.split Byte.lineFeed m.value).tail) ∧ Unclosed rest := by
  induction h with
  | nil => simp
  | cons hm _ ih => rw [List.append_assoc, hm.unclosed_iff, ih, List.forall_mem_cons, and_assoc]

/-- A keyword is no `|`, and holds no line feed. -/
theorem unclosed_keyword_iff {word : Bytes} (h : isKeyword word) :
    Unclosed (word ++ Byte.lineFeed :: rest) ↔ Unclosed rest := by
  have hall := (isKeyword_iff.1 h).2
  have hl : Byte.lineFeed ∉ word := fun hb => absurd (hall _ hb) (by decide)
  have hp : word ≠ [Byte.pipe] := fun hw => absurd (hall Byte.pipe (by simp [hw])) (by decide)
  rw [unclosed_line_iff hl]
  exact and_iff_right hp

/-- A state action closes nothing. -/
theorem StateSpelled.unclosed {state : StateAction} (h : StateSpelled state text) :
    Unclosed text := by
  cases h with
  | none => exact .nil
  | reset => exact @Unclosed.line [61] [] (by decide) (by decide) .nil
  | resync => exact @Unclosed.line [63] [] (by decide) (by decide) .nil

/-- A body closes nothing if its data does not. -/
theorem BodySpelled.unclosed {method data : Bytes} (h : BodySpelled method data text)
    (hdata : [Byte.pipe] ∉ Bytes.split Byte.lineFeed data) : Unclosed text := by
  cases h with
  | absent => exact .nil
  | method hkey => exact (unclosed_keyword_iff hkey).2 .nil
  | data hkey =>
    rw [List.append_assoc, List.cons_append]
    exact (unclosed_keyword_iff hkey).2 (unclosed_lineFeed_iff.2 hdata)

/-- No value of the content has a further line that is just `|`. -/
def HoldsNoEnd (ms : List Modifier) : Prop :=
  ∀ m ∈ ms, [Byte.pipe] ∉ (Bytes.split Byte.lineFeed m.value).tail

instance (ms : List Modifier) : Decidable (HoldsNoEnd ms) :=
  inferInstanceAs (Decidable (∀ m ∈ ms, [Byte.pipe] ∉ (Bytes.split Byte.lineFeed m.value).tail))

/-- Content closes nothing if neither its data nor its values do. -/
theorem unclosed_content {p : Received} {content : Bytes} (h : ContentSpelled p content)
    (hdata : [Byte.pipe] ∉ Bytes.split Byte.lineFeed p.data) (hholds : HoldsNoEnd p.entity) :
    Unclosed content := by
  cases h with
  | mk hstate hentity hbody _ =>
    rw [List.append_assoc, unclosed_append_iff hstate.unclosed, unclosed_entities_iff hentity]
    exact ⟨hholds, hbody.unclosed hdata⟩

/-- Where a value has such a line, this line could be the closing line. -/
theorem exists_closing_entity {ms : List Modifier} {entity : Bytes}
    (h : Series EntitySpelled ms entity) (hholds : ¬ HoldsNoEnd ms) :
    ∃ lines, Unclosed lines ∧ lines ++ closingLine <+: entity := by
  induction h with
  | nil => exact absurd nofun hholds
  | @cons m ms line entity hm _ ih =>
    have hline : Unclosed line ↔ [Byte.pipe] ∉ (Bytes.split Byte.lineFeed m.value).tail := by
      have hiff := @EntitySpelled.unclosed_iff [] _ _ hm
      rwa [List.append_nil, and_iff_left .nil] at hiff
    -- the line is in this modifier, or in one of those behind it
    by_cases hu : Unclosed line
    · have hrest : ¬ HoldsNoEnd ms := fun hall =>
        hholds (List.forall_mem_cons.2 ⟨hline.1 hu, hall⟩)
      obtain ⟨lines, hlines, behind, rfl⟩ := ih hrest
      exact ⟨line ++ lines, (unclosed_append_iff hu).2 hlines, behind, by simp⟩
    · obtain ⟨front, -, -, rfl⟩ := hm.exists_front
      obtain ⟨lines, -, hlines, hclosing⟩ := @scanLines_of_closed _ [] hu
      exact ⟨lines, hlines, hclosing.trans (List.prefix_append _ _)⟩

/-- Otherwise there is a first line in it that a relay takes for the end. -/
theorem exists_closing_line {p : Received} {content : Bytes} (h : ContentSpelled p content)
    (hholds : ¬ HoldsNoEnd p.entity) :
    ∃ lines, Unclosed lines ∧ lines ++ closingLine <+: content := by
  cases h with
  | @mk action entity body hstate hentity _ _ =>
    obtain ⟨lines, hlines, behind, rfl⟩ := exists_closing_entity hentity hholds
    exact ⟨action ++ lines, (unclosed_append_iff hstate.unclosed).2 hlines, behind ++ body, by simp⟩

/-! ### Where a relay ends a packet -/

/-- The ways to tell the length of the content of a packet, by the text of the length line. -/
inductive LengthSpelled (content : Bytes) : Bytes → Prop where
  /-- There is no content, and no length line. -/
  | absent : content = [] → LengthSpelled content []
  /-- The line is empty. -/
  | untold : LengthSpelled content [Byte.lineFeed]
  /-- The line tells the length. -/
  | told {digits : Bytes} :
      Numeral content.length digits → LengthSpelled content (digits ++ [Byte.lineFeed])

/-- The parts of a packet in front of its closing line. -/
structure LaidOut (p : Received) (header line content : Bytes) : Prop where
  /-- The routing modifiers come first. -/
  routing : Series PlainSpelled p.routing header
  /-- The length line tells the length of the content, or does not. -/
  length : LengthSpelled content line
  /-- The content is written for the other fields. -/
  fields : ContentSpelled p content
  /-- Data that reaches up to the closing line does not hold one. -/
  data : line = [Byte.lineFeed] → [Byte.pipe] ∉ Bytes.split Byte.lineFeed p.data

/-- A packet is its header, its length line, its content and its closing line. -/
theorem Spelled.laidOut {p : Received} (h : Spelled p text) :
    ∃ header line content, LaidOut p header line content ∧
      text = header ++ line ++ content ++ closingLine := by
  cases h with
  | @empty routing header hheader =>
    refine ⟨header, [], [], ⟨hheader, .absent rfl, ?_, nofun⟩, by simp⟩
    exact @ContentSpelled.mk { routing } [] [] [] .none .nil .absent rfl
  | @counted _ header digits content hheader hnum hcontent =>
    refine ⟨header, digits ++ [Byte.lineFeed], content,
      ⟨hheader, .told hnum, hcontent, fun he => ?_⟩, by simp⟩
    exact absurd (by simpa using he) hnum.nonempty
  | @delimited _ header content hheader hcontent hlines =>
    exact ⟨header, [Byte.lineFeed], content, ⟨hheader, .untold, hcontent, fun _ => hlines⟩, by simp⟩

/-- A relay finds the end of a packet, whatever comes behind it. -/
theorem RawSpelled.finishes {routing : List Modifier} {content : Bytes}
    (h : RawSpelled routing content text) (rest : Bytes) :
    ∃ r, Parser.Finishes (text ++ rest) (parser .routingOnly)
      (Received.units { routing, content }) .complete r ∧ r.cursor = text.length :=
  finishes_iff.2 ⟨text, rest, rfl, rfl, parses_relay_iff.2 ⟨routing, content, h, rfl⟩⟩

/-- Where its length is told or no value holds a closing line, the content can be taken as it
    comes. -/
theorem LaidOut.rawSpelled {p : Received} {header line content : Bytes}
    (h : LaidOut p header line content) (hor : line ≠ [Byte.lineFeed] ∨ HoldsNoEnd p.entity) :
    RawSpelled p.routing content (header ++ line ++ content ++ closingLine) := by
  cases h.length with
  | absent hnil =>
    subst hnil
    have hraw := RawSpelled.empty h.routing
    simpa using hraw
  | untold =>
    have hholds : HoldsNoEnd p.entity := hor.resolve_left fun hne => hne rfl
    have hraw := RawSpelled.delimited h.routing (unclosed_content h.fields (h.data rfl) hholds)
    simpa using hraw
  | told hnum =>
    have hraw := RawSpelled.counted h.routing hnum
    simpa using hraw

/-- Otherwise a packet with raw content ends inside the content. -/
theorem LaidOut.exists_rawSpelled {p : Received} {header content : Bytes}
    (h : LaidOut p header [Byte.lineFeed] content) (hholds : ¬ HoldsNoEnd p.entity) :
    ∃ lines front behind, RawSpelled p.routing lines front ∧ behind ≠ [] ∧
      header ++ [Byte.lineFeed] ++ content ++ closingLine = front ++ behind := by
  obtain ⟨lines, hlines, behind, hbehind⟩ := exists_closing_line h.fields hholds
  refine ⟨lines, _, behind ++ closingLine, .delimited h.routing hlines, ?_, ?_⟩
  · simp [closingLine]
  · rw [← hbehind]
    simp

/-- A relay ends the packet where the end point does, with the content as it came, if and only if
    the length of the content is told, or there is none, or no value of it has a further line that
    is just `|`. Otherwise it ends the packet earlier. -/
theorem relay_agrees_iff {buffer : Bytes} {q : Parser machine}
    (h : Parser.Finishes buffer (parser .whole) es .complete q) :
    ∃ p header line content rest, LaidOut p header line content ∧
      buffer = header ++ line ++ content ++ closingLine ++ rest ∧
      q.cursor = (header ++ line ++ content ++ closingLine).length ∧ es = p.units ∧
      ((∃ r, Parser.Finishes buffer (parser .routingOnly)
          (Received.units { routing := p.routing, content }) .complete r ∧ r.cursor = q.cursor) ↔
        line ≠ [Byte.lineFeed] ∨ HoldsNoEnd p.entity) ∧
      (line = [Byte.lineFeed] → ¬ HoldsNoEnd p.entity →
        ∃ fs r, Parser.Finishes buffer (parser .routingOnly) fs .complete r ∧
          r.cursor < q.cursor) := by
  obtain ⟨text, rest, rfl, hcursor, hparses⟩ := finishes_iff.1 ⟨q, h, rfl⟩
  obtain ⟨p, hp, rfl⟩ := State.parses_whole_iff.1 hparses
  obtain ⟨header, line, content, hlaid, rfl⟩ := hp.laidOut
  have hearly : line = [Byte.lineFeed] → ¬ HoldsNoEnd p.entity →
      ∃ fs r, Parser.Finishes (header ++ line ++ content ++ closingLine ++ rest)
        (parser .routingOnly) fs .complete r ∧ r.cursor < q.cursor := by
    rintro rfl hholds
    obtain ⟨lines, front, behind, hraw, hne, hsplit⟩ := hlaid.exists_rawSpelled hholds
    obtain ⟨r, hr, hlength⟩ := hraw.finishes (behind ++ rest)
    rw [hcursor, hsplit, List.append_assoc]
    refine ⟨_, r, hr, ?_⟩
    have hpos := List.length_pos_iff.2 hne
    rw [hlength, List.length_append]
    omega
  refine ⟨p, header, line, content, rest, hlaid, rfl, hcursor, rfl, ⟨?_, fun hor => ?_⟩, hearly⟩
  · rintro ⟨r, hr, hsame⟩
    by_cases hline : line = [Byte.lineFeed]
    · -- a relay ends its first packet at one place only
      refine .inr (Decidable.of_not_not fun hholds => ?_)
      obtain ⟨fs, r', hr', hless⟩ := hearly hline hholds
      have hunique := finishes_unique hr hr'
      omega
    · exact .inl hline
  · rw [hcursor]
    exact (hlaid.rawSpelled hor).finishes rest

/-- A relay passes on a value that holds the closing line of a packet, where the length of the
    content is told. -/
theorem relay_agrees_on_value :
    ∃ es fs q r,
      Parser.Finishes (Bytes.ofText "13\n:_a 4\tx\n|\n\nm\n|\n") (parser .whole) es .complete q ∧
      Parser.Finishes (Bytes.ofText "13\n:_a 4\tx\n|\n\nm\n|\n") (parser .routingOnly) fs
        .complete r ∧ r.cursor = q.cursor := by
  have hwhole : ∃ q, Parser.Finishes (Bytes.ofText "13\n:_a 4\tx\n|\n\nm\n|\n") (parser .whole)
      [.entity ⟨.set, Bytes.ofText "_a", Bytes.ofText "x\n|\n"⟩, .body (Bytes.ofText "m") []]
      .complete q := ⟨_, by decide, rfl, .step rfl (.step rfl (.step rfl (.refl _)))⟩
  obtain ⟨q, hq⟩ := hwhole
  obtain ⟨p, header, line, content, rest, hlaid, hbuffer, -, hunits, hiff, -⟩ := relay_agrees_iff hq
  -- there are no routing modifiers, so the buffer starts with the length line
  have hrouting : p.routing = [] := List.eq_nil_iff_forall_not_mem.2 fun m hm => by
    have hmem : Event.routing m ∈ p.units := by simp [Received.units, hm]
    rw [← hunits] at hmem
    simp at hmem
  have hheader : header = [] := by
    have hseries := hlaid.routing
    rw [hrouting] at hseries
    cases hseries
    rfl
  have hline : line ≠ [Byte.lineFeed] := by
    rintro rfl
    rw [hheader] at hbuffer
    exact absurd (List.cons.inj hbuffer).1 (by decide)
  obtain ⟨r, hr, hsame⟩ := hiff.2 (.inl hline)
  exact ⟨_, _, q, r, hq, hr, hsame⟩

/-- An end point passes over a value that holds a closing line, but a relay ends the packet at
    it. -/
theorem relay_ends_in_value :
    (∃ es q, Parser.Finishes (Bytes.ofText "\n:_a 3\t\n|\n\n|\n") (parser .whole) es .complete q ∧
        q.cursor = 13) ∧
      ¬ ∃ fs r, Parser.Finishes (Bytes.ofText "\n:_a 3\t\n|\n\n|\n") (parser .routingOnly) fs
        .complete r ∧ r.cursor = 13 := by
  have hwhole : ∃ q, Parser.Finishes (Bytes.ofText "\n:_a 3\t\n|\n\n|\n") (parser .whole)
      [.entity ⟨.set, Bytes.ofText "_a", Bytes.ofText "\n|\n"⟩] .complete q ∧ q.cursor = 13 :=
    ⟨_, ⟨by decide, rfl, .step rfl (.step rfl (.refl _))⟩, rfl⟩
  have hrelay : ∃ r, Parser.Finishes (Bytes.ofText "\n:_a 3\t\n|\n\n|\n") (parser .routingOnly)
      [.content (Bytes.ofText ":_a 3\t\n")] .complete r ∧ r.cursor = 10 :=
    ⟨_, ⟨by decide, rfl, .step rfl (.step rfl (.refl _))⟩, rfl⟩
  refine ⟨⟨_, hwhole⟩, ?_⟩
  rintro ⟨fs, r, hr, hlast⟩
  -- the relay ends its first packet at one place only
  obtain ⟨r', hr', hlast'⟩ := hrelay
  have hunique := finishes_unique hr hr'
  rw [hlast, hlast'] at hunique
  exact absurd hunique (by decide)

end PacketWire.Packet
