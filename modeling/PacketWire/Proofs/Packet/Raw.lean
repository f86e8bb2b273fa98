import PacketWire.Proofs.Packet.Grammar

namespace PacketWire.Packet

/-!
# The content, as a relay reads it

A parser of routing headers takes the content as it comes, by its length or else up to the first
line that is just `|`. It reads what `RawSpelled` tells of how a packet with raw content may be
written (`parses_relay_iff`).
-/

variable {text rest : Bytes} {es : List Event}

/-! ### Raw content -/

namespace State

variable {s : State}

theorem raw_of_parses (h : s.Parses text rest es) (hmode : s.mode = .routingOnly)
    (hpart : s.part = .data) (ho : s.owed = .nothing) :
    ∃ content, text = content ++ closingLine ∧
      es = (if content.isEmpty then [] else [.content content]) ∧
      s.Measures content.length ∧ (s.announced = none → Unclosed content) := by
  have hending : ending s.mode = closingLine := by rw [hmode]; rfl
  -- There is no content, or one unit of it. Content that is left open would not end the packet.
  cases h with
  | complete hreads =>
    obtain ⟨owed, hunit, -⟩ := hreads.inv ho hpart
    cases hunit
  | move hm h =>
    obtain ⟨rfl, -, rfl⟩ := hm.inv ho hpart
    obtain ⟨rfl, rfl, hexact⟩ := (parses_closing_iff (by rfl) (by exact ho)).1 h
    exact ⟨[], hending, rfl, hexact, fun _ => .nil⟩
  | unit he hreads h =>
    obtain ⟨owed, hunit, rfl⟩ := hreads.inv ho hpart
    generalize hbehind : _ ++ rest = behind at hunit
    cases hunit with
    | lines hann hu hne =>
      obtain ⟨rfl, rfl, -⟩ := (parses_closing_iff (by rfl) (by rfl)).1 h
      refine ⟨_, congrArg _ hending, by simp [hne], fun announced ha => ?_, fun _ => hu⟩
      exact absurd (hann.symm.trans ha) nofun
    | counted hann hne =>
      obtain ⟨rfl, rfl, -⟩ := (parses_closing_iff (by rfl) (by rfl)).1 h
      refine ⟨_, congrArg _ hending, by simp [hne], fun announced ha => ?_, fun hnone => ?_⟩
      · exact Option.some.inj (hann.symm.trans ha)
      · exact absurd (hann.symm.trans hnone) nofun
    | opening =>
      obtain ⟨rfl, rfl⟩ := List.append_eq_nil_iff.1 hbehind
      exact absurd h (not_parses_of_open ⟨_, _, rfl⟩)

theorem parses_raw {content : Bytes} (hmode : s.mode = .routingOnly) (hpart : s.part = .data)
    (ho : s.owed = .nothing) (hmeasure : s.Measures content.length)
    (hlines : s.announced = none → Unclosed content) :
    s.Parses (content ++ closingLine) rest
      (if content.isEmpty then [] else [.content content]) := by
  have hending : closingLine = ending s.mode := by rw [hmode]; rfl
  by_cases hne : content = []
  · subst hne
    -- no content is told by the closing line, or by a length of zero
    have hno : s.NoData (closingLine ++ rest) := by
      cases hann : s.announced with
      | none => exact .inl ⟨hann, rest, rfl⟩
      | some announced => exact .inr ⟨announced, hann, Nat.le_of_eq (hmeasure announced hann).symm⟩
    refine .skip (.data ho hpart hno) ?_
    exact (parses_closing_iff (by rfl) (by exact ho)).2 ⟨hending, rfl, hmeasure⟩
  · rw [if_neg (by simpa using hne)]
    have hunit : DataUnit s content (closingLine ++ rest) (.content content) .nothing := by
      cases hann : s.announced with
      | none => exact .lines hann (hlines hann) hne
      | some announced =>
        have hall : s.announced = some (s.consumed + content.length) := by
          rw [hann, hmeasure announced hann]
        exact .counted hall hne
    refine .unit nofun (.data ho hpart hunit) ?_
    exact (parses_closing_iff (by rfl) (by rfl)).2 ⟨hending, rfl, hmeasure⟩

end State

/-! ### The grammar of a relay -/

/-- The ways to write a packet with the content as it comes. -/
inductive RawSpelled (routing : List Modifier) : Bytes → Bytes → Prop where
  /-- A packet without content has no length line. -/
  | empty {header : Bytes} :
      Series PlainSpelled routing header → RawSpelled routing [] (header ++ closingLine)
  /-- The length line tells the length of the content. -/
  | counted {header digits content : Bytes} :
      Series PlainSpelled routing header → Numeral content.length digits →
        RawSpelled routing content (header ++ digits ++ Byte.lineFeed :: content ++ closingLine)
  /-- The length line is empty, and no line of the content is just `|`. -/
  | delimited {header content : Bytes} :
      Series PlainSpelled routing header → Unclosed content →
        RawSpelled routing content (header ++ Byte.lineFeed :: content ++ closingLine)

theorem units_of_raw (routing : List Modifier) (content : Bytes) :
    Received.units { routing, content } =
      routing.map .routing ++ if content.isEmpty then [] else [.content content] := by
  simp [Received.units, Received.stateUnits]

/-- A relay parses what may be written as a packet with any content. -/
theorem parses_relay_iff :
    (State.initial .routingOnly).Parses text rest es ↔
      ∃ routing content, RawSpelled routing content text ∧
        es = Received.units { routing, content } := by
  rw [State.parses_header_iff rfl rfl]
  constructor
  · rintro ⟨routing, header, front, behind, line, more, hheader, hline, rfl, rfl, h⟩
    generalize hbehind : behind ++ rest = input at hline
    -- The content is empty, or its length is untold or told.
    cases hline with
    | absent =>
      obtain ⟨rfl, rfl, -⟩ := (State.parses_closing_iff rfl rfl).1 h
      exact ⟨routing, [], .empty hheader, (units_of_raw routing []).symm⟩
    | untold =>
      obtain ⟨content, rfl, rfl, -, hlines⟩ := State.raw_of_parses h rfl rfl rfl
      refine ⟨routing, content, ?_, (units_of_raw routing content).symm⟩
      have hraw := RawSpelled.delimited hheader (hlines rfl)
      simpa using hraw
    | told hnum =>
      obtain ⟨content, rfl, rfl, hmeasure, -⟩ := State.raw_of_parses h rfl rfl rfl
      refine ⟨routing, content, ?_, (units_of_raw routing content).symm⟩
      have hlength : content.length = _ := (Nat.zero_add _).symm.trans (hmeasure _ rfl)
      have hraw := RawSpelled.counted hheader (hlength ▸ hnum)
      simpa using hraw
  · rintro ⟨routing, content, hraw, rfl⟩
    rw [units_of_raw]
    cases hraw with
    | @empty header hheader =>
      refine ⟨routing, header, [], closingLine, .absent, [], hheader, .absent, rfl, rfl, ?_⟩
      exact (State.parses_closing_iff rfl rfl).2 ⟨rfl, rfl, nofun⟩
    | @counted header digits _ hheader hnum =>
      refine ⟨routing, header, digits ++ [Byte.lineFeed], content ++ closingLine,
        .told content.length, _, hheader, .told hnum, by simp, rfl, ?_⟩
      refine State.parses_raw rfl rfl rfl (fun announced ha => ?_) nofun
      cases ha
      exact Nat.zero_add _
    | @delimited header _ hheader hlines =>
      refine ⟨routing, header, [Byte.lineFeed], content ++ closingLine, .untold, _, hheader,
        .untold, by simp, rfl, ?_⟩
      exact State.parses_raw rfl rfl rfl nofun fun _ => hlines

end PacketWire.Packet
