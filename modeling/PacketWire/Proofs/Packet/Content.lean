import PacketWire.Proofs.Packet.Ending

namespace PacketWire.Packet

/-!
# The content, as an end point reads it

From the start of the content on, a parser of whole packets reads what `ContentSpelled` allows, and
the closing line (`parses_content_iff`). A modifier with a length takes two steps, for the line feed
behind its value is owed; the text that is left is what the inductions are on.
-/

/-- The line of a modifier is not empty. -/
theorem EntitySpelled.length_pos {m : Modifier} {line : Bytes} (h : EntitySpelled m line) :
    0 < line.length := by
  cases h with
  | plain h => cases h <;> simp
  | counted => simp

namespace State

variable {s : State} {text rest : Bytes} {es : List Event} {n : Nat}

/-! ### The entity modifiers -/

/-- The content is not full while bytes of it are missing, or if its length is not told. -/
theorem isFull_eq_false_iff :
    s.isFull = false ↔ ∀ announced, s.announced = some announced → s.consumed < announced := by
  unfold isFull
  cases s.announced with
  | none => simp
  | some announced => simp

/-- Content that is not empty is not full yet. -/
theorem Measures.not_full (h : s.Measures n) (hn : 0 < n) : s.isFull = false :=
  isFull_eq_false_iff.2 fun announced ha => by
    have hsum := h announced ha
    omega

/-- The content that is left where it is full is empty. -/
theorem Measures.eq_zero (h : s.Measures n) (hfull : s.isFull = true) : n = 0 := by
  cases n with
  | zero => rfl
  | succ n =>
    have hnot := h.not_full (Nat.succ_pos n)
    rw [hfull] at hnot
    cases hnot

/-- The bytes of a name are no glyphs. -/
theorem ofGlyph?_of_isKeyword {b : UInt8} (h : Byte.isKeyword b) : Operator.ofGlyph? b = none := by
  cases ho : Operator.ofGlyph? b with
  | none => rfl
  | some oper =>
    obtain rfl := Operator.ofGlyph?_eq_some_iff.1 ho
    cases oper <;> exact absurd h (by decide)

/-- No modifier starts where the method, or else the closing line, does. -/
theorem head_of_body {method data body tail : Bytes} (h : BodySpelled method data body)
    (htail : body = [] → ∃ behind, tail = closingLine ++ behind) :
    ∃ b behind, body ++ tail = b :: behind ∧ Operator.ofGlyph? b = none := by
  -- the method starts with a byte of a keyword
  have hmethod : ∀ {word tail : Bytes}, isKeyword word →
      ∃ b behind, word ++ tail = b :: behind ∧ Operator.ofGlyph? b = none := by
    intro word tail hkey
    obtain ⟨hne, hall⟩ := isKeyword_iff.1 hkey
    cases word with
    | nil => exact absurd rfl hne
    | cons b word => exact ⟨b, word ++ tail, rfl, ofGlyph?_of_isKeyword (hall b (by simp))⟩
  cases h with
  | absent =>
    obtain ⟨behind, rfl⟩ := htail rfl
    exact ⟨Byte.pipe, Byte.lineFeed :: behind, rfl, by decide⟩
  | method hkey =>
    rw [List.append_assoc]
    exact hmethod hkey
  | data hkey =>
    rw [List.append_assoc, List.append_assoc]
    exact hmethod hkey

/-- Modifiers and a body that are spelled are read. -/
theorem parses_entities {ms : List Modifier} {method data entity body : Bytes}
    (hmode : s.announced = none → ending s.mode = closingLine) (hpart : s.part = .content)
    (ho : s.owed = .nothing) (hentity : Series EntitySpelled ms entity)
    (hbody : BodySpelled method data body) (hmeasure : s.Measures (entity ++ body).length)
    (hlines : s.announced = none → [Byte.pipe] ∉ Bytes.split Byte.lineFeed data) :
    s.Parses (entity ++ body ++ ending s.mode) rest
      (ms.map .entity ++ bodyUnits method data) := by
  induction hentity generalizing s with
  | nil =>
    by_cases hfull : s.isFull = true
    -- the content is full, so no method follows
    · have hnone := hmeasure.eq_zero hfull
      cases hbody with
      | absent =>
        refine .skip (.full ho hpart hfull) ?_
        exact (parses_closing_iff (by rfl) (by exact ho)).2 ⟨rfl, rfl, hmeasure⟩
      | method => simp at hnone
      | data => simp at hnone
    · have hfull : s.isFull = false := by simpa using hfull
      -- some content is left, or its length is not told and the closing line follows
      have hending : s.announced = none ∨ body = [] → ending s.mode = closingLine := by
        rintro (hann | rfl)
        · exact hmode hann
        · cases hann : s.announced with
          | none => exact hmode hann
          | some announced =>
            have hsum := hmeasure announced hann
            have hlt := isFull_eq_false_iff.1 hfull announced hann
            exact absurd hsum (Nat.ne_of_lt hlt)
      obtain ⟨b, behind, hi, hb⟩ := head_of_body hbody fun hnil =>
        ⟨rest, congrArg (· ++ rest) (hending (.inr hnil))⟩
      have hmove : s.Moves [] (body ++ ending s.mode ++ rest) { s with part := .method } := by
        rw [List.append_assoc, hi]
        exact .content ho hpart hfull hb
      exact .skip hmove (@parses_body { s with part := .method } _ _ _ _ rfl ho hbody hmeasure
        hlines hending)
  | @cons m ms text entity hm _ ih =>
    -- the line of a modifier is not empty, so the content is not full in front of it
    have hfull : s.isFull = false := hmeasure.not_full (by
      have hpos := hm.length_pos
      simp only [List.length_append]
      omega)
    have htext : text ++ entity ++ body ++ ending s.mode =
        text ++ (entity ++ body ++ ending s.mode) := by
      simp only [List.append_assoc]
    rw [htext, List.map_cons, List.cons_append]
    have hrest : s.Measures (text.length + (entity ++ body).length) := by
      rw [← List.length_append, ← List.append_assoc]
      exact hmeasure
    cases hm with
    | plain hm =>
      refine .unit (fun he => by cases he) (.content ho hpart hfull (.plain hm)) ?_
      exact @ih { s.consume text.length with owed := .nothing } hmode hpart rfl
        (measures_consume hrest) hlines
    | @counted oper name value digits hkey hnum =>
      -- the modifier is a part of the content, so there is room for it
      have hroom : s.HasRoom ((countedHead oper name digits).length + value.length + 1) := by
        intro announced ha
        have hsum := hrest announced ha
        simp only [countedHead, List.length_append, List.length_cons, List.length_nil] at hsum ⊢
        omega
      have hline : oper.glyph :: name ++ Byte.space :: digits ++ Byte.tab :: value ++
          [Byte.lineFeed] = countedHead oper name digits ++ value ++ [Byte.lineFeed] := by
        simp [countedHead]
      rw [hline] at hrest ⊢
      rw [List.append_assoc _ [Byte.lineFeed]]
      refine .unit (fun he => by cases he) (.content ho hpart hfull (.counted hkey hnum hroom)) ?_
      -- the line feed behind the value is read on its own
      refine (parses_lineFeed_iff (by rfl)).2 ⟨entity ++ body ++ ending s.mode, rfl, ?_⟩
      refine @ih { (s.consume (countedHead oper name digits ++ value).length).consume 1 with
        owed := .nothing } hmode hpart rfl (fun announced ha => ?_) hlines
      have hsum := hrest announced ha
      simp only [consume, List.length_append, List.length_cons, List.length_nil] at hsum ⊢
      omega

/-! ### The whole content -/

/-- The content from this state on belongs to a packet, of which the header is left out. -/
structure Awaits (s : State) (p : Received) (content : Bytes) : Prop where
  /-- The bytes are written for the fields. -/
  spelled : ContentSpelled p content
  /-- The header is left out. -/
  routing : p.routing = []
  /-- A state action comes first. -/
  state : s.consumed ≠ 0 → p.state = .none
  /-- The length is the one that was told. -/
  measures : s.Measures content.length
  /-- Where no length was told, the data do not close the packet. -/
  lines : s.announced = none → [Byte.pipe] ∉ Bytes.split Byte.lineFeed p.data

/-- Behind the first byte of the content there is no state action. -/
theorem Awaits.state_eq_none {p : Received} {content : Bytes} (hn : 0 < n)
    (h : State.Awaits { s.consume n with owed := .nothing } p content) : p.state = .none :=
  h.state (Nat.ne_of_gt (Nat.add_pos_right _ hn))

/-- The state action comes in front of what else is awaited. -/
theorem Awaits.state_cons {p : Received} {content action : Bytes} {state : StateAction}
    (hstate : StateSpelled state action) (hlen : action.length = 2) (hc : s.consumed = 0)
    (h : State.Awaits { s.consume 2 with owed := .nothing } p content) :
    s.Awaits { p with state } (action ++ content) ∧
      Received.units { p with state } = Received.stateUnits state ++ p.units := by
  have hp := h.state_eq_none Nat.two_pos
  obtain ⟨⟨hstate', hentity, hbody, hraw⟩, hrouting, -, hmeasure, hlines⟩ := h
  rw [hp] at hstate'
  cases hstate'
  refine ⟨⟨?_, hrouting, fun hne => absurd hc hne, fun announced ha => ?_, hlines⟩, ?_⟩
  · rw [List.nil_append, ← List.append_assoc]
    exact .mk hstate hentity hbody hraw
  · have hsum := hmeasure announced ha
    rw [List.length_append, hlen]
    simp only [consume] at hsum
    omega
  · simp [Received.units, hrouting, hp, Received.stateUnits]

/-- A modifier comes in front of what else is awaited. -/
theorem Awaits.entity_cons {p : Received} {content line : Bytes} {m : Modifier}
    (hm : EntitySpelled m line) (hlen : line.length = n)
    (h : State.Awaits { s.consume n with owed := .nothing } p content) :
    s.Awaits { p with entity := m :: p.entity } (line ++ content) ∧
      Received.units { p with entity := m :: p.entity } = .entity m :: p.units := by
  have hp := h.state_eq_none (hlen ▸ hm.length_pos)
  obtain ⟨⟨hstate, hentity, hbody, hraw⟩, hrouting, -, hmeasure, hlines⟩ := h
  rw [hp] at hstate
  cases hstate
  refine ⟨⟨?_, hrouting, fun _ => hp, fun announced ha => ?_, hlines⟩, ?_⟩
  · rw [List.nil_append, ← List.append_assoc]
    exact @ContentSpelled.mk _ [] _ _ (hp ▸ .none) (.cons hm hentity) hbody hraw
  · have hsum := hmeasure announced ha
    rw [List.length_append, hlen]
    simp only [consume] at hsum
    omega
  · simp [Received.units, hrouting, hp, Received.stateUnits]

/-- A packet with just a body has the units of the body. -/
theorem units_of_body (method data : Bytes) :
    Received.units { method, data } = bodyUnits method data := by
  simp [Received.units, Received.stateUnits, bodyUnits]

/-- What is read from the content on is awaited there. -/
theorem awaits_of_parses (h : s.Parses text rest es) (hmode : s.mode = .whole)
    (hpart : s.part = .content) (ho : s.owed = .nothing) :
    ∃ p content, s.Awaits p content ∧ text = content ++ closingLine ∧ es = p.units := by
  induction hn : text.length using Nat.strongRecOn generalizing s text es with
  | ind n ih =>
    have hbody : ∀ {method data body}, BodySpelled method data body →
        ContentSpelled { method, data } body := fun hb =>
      @ContentSpelled.mk { method := _, data := _ } [] [] _ .none .nil hb rfl
    cases h with
    | complete hreads =>
      obtain ⟨-, owed, hunit, -⟩ := hreads.inv ho hpart
      cases hunit
    | move hm h =>
      obtain ⟨rfl, ⟨-, rfl⟩ | ⟨-, rfl, -⟩⟩ := hm.inv ho hpart
      · obtain ⟨rfl, rfl, hexact⟩ := (parses_closing_iff (by rfl) (by exact ho)).1 h
        exact ⟨{}, [], ⟨hbody .absent, rfl, fun _ => rfl, hexact, fun _ => by decide⟩,
          by rw [hmode]; rfl, rfl⟩
      · obtain ⟨method, data, body, hb, hmeasure, hlines, rfl, rfl⟩ :=
          body_of_parses h hmode rfl ho
        exact ⟨{ method, data }, body, ⟨hbody hb, rfl, fun _ => rfl, hmeasure, hlines⟩, rfl,
          (units_of_body method data).symm⟩
    | @unit _ _ front behind rest e es he hreads h =>
      obtain ⟨-, owed, hunit, rfl⟩ := hreads.inv ho hpart
      -- a state action is two bytes, and the content behind them is that of the induction
      have haction : ∀ {state : StateAction} {action : Bytes}, StateSpelled state action →
          action.length = 2 → s.consumed = 0 → front = action →
          Parses { s.consume 2 with owed := .nothing } behind rest es →
          ∃ p content, s.Awaits p content ∧ front ++ behind = content ++ closingLine ∧
            Received.stateUnits state ++ es = p.units := by
        rintro state action hstate hlen hc rfl hrest
        obtain ⟨p, content, hp, rfl, rfl⟩ := ih behind.length
          (by rw [← hn, List.length_append]; omega) hrest hmode hpart rfl rfl
        obtain ⟨hp, hunits⟩ := hp.state_cons hstate hlen hc
        exact ⟨_, _, hp, (List.append_assoc ..).symm, hunits.symm⟩
      generalize hbehind : behind ++ rest = input at hunit
      cases hunit with
      | reset hc => exact haction .reset rfl hc rfl h
      | resync hc => exact haction .resync rfl hc rfl h
      | plain hm =>
        have hpos := (EntitySpelled.plain hm).length_pos
        obtain ⟨p, content, hp, rfl, rfl⟩ :=
          ih behind.length (by rw [← hn, List.length_append]; omega) h hmode hpart rfl rfl
        obtain ⟨hp, hunits⟩ := hp.entity_cons (.plain hm) rfl
        exact ⟨_, _, hp, (List.append_assoc ..).symm, hunits.symm⟩
      | @counted oper name digits value _ hkey hnum hroom =>
        obtain ⟨text, rfl, h'⟩ := (parses_lineFeed_iff (by rfl)).1 h
        obtain ⟨p, content, hp, rfl, rfl⟩ :=
          ih text.length (by rw [← hn]; simp; omega) h' hmode hpart rfl rfl
        -- the value and its line feed count as one line
        have hline : State.Awaits
            { s.consume ((countedHead oper name digits ++ value).length + 1) with owed := .nothing }
            p content := hp
        have hm : EntitySpelled ⟨oper, name, value⟩
            (countedHead oper name digits ++ value ++ [Byte.lineFeed]) := by
          have hcounted := @EntitySpelled.counted oper name value digits hkey hnum
          simpa [countedHead] using hcounted
        obtain ⟨hp', hunits⟩ := hline.entity_cons hm List.length_append
        exact ⟨_, _, hp', by simp, hunits.symm⟩
      | opening =>
        obtain ⟨rfl, rfl⟩ := List.append_eq_nil_iff.1 hbehind
        exact absurd h (not_parses_of_open ⟨_, _, rfl⟩)

/-- Content that is awaited is parsed, in any mode. -/
theorem Awaits.parses {p : Received} {content : Bytes} (h : s.Awaits p content)
    (hmode : s.announced = none → ending s.mode = closingLine) (hpart : s.part = .content)
    (ho : s.owed = .nothing) : s.Parses (content ++ ending s.mode) rest p.units := by
  obtain ⟨hspelled, hrouting, hstate, hmeasure, hlines⟩ := h
  cases hspelled with
  | @mk action entity body haction hentity hbody hraw =>
    have hunits : p.units = Received.stateUnits p.state ++
        (p.entity.map .entity ++ bodyUnits p.method p.data) := by
      simp [Received.units, hrouting, hraw, bodyUnits]
    -- the action is read on its own, and then what is left of the content
    have hunit : ∀ {e : Event}, p.state ≠ .none → action.length = 2 → e ≠ .complete →
        (s.consumed = 0 → ContentUnit s action (entity ++ body ++ ending s.mode ++ rest) e
          .nothing) →
        s.Parses (action ++ (entity ++ body ++ ending s.mode)) rest
          (e :: (p.entity.map .entity ++ bodyUnits p.method p.data)) := by
      intro e hne hlen he hunit
      have hc : s.consumed = 0 := Decidable.of_not_not fun hc => hne (hstate hc)
      have hrest : s.Measures (action.length + (entity ++ body).length) := by
        rw [← List.length_append, ← List.append_assoc]
        exact hmeasure
      have hfull := hrest.not_full (by omega)
      refine .unit he (.content ho hpart hfull (hunit hc)) ?_
      exact @parses_entities { s.consume action.length with owed := .nothing } _ _ _ _ _ _ hmode
        hpart rfl hentity hbody (measures_consume hrest) hlines
    rw [hunits, List.append_assoc, List.append_assoc, ← List.append_assoc entity]
    cases hs : p.state with
    | none =>
      rw [hs] at haction
      cases haction
      exact parses_entities hmode hpart ho hentity hbody hmeasure hlines
    | reset =>
      rw [hs] at haction
      cases haction
      exact hunit (by rw [hs]; decide) rfl (fun he => by cases he) .reset
    | resync =>
      rw [hs] at haction
      cases haction
      exact hunit (by rw [hs]; decide) rfl (fun he => by cases he) .resync

/-- From the content on, a packet is read just where it is spelled. -/
theorem parses_content_iff (hmode : s.mode = .whole) (hpart : s.part = .content)
    (ho : s.owed = .nothing) :
    s.Parses text rest es ↔
      ∃ p content, s.Awaits p content ∧ text = content ++ closingLine ∧ es = p.units := by
  have hending : ending s.mode = closingLine := by rw [hmode]; rfl
  refine ⟨fun h => awaits_of_parses h hmode hpart ho, ?_⟩
  rintro ⟨p, content, hp, rfl, rfl⟩
  rw [← hending]
  exact hp.parses (fun _ => hending) hpart ho

end State

end PacketWire.Packet
