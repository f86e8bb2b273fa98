import PacketWire.Proofs.Packet.Advance
import PacketWire.Proofs.Packet.Content
import PacketWire.Proofs.Packet.Grammar
import PacketWire.Proofs.Packet.Unended

namespace PacketWire.Packet

open Scan

/-!
# Content of announced length

A parser that is told how long the content is needs no more bytes than these and the end of the
packet to come to an end with it, unless they end with a line that starts inside the content and has
not ended (`HoldsUnended`). Then it asks for more bytes, however many have come: the scans for the
parts of a line do not know how long the content is, and only the next unit is checked against it.
-/

variable {s t : State} {announced : Nat} {input text rest tail line : Bytes} {m : Modifier}
  {e : Event} {owed : Owed} {end? : LineEnd}

/-- Going on through parts leads on. -/
theorem leads_of_goesTo (h : s.GoesTo text rest t) : machine.Leads s (text ++ rest) t rest := by
  have hstep : machine.step s (text ++ rest) =
      (machine.step t ((text ++ rest).drop text.length)).shift text.length := by
    rw [List.drop_left]
    exact step_of_goesTo h
  have hleads := Machine.Leads.of_shift hstep
  rwa [List.drop_left] at hleads

/-- A single move leads on. -/
theorem leads_of_moves (h : s.Moves text rest t) : machine.Leads s (text ++ rest) t rest :=
  leads_of_goesTo (.of_move h)

/-- A unit that does not complete the packet leads on. -/
theorem leads_of_reads (h : s.Reads text rest e t) (hne : e ≠ .complete) :
    machine.Leads s (text ++ rest) t rest := by
  have hleads := Machine.Leads.of_emit (m := machine) (step_of_reads h) (beq_eq_false_iff_ne.2 hne)
  rwa [List.drop_left] at hleads

namespace State

/-! ### The end of the content -/

/-- At the closing line the parser comes to an end once the line is there. -/
theorem ends_closing (hpart : s.part = .closing) (ho : s.owed = .nothing)
    (h : s.IsExact → (ending s.mode).length ≤ input.length) : machine.Ends s input := by
  have hs : { s with part := .closing } = s := by rw [← hpart]
  have hstep : machine.step s input = Step.ofScan (scanClosing s) s input := by
    show step s input = _
    rw [step_of_nothing ho, readPart, hpart]
    show readClosing s input = _
    rw [readClosing, hs]
  cases hscan : scanClosing s input with
  | more => exact absurd hscan (scanClosing_ne_more h)
  | fault f => exact .of_fault (hstep.trans (Step.andThen_of_fault hscan))
  | done found n =>
    obtain ⟨e, t⟩ := found
    obtain ⟨-, rfl, -⟩ := scanClosing_eq_done_iff.1 hscan
    exact .of_final (hstep.trans (Step.ofScan_of_done hscan)) rfl

/-- The line feed behind a value is there, or the input is malformed. -/
theorem ends_of_lineFeed (ho : s.owed = .lineFeed end?) (hne : input ≠ []) :
    machine.Ends s input ∨ ∃ rest, input = Byte.lineFeed :: rest := by
  cases hscan : (byte Byte.lineFeed end?.cause : Scan Cause Unit) input with
  | more => exact absurd (byte_eq_more_iff.1 hscan) hne
  | fault f =>
    have hstep : machine.step s input = .fault f := by
      show step s input = _
      rw [step, ho]
      exact Step.andThen_of_fault hscan
    exact .inl (.of_fault hstep)
  | done u n =>
    obtain ⟨rfl, rest, rfl⟩ := byte_eq_done_iff.1 hscan
    exact .inr ⟨rest, rfl⟩

/-! ### Inside the content -/

/-- The parser reads content of which the length was told, and nothing is owed. -/
structure AtContent (s : State) (announced : Nat) : Prop where
  /-- A state action or an entity modifier comes next, or the method. -/
  part : s.part = .content
  /-- Nothing is owed. -/
  owed : s.owed = .nothing
  /-- The length was told. -/
  announced : s.announced = some announced

/-- The parser is still at the content when more of it has been read. -/
theorem AtContent.consume (h : s.AtContent announced) (n : Nat) :
    (s.consume n).AtContent announced := ⟨h.part, h.owed, h.announced⟩

/-- A parser that owes nothing is not changed by being told so. -/
theorem AtContent.eq_consume (h : s.AtContent announced) (n : Nat) :
    { s.consume n with owed := .nothing } = s.consume n := by
  obtain ⟨mode, part, ann, consumed, owed⟩ := s
  obtain rfl : owed = .nothing := h.owed
  rfl

/-- Where there is room, the content is not full. -/
theorem AtContent.isFull_eq_false (h : s.AtContent announced) (hroom : s.consumed < announced) :
    s.isFull = false := by
  simp [isFull, h.announced, hroom]

/-- Where there is room, a unit of the content is looked for, and then the method. -/
theorem AtContent.step_eq (h : s.AtContent announced) (hroom : s.consumed < announced) :
    machine.step s input =
      Step.ofScan? (record s .content (scanContent s)) s (readMethod s) input := by
  have hs : { s with part := .content } = s := by rw [← h.part]
  show step s input = _
  rw [step_of_nothing h.owed, readPart, h.part]
  show readContent s input = _
  rw [readContent, if_neg (by simp [h.isFull_eq_false hroom]), hs]

/-- Bytes that fit into the content have room in it. -/
theorem hasRoom_of_le {n : Nat} (hann : s.announced = some announced)
    (hle : s.consumed + n ≤ announced) : s.HasRoom n := by
  intro a ha
  rw [hann] at ha
  cases ha
  exact Nat.le_trans (Nat.min_le_left ..) hle

/-- What has room in content of a length below the largest one fits into it. -/
theorem HasRoom.le {n : Nat} (h : s.HasRoom n) (hann : s.announced = some announced)
    (hbound : announced + 1 < Decimal.bound) : s.consumed + n ≤ announced := by
  have hmin := h announced hann
  omega

/-- A unit that fails is not counted. -/
theorem record_of_fault {part : Part} {scan : Scan Cause (Option (Event × Owed))} {f : Fault Cause}
    (h : scan input = .fault f) : record s part scan input = .fault f := by
  refine bind_of_fault ?_
  rw [measured, h]

/-- A unit that needs more is not counted. -/
theorem record_of_more {part : Part} {scan : Scan Cause (Option (Event × Owed))}
    (h : scan input = .more) : record s part scan input = .more :=
  bind_of_more (measured_eq_more_iff.2 h)

/-- What a step inside the content does: it asks for more in a line that has not ended, meets a
    fault, or reads a unit. -/
theorem AtContent.step_cases (h : s.AtContent announced) (hroom : s.consumed < announced) :
    ((∃ t n, machine.step s input = .wait t n) ∧ Unended input) ∨
      (∃ f, machine.step s input = .fault f) ∨
      (∃ text rest e owed, ContentUnit s text rest e owed ∧ input = text ++ rest) ∨
      ∃ method data rest e owed n, BodyUnit s method data rest e owed ∧
        input = method ++ Byte.lineFeed :: data ++ rest ∧
        n = (method ++ Byte.lineFeed :: data).length ∧
        machine.step s input = .emit e { s.consume n with part := .closing, owed } n := by
  rw [h.step_eq hroom]
  cases hscan : scanContent s input with
  | more =>
    refine .inl ⟨⟨_, _, Step.andThen_of_more (record_of_more hscan)⟩, ?_⟩
    obtain rfl | ⟨oper, tail, -, hunended⟩ := scanContent_eq_more_iff.1 hscan
    · exact .method nofun
    · exact hunended
  | fault f => exact .inr (.inl ⟨f, Step.andThen_of_fault (record_of_fault hscan)⟩)
  | done found n =>
    cases found with
    | some unit =>
      obtain ⟨text, rest, hunit, rfl, -⟩ := scanContent_eq_some_iff.1 hscan
      exact .inr (.inr (.inl ⟨text, rest, _, _, hunit, rfl⟩))
    | none =>
      obtain ⟨rfl, -⟩ := scanContent_eq_none_iff.1 hscan
      rw [Step.ofScan?_of_none (record_of_none hscan), List.drop_zero, Step.shift_zero, readMethod]
      cases hbody : scanBody s input with
      | more =>
        refine .inl ⟨⟨_, _, Step.andThen_of_more (record_of_more hbody)⟩, ?_⟩
        exact .method ((scanBody_eq_more_iff h.announced).1 hbody)
      | fault f => exact .inr (.inl ⟨f, Step.andThen_of_fault (record_of_fault hbody)⟩)
      | done found n =>
        cases found with
        | some unit =>
          obtain ⟨method, data, rest, -, hunit, rfl, rfl⟩ := scanBody_eq_some_iff.1 hbody
          exact .inr (.inr (.inr ⟨method, data, rest, _, _, _, hunit, rfl, rfl,
            Step.ofScan?_of_some (record_of_some hbody)⟩))
        | none =>
          -- the closing line comes too early
          obtain ⟨rfl, -⟩ := scanBody_eq_none_iff.1 hbody
          have hcheck := @scanLengthCheck_of_ne _ input _ h.announced (Nat.ne_of_lt hroom)
          refine .inr (.inl ⟨⟨.lengthMismatch announced s.consumed, 0⟩, ?_⟩)
          rw [Step.ofScan?_of_none (record_of_none hbody), List.drop_zero, Step.shift_zero,
            readClosing]
          exact Step.andThen_of_fault (bind_of_fault hcheck)

/-- A run is inside the content behind a unit of it. -/
theorem AtContent.leads_unit (h : s.AtContent announced) (hroom : s.consumed < announced)
    (hunit : ContentUnit s text rest e owed) :
    machine.Leads s (text ++ rest) { s.consume text.length with owed } rest := by
  have hne : e ≠ .complete := by cases hunit <;> nofun
  exact leads_of_reads (.content h.owed h.part (h.isFull_eq_false hroom) hunit) hne

/-- Behind a modifier of the content a run is inside the content. -/
theorem AtContent.leads_entity (h : s.AtContent announced) (hroom : s.consumed < announced)
    (hm : EntitySpelled m line) (hfits : PlainSpelled m line ∨ s.HasRoom line.length) :
    machine.Leads s (line ++ rest) (s.consume line.length) rest := by
  have hplain : PlainSpelled m line →
      machine.Leads s (line ++ rest) (s.consume line.length) rest := fun hplain => by
    rw [← h.eq_consume]
    exact h.leads_unit hroom (.plain hplain)
  cases hm with
  | plain hm => exact hplain hm
  | @counted oper name value digits hkey hnum =>
    rcases hfits with hm | hfits
    · exact hplain hm
    -- the unit goes up to the value, and the next step starts with the line feed
    have hline :
        oper.glyph :: name ++ Byte.space :: digits ++ Byte.tab :: value ++ [Byte.lineFeed] =
          countedHead oper name digits ++ value ++ [Byte.lineFeed] := by
      simp [countedHead]
    rw [hline, List.length_append, List.length_append] at hfits
    rw [hline, List.append_assoc _ [Byte.lineFeed], List.length_append, ← h.eq_consume]
    exact (h.leads_unit hroom (.counted hkey hnum hfits)).trans (leads_of_moves (.lineFeed rfl))

/-- A state action leads into the content. -/
theorem AtContent.leads_action {action : StateAction} (h : s.AtContent announced)
    (hroom : s.consumed < announced) (hc : s.consumed = 0) (haction : StateSpelled action text) :
    machine.Leads s (text ++ rest) (s.consume text.length) rest := by
  cases haction with
  | none => exact .refl
  | reset =>
    rw [← h.eq_consume]
    exact h.leads_unit hroom (.reset hc)
  | resync =>
    rw [← h.eq_consume]
    exact h.leads_unit hroom (.resync hc)

/-- All of the content has been read. -/
theorem AtContent.ends_of_le (h : s.AtContent announced) (hfull : announced ≤ s.consumed)
    (hlength : announced + (ending s.mode).length ≤ s.consumed + input.length) :
    machine.Ends s input := by
  have hmove : s.Moves [] input { s with part := .closing } :=
    .full h.owed h.part (by simp [isFull, h.announced, hfull])
  refine (leads_of_moves hmove).ends (ends_closing (by rfl) h.owed fun hexact => ?_)
  have hsum : s.consumed = announced := hexact announced h.announced
  show (ending s.mode).length ≤ _
  omega

/-- Behind the method and the data the packet ends, or the input is malformed. -/
theorem AtContent.ends_of_body {method data : Bytes} {n : Nat} (h : s.AtContent announced)
    (hunit : BodyUnit s method data rest e owed) (hn : n = (method ++ Byte.lineFeed :: data).length)
    (hstep : machine.step s (method ++ Byte.lineFeed :: data ++ rest) =
      .emit e { s.consume n with part := .closing, owed } n)
    (hlength : announced + (ending s.mode).length ≤ s.consumed + (n + rest.length)) :
    machine.Ends s (method ++ Byte.lineFeed :: data ++ rest) := by
  have hne : machine.isFinal e = false := by cases hunit <;> rfl
  refine (Machine.Leads.of_emit hstep hne).ends ?_
  rw [hn, List.drop_left, ← hn]
  simp only [List.length_append, List.length_cons] at hn
  cases hunit with
  | lines hann => rw [h.announced] at hann; cases hann
  | bare hann =>
    obtain rfl := Option.some.inj (h.announced.symm.trans hann)
    refine ends_closing (by rfl) (by rfl) fun _ => ?_
    show (ending s.mode).length ≤ _
    simp at hn
    omega
  | counted hann =>
    obtain rfl := Option.some.inj (h.announced.symm.trans hann)
    have hrest : rest ≠ [] := by
      rintro rfl
      simp at hlength
      omega
    have howed : machine.Ends { s.consume n with part := .closing, owed := .lineFeed .body } rest ∨
        ∃ behind, rest = Byte.lineFeed :: behind := ends_of_lineFeed rfl hrest
    obtain hends | ⟨behind, rfl⟩ := howed
    · exact hends
    · refine (leads_of_moves (.lineFeed rfl)).ends (ends_closing (by rfl) (by rfl) fun _ => ?_)
      show (ending s.mode).length ≤ _
      simp at hlength
      omega
  | opening hann hlt =>
    -- all bytes of the content have come, so no value is cut
    obtain rfl := Option.some.inj (h.announced.symm.trans hann)
    simp at hlength
    omega

/-- The next line of content of which all bytes have come ends the packet, has not ended, or is a
    state action or an entity modifier. -/
theorem AtContent.progress (h : s.AtContent announced) (hroom : s.consumed < announced)
    (hlength : announced + (ending s.mode).length ≤ s.consumed + input.length)
    (hbound : s.consumed + input.length + 1 < Decimal.bound) :
    machine.Ends s input ∨ Unended input ∨
      (s.consumed = 0 ∧ ∃ action line rest, StateSpelled action line ∧ line ≠ [] ∧
        input = line ++ rest ∧ machine.Leads s input (s.consume line.length) rest) ∨
      ∃ m line rest, EntitySpelled m line ∧ input = line ++ rest ∧
        machine.Leads s input (s.consume line.length) rest := by
  obtain ⟨-, hunended⟩ | ⟨f, hfault⟩ | ⟨text, rest, e, owed, hunit, rfl⟩ |
    ⟨method, data, rest, e, owed, n, hunit, rfl, hn, hstep⟩ :=
    @AtContent.step_cases _ _ input h hroom
  · exact .inr (.inl hunended)
  · exact .inl (.of_fault hfault)
  · have hleads := h.leads_unit hroom hunit
    cases hunit with
    | reset hc =>
      exact .inr (.inr (.inl ⟨hc, .reset, _, rest, .reset, nofun, rfl,
        h.leads_action hroom hc .reset⟩))
    | resync hc =>
      exact .inr (.inr (.inl ⟨hc, .resync, _, rest, .resync, nofun, rfl,
        h.leads_action hroom hc .resync⟩))
    | plain hm =>
      exact .inr (.inr (.inr ⟨_, text, rest, .plain hm, rfl,
        h.leads_entity hroom (.plain hm) (.inl hm)⟩))
    | @counted oper name digits value _ hkey hnum hfits =>
      have hle := hfits.le h.announced (by omega)
      simp only [List.length_append] at hlength
      -- the value is inside the content, so there is a byte behind it
      have hrest : rest ≠ [] := by
        rintro rfl
        simp at hlength
        omega
      have howed : machine.Ends { s.consume (countedHead oper name digits ++ value).length with
          owed := .lineFeed .modifier } rest ∨ ∃ behind, rest = Byte.lineFeed :: behind :=
        ends_of_lineFeed rfl hrest
      obtain hends | ⟨behind, rfl⟩ := howed
      · exact .inl (hleads.ends hends)
      · have hm := @EntitySpelled.counted oper name value digits hkey hnum
        have hline : countedHead oper name digits ++ value ++ Byte.lineFeed :: behind =
            oper.glyph :: name ++ Byte.space :: digits ++ Byte.tab :: value ++ [Byte.lineFeed] ++
              behind := by
          simp [countedHead]
        rw [hline]
        refine .inr (.inr (.inr ⟨_, _, behind, hm, rfl, h.leads_entity hroom hm (.inr ?_)⟩))
        refine hasRoom_of_le h.announced ?_
        simp [countedHead] at hle ⊢
        omega
    | opening hkey hnum hfits hlt =>
      -- all bytes of the content have come, so no value is cut
      have hle := hfits.le h.announced (by omega)
      simp at hlength
      omega
  · refine .inl (h.ends_of_body hunit hn hstep ?_)
    rw [hn]
    rwa [List.length_append] at hlength

end State

/-! ### Content that has not ended -/

/-- Fewer bytes than so many are entity modifiers, and all bytes behind them are a line that has not
    ended. -/
def EndsUnended (room : Nat) (input : Bytes) : Prop :=
  ∃ ms entity tail, Series EntitySpelled ms entity ∧ Unended tail ∧ input = entity ++ tail ∧
    entity.length < room

/-- Inside content of so many bytes a line starts that has not ended, behind a state action and
    entity modifiers. -/
def HoldsUnended (announced : Nat) (content : Bytes) : Prop :=
  ∃ action state rest, StateSpelled action state ∧ content = state ++ rest ∧
    EndsUnended (announced - state.length) rest

/-- A line that has not ended, with room in front of it. -/
theorem EndsUnended.of_unended {room : Nat} (h : Unended input) (hroom : 0 < room) :
    EndsUnended room input := ⟨[], [], input, .nil, h, rfl, hroom⟩

/-- A line that has ended may stand in front, if there is room for both. -/
theorem EndsUnended.cons {room : Nat} (hm : EntitySpelled m line)
    (h : EndsUnended (room - line.length) rest) : EndsUnended room (line ++ rest) := by
  obtain ⟨ms, entity, tail, hms, htail, rfl, hlength⟩ := h
  refine ⟨m :: ms, line ++ entity, tail, .cons hm hms, htail, (List.append_assoc ..).symm, ?_⟩
  rw [List.length_append]
  omega

namespace State

/-- A step asks for more in a line that has not ended. -/
theorem AtContent.wait_of_unended (h : s.AtContent announced) (hroom : s.consumed < announced)
    (hunended : Unended input) : ∃ t n, machine.step s input = .wait t n := by
  rw [h.step_eq hroom]
  by_cases hmore : scanContent s input = .more
  · exact ⟨_, _, Step.andThen_of_more (record_of_more hmore)⟩
  -- the line is no modifier, so it is the beginning of a method
  have hnot := mt scanContent_eq_more_iff.2 hmore
  cases hunended with
  | name hall => exact absurd (.inr ⟨_, _, rfl, .name hall⟩) hnot
  | length hname hdigits => exact absurd (.inr ⟨_, _, rfl, .length hname hdigits⟩) hnot
  | value hname hvalue => exact absurd (.inr ⟨_, _, rfl, .value hname hvalue⟩) hnot
  | method hall =>
    cases input with
    | nil => exact absurd (.inl rfl) hnot
    | cons b word =>
      have hnone : scanContent s (b :: word) = .done none 0 := scanContent_eq_none_iff.2
        ⟨rfl, b, word, ofGlyph?_of_isKeyword (hall b List.mem_cons_self), rfl⟩
      rw [Step.ofScan?_of_none (record_of_none hnone), List.drop_zero, Step.shift_zero, readMethod]
      exact ⟨_, _, Step.andThen_of_more
        (record_of_more ((scanBody_eq_more_iff h.announced).2 hall))⟩

/-- A line that has not ended makes the parser ask for more. -/
theorem AtContent.stalls_of_endsUnended (h : s.AtContent announced)
    (hends : EndsUnended (announced - s.consumed) input) : machine.Stalls s input := by
  obtain ⟨ms, entity, tail, hms, htail, rfl, hlength⟩ := hends
  induction hms generalizing s with
  | nil =>
    obtain ⟨t, n, hwait⟩ := h.wait_of_unended (by simp at hlength; omega) htail
    exact .of_wait hwait
  | @cons m ms line entity hm _ ih =>
    rw [List.length_append] at hlength
    have hfits := @hasRoom_of_le s announced line.length h.announced (by omega)
    rw [List.append_assoc]
    refine (h.leads_entity (by omega) hm (.inr hfits)).stalls (ih (h.consume _) ?_)
    show entity.length < announced - (s.consumed + line.length)
    omega

/-- Content of which all bytes have come ends the packet, or ends with a line that has not ended. -/
theorem AtContent.ends_or_endsUnended (h : s.AtContent announced) (hc : s.consumed ≠ 0)
    (hlength : announced + (ending s.mode).length ≤ s.consumed + input.length)
    (hbound : s.consumed + input.length + 1 < Decimal.bound) :
    machine.Ends s input ∨ EndsUnended (announced - s.consumed) input := by
  -- On the number of bytes that are left: every line of the content takes some of them.
  induction hn : input.length using Nat.strongRecOn generalizing s input with
  | ind n ih =>
    by_cases hfull : announced ≤ s.consumed
    · exact .inl (h.ends_of_le hfull hlength)
    obtain hends | hunended | ⟨hzero, -⟩ | ⟨m, line, rest, hm, rfl, hleads⟩ :=
      h.progress (Nat.lt_of_not_le hfull) hlength hbound
    · exact .inl hends
    · exact .inr (.of_unended hunended (by omega))
    · exact absurd hzero hc
    · have hpos := List.length_pos_iff.2 hm.ne_nil
      rw [List.length_append] at hlength hbound hn
      have hsum : (s.consume line.length).consumed = s.consumed + line.length := rfl
      obtain hends | hunended := ih rest.length (by omega) (h.consume line.length) (by omega)
        (show announced + (ending s.mode).length ≤ _ by omega) (by omega) rfl
      · exact .inl (hleads.ends hends)
      · refine .inr (.cons hm ?_)
        rwa [hsum, Nat.sub_add_eq] at hunended

/-- Content that ends with a line that has not ended makes the parser ask for more. -/
theorem AtContent.stalls_of_holdsUnended (h : s.AtContent announced) (hc : s.consumed = 0)
    (hholds : HoldsUnended announced input) : machine.Stalls s input := by
  obtain ⟨action, state, rest, haction, rfl, hends⟩ := hholds
  have hroom : s.consumed < announced := by
    obtain ⟨_, _, _, -, -, -, hlength⟩ := hends
    omega
  refine (h.leads_action hroom hc haction).stalls ((h.consume _).stalls_of_endsUnended ?_)
  have hsum : (s.consume state.length).consumed = s.consumed + state.length := rfl
  rwa [hsum, hc, Nat.zero_add]

/-- Other content does not. -/
theorem AtContent.ends_or_holdsUnended (h : s.AtContent announced) (hc : s.consumed = 0)
    (hlength : announced + (ending s.mode).length ≤ input.length)
    (hbound : input.length + 1 < Decimal.bound) :
    machine.Ends s input ∨ HoldsUnended announced input := by
  by_cases hfull : announced ≤ s.consumed
  · exact .inl (h.ends_of_le hfull (by omega))
  -- behind the first line no state action comes any more
  have hbehind : ∀ {line rest : Bytes}, line ≠ [] → input = line ++ rest →
      machine.Leads s input (s.consume line.length) rest →
        machine.Ends s input ∨ EndsUnended (announced - line.length) rest := by
    rintro line rest hne rfl hleads
    have hpos := List.length_pos_iff.2 hne
    have hsum : (s.consume line.length).consumed = line.length := by
      show s.consumed + line.length = _
      omega
    rw [List.length_append] at hlength hbound
    have hrest := @ends_or_endsUnended _ announced rest (h.consume line.length) (by omega)
      (show announced + (ending s.mode).length ≤ _ by omega) (by omega)
    rw [hsum] at hrest
    exact hrest.imp_left hleads.ends
  obtain hends | hunended | ⟨-, action, line, rest, haction, hne, hi, hleads⟩ |
    ⟨m, line, rest, hm, hi, hleads⟩ :=
    @AtContent.progress _ _ input h (Nat.lt_of_not_le hfull) (by omega) (by omega)
  · exact .inl hends
  · exact .inr ⟨.none, [], input, .none, rfl, .of_unended hunended (by simp; omega)⟩
  · exact (hbehind hne hi hleads).imp_right fun hrest => ⟨action, line, rest, haction, hi, hrest⟩
  · refine (hbehind hm.ne_nil hi hleads).imp_right fun hrest => ⟨.none, [], input, .none, rfl, ?_⟩
    rw [hi]
    exact .cons hm hrest

/-- Content of which all bytes have come leads to an end just if no line in it has not ended. -/
theorem AtContent.ends_iff {front : Bytes} (h : t.AtContent announced) (hc : t.consumed = 0)
    (hleads : machine.Leads s front t input)
    (hlength : announced + (ending t.mode).length ≤ input.length)
    (hbound : input.length + 1 < Decimal.bound) :
    (machine.Ends s front ↔ ¬ HoldsUnended announced input) ∧
      (machine.Stalls s front ↔ HoldsUnended announced input) :=
  Machine.ends_iff_not ((h.ends_or_holdsUnended hc hlength hbound).imp_left hleads.ends)
    fun hholds => hleads.stalls (h.stalls_of_holdsUnended hc hholds)

/-! ### Packets -/

/-- A relay takes the content as it comes. -/
theorem ends_data (hpart : s.part = .data) (ho : s.owed = .nothing)
    (hann : s.announced = some announced) (hc : s.consumed = 0)
    (hlength : announced + (ending s.mode).length ≤ input.length) : machine.Ends s input := by
  -- Without data the closing line is next; else all of the data is taken in one unit.
  by_cases hzero : announced = 0
  · have hmove : s.Moves [] input { s with part := .closing } :=
      .data ho hpart (.inr ⟨announced, hann, by omega⟩)
    refine (leads_of_moves hmove).ends (ends_closing (by rfl) ho fun _ => ?_)
    show (ending s.mode).length ≤ _
    omega
  · have htake : (input.take announced).length = announced := by
      rw [List.length_take]
      omega
    have hunit : DataUnit s (input.take announced) (input.drop announced)
        (.content (input.take announced)) .nothing := by
      refine .counted ?_ ?_
      · rw [hann, htake, hc, Nat.zero_add]
      · exact List.ne_nil_of_length_pos (by omega)
    have hleads := leads_of_reads (.data ho hpart hunit) nofun
    rw [List.take_append_drop] at hleads
    refine hleads.ends (ends_closing (by rfl) (by rfl) fun _ => ?_)
    show (ending s.mode).length ≤ _
    rw [List.length_drop]
    omega

/-- The length line leads to the content. -/
theorem goesTo_length {digits : Bytes} (hpart : s.part = .routing) (ho : s.owed = .nothing)
    (hnum : Numeral announced digits) :
    s.GoesTo (digits ++ [Byte.lineFeed]) rest (s.behindLength (.told announced)) := by
  have hline : LengthUnit (digits ++ [Byte.lineFeed]) rest (.told announced) := .told hnum
  obtain ⟨b, tail, hi, hb⟩ := hline.starts
  have hmove : s.Moves [] (digits ++ [Byte.lineFeed] ++ rest) { s with part := .length } := by
    rw [hi]
    exact .routing ho hpart hb
  have hlength : State.Moves { s with part := .length } (digits ++ [Byte.lineFeed]) rest
      (behindLength { s with part := .length } (.told announced)) := .length ho (by rfl) hline
  rw [← List.nil_append (digits ++ [Byte.lineFeed])]
  exact .move hmove (.of_move hlength)

/-- The header and the length line lead to the content. -/
theorem leads_header {ms : List Modifier} {header digits : Bytes} (hpart : s.part = .routing)
    (ho : s.owed = .nothing) (hms : Series PlainSpelled ms header)
    (hnum : Numeral announced digits) :
    machine.Leads s (header ++ digits ++ Byte.lineFeed :: rest) (s.behindLength (.told announced))
      rest := by
  induction hms with
  | nil =>
    rw [List.nil_append, ← List.singleton_append, ← List.append_assoc]
    exact leads_of_goesTo (goesTo_length hpart ho hnum)
  | cons hm _ ih =>
    rw [List.append_assoc] at ih
    rw [List.append_assoc, List.append_assoc]
    exact (leads_of_reads (.routing ho hpart hm) nofun).trans ih

end State

/-- A line feed behind the last byte but one of the content ends every line that starts in it. -/
theorem not_holdsUnended_of_mem {content : Bytes}
    (h : Byte.lineFeed ∈ content.drop (announced - 1)) : ¬ HoldsUnended announced content := by
  rintro ⟨action, state, rest, -, rfl, ms, entity, tail, -, htail, rfl, hlength⟩
  rw [← List.append_assoc] at h
  -- the line starts in front of the last byte of the content, so the line feed is in it
  have hle : (state ++ entity).length ≤ announced - 1 := by
    rw [List.length_append]
    omega
  rw [List.drop_append, List.drop_of_length_le hle, List.nil_append] at h
  exact htail.notMem (List.mem_of_mem_drop h)

/-- If all bytes of the content and of the end behind it have come, a parser of content comes to an
    end just if no line in the content has not ended, and else asks for more; and so does a parser
    of whole packets behind any header. A relay always comes to an end. With a line feed in the
    place of the last byte of the content or behind it, all of them do. -/
theorem ends_iff_not_holdsUnended {content : Bytes} (hbound : content.length + 1 < Decimal.bound) :
    (announced ≤ content.length →
      (Parser.Ends content (parser (.contentOnly announced)) ↔ ¬ HoldsUnended announced content) ∧
        (Parser.Stalls content (parser (.contentOnly announced)) ↔
          HoldsUnended announced content)) ∧
      (∀ {ms : List Modifier} {header digits : Bytes}, Series PlainSpelled ms header →
        Numeral announced digits → announced + 2 ≤ content.length →
          Parser.Ends (header ++ digits ++ Byte.lineFeed :: content) (parser .routingOnly) ∧
          (Parser.Ends (header ++ digits ++ Byte.lineFeed :: content) (parser .whole) ↔
            ¬ HoldsUnended announced content) ∧
          (Parser.Stalls (header ++ digits ++ Byte.lineFeed :: content) (parser .whole) ↔
            HoldsUnended announced content)) ∧
      (Byte.lineFeed ∈ content.drop (announced - 1) → ¬ HoldsUnended announced content) := by
  refine ⟨fun hlength => ?_, fun {ms header digits} hms hnum hlength => ?_,
    not_holdsUnended_of_mem⟩
  -- A parser of content starts at the content; the other ones get there by the header.
  · have h : (State.initial (.contentOnly announced)).AtContent announced := ⟨rfl, rfl, rfl⟩
    rw [Parser.ends_iff isBounded_machine (Nat.zero_le _),
      Parser.stalls_iff isBounded_machine (Nat.zero_le _)]
    exact h.ends_iff rfl .refl hlength hbound
  · have hleads : ∀ mode : Mode, mode.fixedLength? = none →
        machine.Leads (.initial mode) (header ++ digits ++ Byte.lineFeed :: content)
          ((State.initial mode).behindLength (.told announced)) content := fun mode hmode =>
      State.leads_header (by rw [State.initial, hmode]; rfl) (by rfl) hms hnum
    have h : ((State.initial .whole).behindLength (.told announced)).AtContent announced :=
      ⟨rfl, rfl, rfl⟩
    rw [Parser.ends_iff isBounded_machine (Nat.zero_le _),
      Parser.ends_iff isBounded_machine (Nat.zero_le _),
      Parser.stalls_iff isBounded_machine (Nat.zero_le _)]
    exact ⟨(hleads .routingOnly rfl).ends (State.ends_data rfl rfl rfl rfl hlength),
      h.ends_iff rfl (hleads .whole rfl) hlength hbound⟩

/-- One byte of content was announced, and the method goes on behind it. -/
theorem stalls_in_method :
    Parser.Stalls (Bytes.ofText "aaa") (parser (.contentOnly 1)) ∧
      Parser.Ends (Bytes.ofText "1\naaa") (parser .routingOnly) ∧
      Parser.Stalls (Bytes.ofText "1\naaa") (parser .whole) := by
  obtain ⟨hcontent, hwhole, -⟩ := @ends_iff_not_holdsUnended 1 (Bytes.ofText "aaa") (by decide)
  have hholds : HoldsUnended 1 (Bytes.ofText "aaa") :=
    ⟨.none, [], _, .none, rfl, .of_unended (.method (List.all_eq_true.1 rfl)) Nat.one_pos⟩
  have hnum : Numeral 1 (Bytes.ofText "1") :=
    ⟨by decide, List.forall_mem_singleton.2 (by decide), rfl, by decide⟩
  obtain ⟨hrelay, -, hstalls⟩ := hwhole .nil hnum (by decide)
  exact ⟨(hcontent (by decide)).2.2 hholds, hrelay, hstalls.2 hholds⟩

end PacketWire.Packet
