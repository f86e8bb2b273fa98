import PacketWire.Proofs.Decimal
import PacketWire.Proofs.Packet.Steps
import PacketWire.Proofs.Series

namespace PacketWire.Packet

/-!
# How far a packet has been read

Which of the bytes read belong to the content is told by the bytes alone: those behind the length
line, or all where content comes by itself (`Progress`). They tell it in one way only
(`Progress.unique`). The parser counts these bytes while it reads them; moves and units keep its
counter at their number (`State.Counts`).
-/

/-- The bytes in front of the content, and the length of it that they tell. -/
inductive ContentStarts (mode : Mode) : Bytes → Option Nat → Prop where
  /-- Content that comes by itself. -/
  | alone {length : Nat} : mode.fixedLength? = some length → ContentStarts mode [] (some length)
  /-- The length line is empty. -/
  | untold {ms : List Modifier} {header : Bytes} :
      mode.fixedLength? = none → Series PlainSpelled ms header →
        ContentStarts mode (header ++ [Byte.lineFeed]) none
  /-- The length line is a numeral. -/
  | told {ms : List Modifier} {header digits : Bytes} {length : Nat} :
      mode.fixedLength? = none → Series PlainSpelled ms header → Numeral length digits →
        ContentStarts mode (header ++ digits ++ [Byte.lineFeed]) (some length)

/-- The bytes of a packet that have been read, the length that they tell, and those among them that
    are bytes of the content. -/
inductive Progress (mode : Mode) : Bytes → Option Nat → Bytes → Prop where
  /-- The content has not started. -/
  | before {ms : List Modifier} {taken : Bytes} :
      mode.fixedLength? = none → Series PlainSpelled ms taken → Progress mode taken none []
  /-- The content has started. -/
  | within {front content : Bytes} {announced : Option Nat} :
      ContentStarts mode front announced → Progress mode (front ++ content) announced content

variable {mode : Mode} {m : Modifier} {ms ms' : List Modifier}
  {text rest header header' tail tail' front front' content content' taken : Bytes}
  {announced announced' : Option Nat} {s t : State} {e : Event} {es : List Event}

/-! ### The header -/

/-- A routing modifier starts with this byte. -/
def isGlyph (b : UInt8) : Bool := (Operator.ofGlyph? b).isSome

/-- A routing modifier is a line that starts with a glyph. -/
theorem PlainSpelled.exists_line (h : PlainSpelled m text) :
    ∃ b line, isGlyph b ∧ Byte.lineFeed ∉ b :: line ∧ text = b :: line ++ [Byte.lineFeed] := by
  have hglyph : ∀ oper : Operator, isGlyph oper.glyph ∧ Byte.lineFeed ≠ oper.glyph := by
    intro oper
    cases oper <;> decide
  have hname : ∀ {name : Bytes}, isKeyword name → Byte.lineFeed ∉ name := fun hkey hmem =>
    absurd ((isKeyword_iff.1 hkey).2 _ hmem) (by decide)
  cases h with
  | @bare oper name hkey =>
    exact ⟨_, name, (hglyph oper).1, List.not_mem_cons_of_ne_of_not_mem (hglyph oper).2
      (hname hkey), rfl⟩
  | @valued oper name value hkey hvalue =>
    refine ⟨_, name ++ Byte.tab :: value, (hglyph oper).1,
      List.not_mem_cons_of_ne_of_not_mem (hglyph oper).2 ?_, by simp⟩
    rw [List.mem_append, List.mem_cons, not_or, not_or]
    exact ⟨hname hkey, by decide, hvalue⟩

/-- What does not start with a glyph does not start with a routing modifier. -/
theorem PlainSpelled.append_ne (h : PlainSpelled m text) (htail : Scan.Stops isGlyph tail) :
    text ++ rest ≠ tail := by
  obtain ⟨b, line, hb, -, rfl⟩ := h.exists_line
  rintro rfl
  have hnot : isGlyph b = false := htail b rfl
  rw [hb] at hnot
  cases hnot

/-- There is only one way to tell what comes behind the routing modifiers. -/
theorem behind_header_unique (h : Series PlainSpelled ms header)
    (h' : Series PlainSpelled ms' header') (htail : Scan.Stops isGlyph tail)
    (htail' : Scan.Stops isGlyph tail') (hi : header ++ tail = header' ++ tail') :
    tail = tail' := by
  induction h generalizing ms' header' with
  | nil =>
    cases h' with
    | nil => exact hi
    | cons hline =>
      rw [List.append_assoc] at hi
      exact absurd hi.symm (hline.append_ne htail)
  | cons hline _ ih =>
    cases h' with
    | nil =>
      rw [List.append_assoc] at hi
      exact absurd hi (hline.append_ne htail')
    | cons hline' hrest =>
      -- both lines end at the first line feed
      obtain ⟨b, line, -, hmem, rfl⟩ := hline.exists_line
      obtain ⟨b', line', -, hmem', rfl⟩ := hline'.exists_line
      simp only [List.append_assoc, List.singleton_append] at hi
      obtain ⟨-, hbehind⟩ := Bytes.append_cons_inj_of_notMem hmem hmem' hi
      exact ih hrest hbehind

/-! ### The start of the content -/

/-- Content that comes by itself starts at once. -/
theorem ContentStarts.eq_nil {length : Nat} (h : ContentStarts mode front announced)
    (hmode : mode.fixedLength? = some length) : front = [] ∧ announced = some length := by
  cases h with
  | alone hlength => exact ⟨rfl, hlength.symm.trans hmode⟩
  | untold hnone => rw [hmode] at hnone; cases hnone
  | told hnone => rw [hmode] at hnone; cases hnone

/-- Behind the header the content starts with the end of a line of digits, which tell the length if
    there are any. -/
theorem ContentStarts.exists_digits (h : ContentStarts mode front announced)
    (hmode : mode.fixedLength? = none) :
    ∃ ms header digits, Series PlainSpelled ms header ∧ (∀ b ∈ digits, Byte.isDigit b) ∧
      front = header ++ (digits ++ [Byte.lineFeed]) ∧
      announced = if digits = [] then none else some (Decimal.value digits) := by
  cases h with
  | alone hsome => rw [hmode] at hsome; cases hsome
  | untold _ hheader => exact ⟨_, _, [], hheader, nofun, rfl, rfl⟩
  | @told _ header digits _ _ hheader hnum =>
    refine ⟨_, _, digits, hheader, hnum.isDigit, List.append_assoc .., ?_⟩
    rw [if_neg hnum.nonempty, hnum.value]

/-- No glyph is a digit or a line feed. -/
theorem stops_isGlyph {digits : Bytes} (h : ∀ b ∈ digits, Byte.isDigit b) :
    Scan.Stops isGlyph (digits ++ Byte.lineFeed :: rest) := by
  cases digits with
  | nil => exact Scan.stops_cons_iff.2 (by decide)
  | cons b digits =>
    refine Scan.stops_cons_iff.2 ?_
    have hdigit := h b List.mem_cons_self
    cases hoper : Operator.ofGlyph? b with
    | none => rw [isGlyph, hoper]; rfl
    | some oper =>
      obtain rfl := Operator.ofGlyph?_eq_some_iff.1 hoper
      cases oper <;> exact absurd hdigit (by decide)

/-- The content does not start before the length line has ended. -/
theorem ContentStarts.not_header (h : ContentStarts mode front announced)
    (hmode : mode.fixedLength? = none) : ¬ Series PlainSpelled ms (front ++ content) := by
  intro hms
  obtain ⟨ms', header, digits, hheader, hdigits, rfl, -⟩ := h.exists_digits hmode
  have hnil : [] = digits ++ Byte.lineFeed :: content :=
    behind_header_unique hms hheader Scan.stops_nil (stops_isGlyph hdigits) (by simp)
  exact absurd hnil.symm (by simp)

/-- The content starts at one place only. -/
theorem ContentStarts.unique (h : ContentStarts mode front announced)
    (h' : ContentStarts mode front' announced') (hi : front ++ content = front' ++ content') :
    announced = announced' ∧ content = content' := by
  cases hmode : mode.fixedLength? with
  | some length =>
    obtain ⟨rfl, rfl⟩ := h.eq_nil hmode
    obtain ⟨rfl, rfl⟩ := h'.eq_nil hmode
    exact ⟨rfl, hi⟩
  | none =>
    obtain ⟨ms, header, digits, hheader, hdigits, rfl, rfl⟩ := h.exists_digits hmode
    obtain ⟨ms', header', digits', hheader', hdigits', rfl, rfl⟩ := h'.exists_digits hmode
    have hline : digits ++ Byte.lineFeed :: content = digits' ++ Byte.lineFeed :: content' :=
      behind_header_unique hheader hheader' (stops_isGlyph hdigits) (stops_isGlyph hdigits')
        (by simpa using hi)
    obtain ⟨rfl, -, rfl⟩ := Bytes.append_cons_inj hdigits hdigits' (by decide) (by decide) hline
    exact ⟨rfl, rfl⟩

/-- Bytes that have been read tell in only one way which of them are bytes of the content, and what
    length was told. -/
theorem Progress.unique (h : Progress mode taken announced content)
    (h' : Progress mode taken announced' content') :
    announced = announced' ∧ content = content' := by
  cases h with
  | before hmode hms =>
    generalize hi : taken = taken' at h'
    cases h' with
    | before => exact ⟨rfl, rfl⟩
    | within hstarts' =>
      subst hi
      exact absurd hms (hstarts'.not_header hmode)
  | within hstarts =>
    generalize hi : _ ++ content = taken' at h'
    cases h' with
    | before hmode hms =>
      subst hi
      exact absurd hms (hstarts.not_header hmode)
    | within hstarts' => exact hstarts.unique hstarts' hi

/-! ### The counter -/

namespace State

/-- The counter of a state agrees with the bytes of a packet that have been read, with these
    units. -/
inductive Counts (s : State) : Bytes → List Event → Prop where
  /-- Routing modifiers have been read, or the closing line comes in the place of the length
      line. -/
  | before {ms : List Modifier} {taken : Bytes} :
      s.mode.fixedLength? = none → s.part = .routing ∨ s.part = .length ∨ s.part = .closing →
        s.owed = .nothing → s.announced = none → s.consumed = 0 → Series PlainSpelled ms taken →
        Counts s taken (ms.map .routing)
  /-- The content has started. -/
  | within {front content : Bytes} {es : List Event} :
      s.part ≠ .routing → s.part ≠ .length → ContentStarts s.mode front s.announced →
        s.consumed = content.length → Counts s (front ++ content) es

/-- The counter is the number of the bytes of the content. -/
theorem Counts.exists_progress (h : s.Counts taken es) :
    ∃ content, Progress s.mode taken s.announced content ∧ s.consumed = content.length := by
  cases h with
  | before hmode _ _ hann hzero hms => exact ⟨[], by rw [hann]; exact .before hmode hms, hzero⟩
  | within _ _ hstarts hlength => exact ⟨_, .within hstarts, hlength⟩

/-- Before anything is read nothing is counted. -/
theorem counts_initial : (State.initial mode).Counts [] [] := by
  cases hmode : mode.fixedLength? with
  | none =>
    have hpart : (State.initial mode).part = .routing := by
      rw [initial, hmode]
      rfl
    exact @Counts.before (.initial mode) [] [] hmode (.inl hpart) rfl hmode rfl .nil
  | some length =>
    have hpart : (State.initial mode).part = .content := by
      rw [initial, hmode]
      rfl
    have hstarts : ContentStarts mode [] (State.initial mode).announced := by
      rw [show (State.initial mode).announced = some length from hmode]
      exact .alone hmode
    exact @Counts.within (.initial mode) [] [] [] (by rw [hpart]; nofun) (by rw [hpart]; nofun)
      hstarts rfl

/-- Bytes of the content that are read behind others are counted. -/
theorem counts_consume {part : Part} {owed : Owed}
    (hstarts : ContentStarts s.mode front s.announced) (hlength : s.consumed = content.length)
    (hrouting : part ≠ .routing) (hline : part ≠ .length) :
    Counts { s.consume text.length with part, owed } (front ++ content ++ text) es := by
  rw [List.append_assoc]
  refine .within hrouting hline hstarts ?_
  rw [List.length_append, ← hlength]
  rfl

/-- Moves keep the counter right. -/
theorem Counts.moves (h : s.Counts taken es) (hm : s.Moves text rest t) :
    t.Counts (taken ++ text) es := by
  cases h with
  | before hmode hpart ho hann hzero hms =>
    obtain hp | hp | hp := hpart
    · obtain ⟨rfl, rfl, -⟩ := hm.inv ho hp
      rw [List.append_nil]
      exact .before hmode (.inr (.inl rfl)) ho hann hzero hms
    · obtain ⟨line, hline, rfl⟩ := hm.inv ho hp
      have hcontent : contentPart s.mode ≠ .routing ∧ contentPart s.mode ≠ .length := by
        cases s.mode <;> exact ⟨nofun, nofun⟩
      cases hline with
      | absent =>
        rw [List.append_nil]
        exact .before hmode (.inr (.inr rfl)) ho hann hzero hms
      | untold =>
        rw [← List.append_nil (taken ++ _)]
        exact .within hcontent.1 hcontent.2 (.untold hmode hms) hzero
      | told hnum =>
        rw [← List.append_nil (taken ++ _), ← List.append_assoc]
        exact .within hcontent.1 hcontent.2 (.told hmode hms hnum) hzero
    · exact (hm.inv ho hp).elim
  | @within front content _ hrouting hline hstarts hlength =>
    -- all moves but the one over a line feed take nothing
    have hskip : ∀ {part : Part}, part ≠ .routing → part ≠ .length →
        Counts { s with part } (front ++ content ++ []) es := fun hrouting hline => by
      rw [List.append_nil]
      exact .within hrouting hline hstarts hlength
    cases hm with
    | lineFeed =>
      have hone : Counts { s.consume [Byte.lineFeed].length with owed := .nothing }
          (front ++ content ++ [Byte.lineFeed]) es := counts_consume hstarts hlength hrouting hline
      exact hone
    | routing _ hp => exact absurd hp hrouting
    | length _ hp => exact absurd hp hline
    | full => exact hskip (by nofun) (by nofun)
    | content => exact hskip (by nofun) (by nofun)
    | method => exact hskip (by nofun) (by nofun)
    | data => exact hskip (by nofun) (by nofun)

/-- A unit that is not the end of the packet keeps the counter right. -/
theorem Counts.reads (h : s.Counts taken es) (hr : s.Reads text rest e t) (he : e ≠ .complete) :
    t.Counts (taken ++ text) (es ++ [e]) := by
  cases h with
  | @before ms _ hmode hpart ho hann hzero hms =>
    -- In front of the content there are modifiers of the header, and these do not count.
    obtain hp | hp | hp := hpart
    · obtain ⟨rfl, m, hm, rfl⟩ := hr.inv ho hp
      have hmap : ms.map .routing ++ [Event.routing m] = (ms ++ [m]).map .routing := by simp
      rw [hmap]
      exact .before hmode (.inl hp) ho hann hzero (hms.concat hm)
    · exact (hr.inv ho hp).elim
    · obtain ⟨-, -, rfl, -⟩ := hr.inv ho hp
      exact absurd rfl he
  | within hrouting hline hstarts hlength =>
    cases hr with
    | piece => exact counts_consume hstarts hlength hrouting hline
    | routing _ hp => exact absurd hp hrouting
    | content => exact counts_consume hstarts hlength hrouting hline
    | body => exact counts_consume hstarts hlength (by nofun) (by nofun)
    | data => exact counts_consume hstarts hlength (by nofun) (by nofun)
    | closing => exact absurd rfl he

end State

end PacketWire.Packet
