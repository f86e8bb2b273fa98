import PacketWire.Packet.Parser
import PacketWire.Proofs.Packet.Found

namespace PacketWire.Packet

open Scan

/-!
# Units of the content

A state action or an entity modifier is told by a relation between its text, the bytes behind it,
the unit, and what is owed behind it (`ContentUnit`). The scan of the content finds exactly these
(`scanContent_eq_some_iff`), and where there is none the next byte is no glyph
(`scanContent_eq_none_iff`).
-/

variable {s : State} {input text rest : Bytes} {n length : Nat} {e : Event} {owed : Owed}
  {oper : Operator}

/-! ### Content -/

/-- So many more bytes, the ones of a value among them, may come in the content. -/
def State.HasRoom (s : State) (n : Nat) : Prop :=
  ∀ announced, s.announced = some announced →
    min (s.consumed + n) (Decimal.bound - 1) ≤ announced

/-- Adding within the cap one after the other is adding and then capping. -/
theorem cappedAdd_cappedAdd_one {consumed head : Nat} :
    Decimal.cappedAdd (Decimal.cappedAdd (consumed + head) length) 1 =
      min (consumed + (head + length + 1)) (Decimal.bound - 1) := by
  simp only [Decimal.cappedAdd]
  omega

/-- The check passes just if there is room. -/
theorem scanRoom_eq_done_iff {head : Nat} {u : Unit} :
    scanRoom s head length input = .done u n ↔ n = 0 ∧ s.HasRoom (head + length + 1) := by
  rw [scanRoom, State.HasRoom]
  cases s.announced with
  | none =>
    constructor
    · intro h
      cases h
      exact ⟨rfl, nofun⟩
    · rintro ⟨rfl, -⟩
      rfl
  | some announced =>
    -- The sum that is made in two steps is the sum of all three, cut at the largest number.
    simp only [cappedAdd_cappedAdd_one]
    by_cases hlt : announced < min (s.consumed + (head + length + 1)) (Decimal.bound - 1)
    · rw [if_pos hlt]
      constructor
      · intro h
        cases h
      · rintro ⟨-, hroom⟩
        exact absurd (hroom announced rfl) (Nat.not_le_of_lt hlt)
    · rw [if_neg hlt]
      constructor
      · intro h
        cases h
        refine ⟨rfl, fun a ha => ?_⟩
        cases ha
        exact Nat.le_of_not_lt hlt
      · rintro ⟨rfl, -⟩
        rfl

/-- The units of the content up to the method, by the text of a unit and the bytes behind it. -/
inductive ContentUnit (s : State) : Bytes → Bytes → Event → Owed → Prop where
  /-- The first line is just `=`. -/
  | reset {rest : Bytes} :
      s.consumed = 0 → ContentUnit s [61, Byte.lineFeed] rest .stateReset .nothing
  /-- The first line is just `?`. -/
  | resync {rest : Bytes} :
      s.consumed = 0 → ContentUnit s [63, Byte.lineFeed] rest .stateResync .nothing
  /-- A modifier without a length. -/
  | plain {m : Modifier} {text rest : Bytes} :
      PlainSpelled m text → ContentUnit s text rest (.entity m) .nothing
  /-- A modifier with a length, up to the line feed. -/
  | counted {oper : Operator} {name digits value rest : Bytes} :
      isKeyword name → Numeral value.length digits →
        s.HasRoom ((countedHead oper name digits).length + value.length + 1) →
        ContentUnit s (countedHead oper name digits ++ value) rest (.entity ⟨oper, name, value⟩)
          (.lineFeed .modifier)
  /-- A modifier with a length, of the value of which only a part has come. -/
  | opening {oper : Operator} {name digits value : Bytes} {length : Nat} :
      isKeyword name → Numeral length digits →
        s.HasRoom ((countedHead oper name digits).length + length + 1) → value.length < length →
        ContentUnit s (countedHead oper name digits ++ value) []
          (.entityOpening ⟨oper, name, value⟩ length) (.value .entity (length - value.length))

/-- A byte is alone if the content starts with it and a line feed. -/
theorem scanIsAlone_eq_true_iff :
    scanIsAlone s input = .done true n ↔
      n = 0 ∧ s.consumed = 0 ∧ ∃ b rest, input = b :: Byte.lineFeed :: rest := by
  unfold scanIsAlone
  by_cases hc : s.consumed = 0
  · rw [if_pos hc, bind_eq_done_iff]
    constructor
    · rintro ⟨b, j, k, hb, hk, rfl⟩
      obtain ⟨rfl, a, rest, rfl⟩ := peekSecond_eq_done_iff.1 hb
      injection hk with hb hk
      obtain rfl : b = Byte.lineFeed := beq_iff_eq.1 hb
      exact ⟨by omega, hc, a, rest, rfl⟩
    · rintro ⟨rfl, -, b, rest, rfl⟩
      exact ⟨Byte.lineFeed, 0, 0, rfl, rfl, rfl⟩
  · rw [if_neg hc]
    simp [pure_apply, hc]

/-- A byte is not alone behind the start, or in front of another byte. -/
theorem scanIsAlone_eq_false_iff :
    scanIsAlone s input = .done false n ↔
      n = 0 ∧ (s.consumed = 0 → ∃ a b rest, b ≠ Byte.lineFeed ∧ input = a :: b :: rest) := by
  unfold scanIsAlone
  by_cases hc : s.consumed = 0
  · rw [if_pos hc, bind_eq_done_iff]
    constructor
    · rintro ⟨b, j, k, hb, hk, rfl⟩
      obtain ⟨rfl, a, rest, rfl⟩ := peekSecond_eq_done_iff.1 hb
      injection hk with hb hk
      exact ⟨by omega, fun _ => ⟨a, b, rest, beq_eq_false_iff_ne.1 hb, rfl⟩⟩
    · rintro ⟨rfl, h⟩
      obtain ⟨a, b, rest, hb, rfl⟩ := h hc
      refine ⟨b, 0, 0, rfl, ?_, rfl⟩
      rw [beq_eq_false_iff_ne.2 hb]
      rfl
  · rw [if_neg hc]
    simp [pure_apply, hc, eq_comm]

/-- There are two glyphs of state actions. -/
theorem scanStateAction_eq_done_iff {glyph : UInt8} (h : 2 ≤ input.length) :
    scanStateAction glyph input = .done e n ↔
      n = 2 ∧ ((glyph = 61 ∧ e = .stateReset) ∨ (glyph = 63 ∧ e = .stateResync)) := by
  have hskip : ∀ e : Event, (do skip 2; return e : Scan Cause Event) input = .done e 2 :=
    fun e => bind_of_done (skip_of_le h)
  unfold scanStateAction
  by_cases hreset : glyph = 61
  · subst hreset
    show (do skip 2; return Event.stateReset : Scan Cause Event) input = _ ↔ _
    rw [hskip]
    simp [eq_comm, and_comm]
  · by_cases hresync : glyph = 63
    · subst hresync
      show (do skip 2; return Event.stateResync : Scan Cause Event) input = _ ↔ _
      rw [hskip]
      simp [eq_comm, and_comm]
    · have hnone : StateAction.ofGlyph? glyph = none := by
        rw [StateAction.ofGlyph?, if_neg hreset, if_neg hresync]
      rw [hnone]
      simp [hreset, hresync, fault]

/-- Behind the head of a modifier with a length its value is looked for, if there is room. -/
theorem scanEntity_of_head {name digits tail : Bytes} {k : Nat} (hkey : isKeyword name)
    (hnum : Numeral length digits)
    (hroom : s.HasRoom ((countedHead oper name digits).length + length + 1))
    (hvalue : (do
      match ← take length with
      | .whole value => return (.entity ⟨oper, name, value⟩, .lineFeed .modifier)
      | .part value =>
        return (.entityOpening ⟨oper, name, value⟩ length,
          .value .entity (length - value.length)) : Scan Cause (Event × Owed)) tail =
        .done (e, owed) k) :
    scanEntity s oper (countedHead oper name digits ++ tail) =
      .done (e, owed) ((countedHead oper name digits).length + k) := by
  have hhead : scanEntityHead (countedHead oper name digits ++ tail) =
      .done (name, some length) (countedHead oper name digits).length :=
    scanEntityHead_eq_head_iff.2 ⟨digits, tail, hkey, hnum, rfl, rfl⟩
  refine bind_eq_done_iff.2 ⟨((name, some length), _), _, k,
    measured_eq_done_iff.2 ⟨hhead, rfl⟩, ?_, rfl⟩
  rw [List.drop_left]
  exact bind_eq_done_iff.2
    ⟨(), 0, k, scanRoom_eq_done_iff.2 ⟨rfl, hroom⟩, hvalue, (Nat.zero_add k).symm⟩

/-- A modifier without a length is found behind the glyph of its operator. -/
theorem scanEntity_of_plain {m : Modifier} (hm : PlainSpelled m text) :
    scanEntity s m.oper (text ++ rest) = .done (.entity m, .nothing) text.length := by
  obtain ⟨oper, name, value⟩ := m
  obtain ⟨c, behind, k, hc, hi, hname, hvalue, hn⟩ := @scan_of_plainSpelled _ _ _ _ rest hm
  have hdrop : (text ++ rest).drop (name.length + 1) = c :: behind := by
    rw [hi, List.drop_succ_cons, List.drop_left]
  -- what comes behind the name is no space, so no length follows
  have hspace : c ≠ Byte.space := by rcases hc with rfl | rfl <;> decide
  have hhead : scanEntityHead (text ++ rest) = .done (name, none) (name.length + 1) :=
    scanEntityHead_eq_plain_iff.2 ⟨hname, c, behind, hspace, hdrop⟩
  refine bind_eq_done_iff.2 ⟨((name, none), _), _, k, measured_eq_done_iff.2 ⟨hhead, rfl⟩, ?_, hn⟩
  rw [hdrop]
  exact bind_eq_done_iff.2 ⟨value, k, 0, hvalue, rfl, rfl⟩

/-- Behind the glyph of an operator the units with a modifier are found. -/
theorem scanEntity_eq_done_iff {tail : Bytes} :
    scanEntity s oper (oper.glyph :: tail) = .done (e, owed) n ↔
      ∃ text rest, ContentUnit s text rest e owed ∧ e ≠ .stateReset ∧ e ≠ .stateResync ∧
        oper.glyph :: tail = text ++ rest ∧ n = text.length := by
  constructor
  · intro h
    obtain ⟨⟨⟨name, length⟩, used⟩, j, k, hhead, hk, rfl⟩ := bind_eq_done_iff.1 h
    obtain ⟨hhead, rfl⟩ := measured_eq_done_iff.1 hhead
    cases length with
    | none =>
      obtain ⟨value, l, _, hvalue, hpure, rfl⟩ := bind_eq_done_iff.1 hk
      cases hpure
      obtain ⟨hname, -⟩ := scanEntityHead_eq_plain_iff.1 hhead
      obtain ⟨text, rest, hm, hi, hn⟩ := plainSpelled_of_scan hname hvalue
      exact ⟨text, rest, .plain hm, nofun, nofun, hi, by omega⟩
    | some length =>
      obtain ⟨digits, behind, hkey, hnum, hi, rfl⟩ := scanEntityHead_eq_head_iff.1 hhead
      rw [hi, List.drop_left] at hk
      obtain ⟨_, _, l, hscan, hl, rfl⟩ := bind_eq_done_iff.1 hk
      obtain ⟨rfl, hroom⟩ := scanRoom_eq_done_iff.1 hscan
      obtain ⟨portion, i, _, htake, hpure, rfl⟩ := bind_eq_done_iff.1 hl
      -- the value is all there, or cut by the end of the input
      cases portion with
      | whole value =>
        obtain ⟨rfl, rfl, rest, hrest⟩ := take_eq_whole_iff.1 htake
        cases hpure
        rw [List.drop_zero] at hrest
        refine ⟨_, rest, .counted hkey hnum hroom, nofun, nofun, ?_, by simp⟩
        rw [hi, hrest, List.append_assoc]
      | part value =>
        obtain ⟨rfl, rfl, hlt⟩ := take_eq_part_iff.1 htake
        cases hpure
        exact ⟨_, [], .opening hkey hnum hroom hlt, nofun, nofun, by simp [hi], by simp⟩
  · rintro ⟨text, rest, hunit, hreset, hresync, hi, rfl⟩
    rw [hi]
    cases hunit with
    | reset => exact absurd rfl hreset
    | resync => exact absurd rfl hresync
    | @plain m _ _ hm =>
      obtain ⟨_, _, _, -, hi', -⟩ := @scan_of_plainSpelled _ _ _ _ rest hm
      obtain rfl : oper = m.oper := glyph_inj (List.cons.inj (hi.trans hi')).1
      exact scanEntity_of_plain hm
    | @counted oper' name digits value _ hkey hnum hroom =>
      obtain rfl : oper = oper' := glyph_inj (List.cons.inj hi).1
      rw [List.append_assoc, List.length_append]
      refine scanEntity_of_head hkey hnum hroom ?_
      refine bind_eq_done_iff.2 ⟨.whole value, value.length, 0, ?_, rfl, rfl⟩
      exact take_eq_whole_iff.2 ⟨rfl, rfl, rest, rfl⟩
    | @opening oper' name digits value length hkey hnum hroom hlt =>
      obtain rfl : oper = oper' := glyph_inj (List.cons.inj hi).1
      rw [List.append_nil, List.length_append]
      refine scanEntity_of_head hkey hnum hroom ?_
      refine bind_eq_done_iff.2 ⟨.part value, value.length, 0, ?_, rfl, rfl⟩
      exact take_eq_part_iff.2 ⟨rfl, rfl, hlt⟩

/-- The units of the content start with the glyph of an operator, and that of a modifier is not
    alone on its line. -/
theorem ContentUnit.starts (h : ContentUnit s text rest e owed) :
    ∃ oper b tail, text = Operator.glyph oper :: b :: tail ∧
      (e ≠ .stateReset → e ≠ .stateResync → b ≠ Byte.lineFeed) := by
  -- the byte behind the glyph of a modifier is the first one of its name
  have hname : ∀ {oper : Operator} {name tail : Bytes}, isKeyword name →
      ∃ oper' b tail', oper.glyph :: (name ++ tail) = Operator.glyph oper' :: b :: tail' ∧
        (e ≠ .stateReset → e ≠ .stateResync → b ≠ Byte.lineFeed) := by
    intro oper name tail hkey
    obtain ⟨hne, hall⟩ := isKeyword_iff.1 hkey
    cases name with
    | nil => exact absurd rfl hne
    | cons b name =>
      refine ⟨oper, b, name ++ tail, rfl, fun _ _ hb => ?_⟩
      have := hall b (by simp)
      rw [hb] at this
      exact absurd this (by decide)
  cases h with
  | reset => exact ⟨.assign, Byte.lineFeed, [], rfl, fun h => absurd rfl h⟩
  | resync => exact ⟨.query, Byte.lineFeed, [], rfl, fun _ h => absurd rfl h⟩
  | plain hm =>
    cases hm with
    | bare hkey => exact hname hkey
    | valued hkey =>
      rw [List.append_assoc]
      exact hname hkey
  | counted hkey =>
    simp only [countedHead, List.append_assoc, List.cons_append]
    exact hname hkey
  | opening hkey =>
    simp only [countedHead, List.append_assoc, List.cons_append]
    exact hname hkey

/-- Behind a glyph there is a state action or an entity modifier. -/
theorem scanContent_glyph {tail : Bytes} :
    scanContent s (oper.glyph :: tail) =
      (do
        if ← scanIsAlone s then return some (← scanStateAction oper.glyph, .nothing)
        else return some (← scanEntity s oper) : Scan Cause (Option (Event × Owed)))
        (oper.glyph :: tail) := by
  have hpeek : (peek : Scan Cause UInt8) (oper.glyph :: tail) = .done oper.glyph 0 := rfl
  rw [scanContent, bind_of_done hpeek, Outcome.shift_zero, List.drop_zero]
  simp only [Operator.ofGlyph?_glyph]

/-- A state action is found where its glyph is alone on the first line. -/
theorem scanContent_state (hc : s.consumed = 0)
    (h : (oper.glyph = 61 ∧ e = .stateReset) ∨ (oper.glyph = 63 ∧ e = .stateResync)) :
    scanContent s (oper.glyph :: Byte.lineFeed :: rest) = .done (some (e, .nothing)) 2 := by
  rw [scanContent_glyph]
  refine bind_eq_done_iff.2 ⟨true, 0, 2, ?_, ?_, rfl⟩
  · exact scanIsAlone_eq_true_iff.2 ⟨rfl, hc, _, _, rfl⟩
  · refine bind_eq_done_iff.2 ⟨e, 2, 0, ?_, rfl, rfl⟩
    exact (scanStateAction_eq_done_iff (by simp)).2 ⟨rfl, h⟩

/-- A unit of the content is read just where it is spelled. -/
theorem scanContent_eq_some_iff :
    scanContent s input = .done (some (e, owed)) n ↔
      ∃ text rest, ContentUnit s text rest e owed ∧ input = text ++ rest ∧ n = text.length := by
  constructor
  · intro h
    obtain ⟨glyph, j, k, hpeek, hk, rfl⟩ := bind_eq_done_iff.1 h
    obtain ⟨rfl, tail, rfl⟩ := peek_eq_done_iff.1 hpeek
    cases hoper : Operator.ofGlyph? glyph with
    | none =>
      simp only [hoper] at hk
      cases hk
    | some oper =>
      obtain rfl := Operator.ofGlyph?_eq_some_iff.1 hoper
      simp only [hoper] at hk
      obtain ⟨alone, i, l, halone, hl, rfl⟩ := bind_eq_done_iff.1 hk
      cases alone with
      | true =>
        obtain ⟨rfl, hc, b, rest, hi⟩ := scanIsAlone_eq_true_iff.1 halone
        obtain ⟨e', i, l, haction, hpure, rfl⟩ := bind_eq_done_iff.1 hl
        cases hpure
        rw [List.drop_zero] at hi
        obtain ⟨rfl, rfl⟩ := List.cons.inj hi
        obtain ⟨rfl, ⟨hglyph, rfl⟩ | ⟨hglyph, rfl⟩⟩ :=
          (scanStateAction_eq_done_iff (by simp)).1 haction
        · exact ⟨_, rest, .reset hc, by rw [hglyph]; rfl, rfl⟩
        · exact ⟨_, rest, .resync hc, by rw [hglyph]; rfl, rfl⟩
      | false =>
        obtain ⟨rfl, -⟩ := scanIsAlone_eq_false_iff.1 halone
        obtain ⟨found, i, l, hentity, hpure, rfl⟩ := bind_eq_done_iff.1 hl
        cases hpure
        obtain ⟨text, rest, hunit, -, -, hi, rfl⟩ := scanEntity_eq_done_iff.1 hentity
        exact ⟨text, rest, hunit, hi, by omega⟩
  · rintro ⟨text, rest, hunit, rfl, rfl⟩
    -- a modifier's glyph has a name behind it, so it is not taken for a state action
    have hentity : e ≠ .stateReset → e ≠ .stateResync →
        scanContent s (text ++ rest) = .done (some (e, owed)) text.length := by
      intro hreset hresync
      obtain ⟨oper, b, tail, htext, hb⟩ := hunit.starts
      have hi : oper.glyph :: b :: (tail ++ rest) = text ++ rest := by rw [htext]; rfl
      rw [← hi, scanContent_glyph]
      refine bind_eq_done_iff.2 ⟨false, 0, text.length, ?_, ?_, (Nat.zero_add _).symm⟩
      · exact scanIsAlone_eq_false_iff.2 ⟨rfl, fun _ => ⟨_, b, _, hb hreset hresync, rfl⟩⟩
      · refine bind_eq_done_iff.2 ⟨(e, owed), text.length, 0, ?_, rfl, rfl⟩
        exact scanEntity_eq_done_iff.2 ⟨text, rest, hunit, hreset, hresync, hi, rfl⟩
    cases hunit with
    | reset hc => exact @scanContent_state _ _ _ .assign hc (.inl ⟨rfl, rfl⟩)
    | resync hc => exact @scanContent_state _ _ _ .query hc (.inr ⟨rfl, rfl⟩)
    | plain => exact hentity nofun nofun
    | counted => exact hentity nofun nofun
    | opening => exact hentity nofun nofun

/-- There is none just where the next byte is no glyph. -/
theorem scanContent_eq_none_iff :
    scanContent s input = .done none n ↔
      n = 0 ∧ ∃ b rest, Operator.ofGlyph? b = none ∧ input = b :: rest := by
  constructor
  · intro h
    obtain ⟨b, j, k, hpeek, hk, rfl⟩ := bind_eq_done_iff.1 h
    obtain ⟨rfl, tail, rfl⟩ := peek_eq_done_iff.1 hpeek
    cases hoper : Operator.ofGlyph? b with
    | none =>
      simp only [hoper] at hk
      cases hk
      exact ⟨rfl, b, tail, hoper, rfl⟩
    | some oper =>
      simp only [hoper] at hk
      obtain ⟨alone, i, l, halone, hl, rfl⟩ := bind_eq_done_iff.1 hk
      cases alone with
      | true =>
        obtain ⟨_, _, _, _, hpure, rfl⟩ := bind_eq_done_iff.1 hl
        cases hpure
      | false =>
        obtain ⟨_, _, _, _, hpure, rfl⟩ := bind_eq_done_iff.1 hl
        cases hpure
  · rintro ⟨rfl, b, rest, hb, rfl⟩
    refine bind_eq_done_iff.2 ⟨b, 0, 0, peek_eq_done_iff.2 ⟨rfl, rest, rfl⟩, ?_, rfl⟩
    simp only [hb]
    rfl

end PacketWire.Packet
