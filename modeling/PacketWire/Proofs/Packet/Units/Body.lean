import PacketWire.Packet.Parser
import PacketWire.Proofs.Packet.Found

namespace PacketWire.Packet

open Scan

/-!
# Units up to the end of a packet

The method with the data, raw content, the further parts of values and the closing line are told by
relations between their text, the bytes behind it, the unit, and what is owed behind it. The scans
find exactly these (`scanBody_eq_some_iff`, `scanData_eq_some_iff`, `scanPiece_eq_done_iff`,
`scanClosing_eq_done_iff`), and where there is no method and no raw content the next bytes tell so.
-/

variable {s : State} {input : Bytes} {n : Nat} {e : Event} {owed : Owed}

/-! ### The method and the data -/

/-- The unit of a method and its data, by the text behind the line of the method and the bytes
    behind this. -/
inductive BodyUnit (s : State) (method : Bytes) : Bytes → Bytes → Event → Owed → Prop where
  /-- The data are the lines in front of the closing line. -/
  | lines {lines rest : Bytes} :
      s.announced = none → Unclosed lines →
        BodyUnit s method lines (closingLine ++ rest) (.body method lines.dropLast) .nothing
  /-- The content ends with the line of the method. -/
  | bare {rest : Bytes} :
      s.announced = some (s.consumed + method.length + 1) →
        BodyUnit s method [] rest (.body method []) .nothing
  /-- The data reach up to the line feed that ends the content. -/
  | counted {data rest : Bytes} :
      s.announced = some (s.consumed + method.length + data.length + 2) →
        BodyUnit s method data rest (.body method data) (.lineFeed .body)
  /-- Of the data only a part has come. -/
  | opening {data : Bytes} {length : Nat} :
      s.announced = some (s.consumed + method.length + length + 2) → data.length < length →
        BodyUnit s method data [] (.bodyOpening method data length)
          (.value .body (length - data.length))

/-- The data behind a method is read just where it is spelled. -/
theorem scanBodyData_eq_done_iff {method : Bytes} :
    scanBodyData s method (s.consumed + method.length + 1) input = .done (e, owed) n ↔
      ∃ text rest, BodyUnit s method text rest e owed ∧ input = text ++ rest ∧
        n = text.length := by
  unfold scanBodyData
  cases ha : s.announced with
  | none =>
    simp only
    rw [bind_eq_done_iff]
    constructor
    · rintro ⟨lines, j, k, hlines, hpure, rfl⟩
      cases hpure
      obtain ⟨rfl, hu, rest, rfl⟩ := unclosed_of_scanLines hlines
      exact ⟨lines, closingLine ++ rest, .lines ha hu, List.append_assoc .., rfl⟩
    · rintro ⟨text, _, hunit, rfl, rfl⟩
      cases hunit with
      | @lines _ rest _ hu =>
        refine ⟨text, text.length, 0, ?_, rfl, rfl⟩
        rw [← List.append_assoc]
        exact scanLines_of_unclosed hu
      | bare hlen => rw [ha] at hlen; cases hlen
      | counted hlen => rw [ha] at hlen; cases hlen
      | opening hlen => rw [ha] at hlen; cases hlen
  | some announced =>
    simp only
    constructor
    · intro h
      split at h
      · cases h
      · split at h
        · next heq =>
          cases h
          exact ⟨[], input, .bare (ha.trans (congrArg some heq)), rfl, rfl⟩
        · obtain ⟨portion, j, k, htake, hpure, rfl⟩ := bind_eq_done_iff.1 h
          cases portion with
          | whole data =>
            obtain ⟨rfl, hdata, rest, rfl⟩ := take_eq_whole_iff.1 htake
            cases hpure
            refine ⟨data, rest, .counted (ha.trans (congrArg some ?_)), rfl, hdata.symm⟩
            omega
          | part data =>
            obtain ⟨rfl, rfl, hlt⟩ := take_eq_part_iff.1 htake
            cases hpure
            refine ⟨data, [], .opening (ha.trans (congrArg some ?_)) hlt,
              (List.append_nil _).symm, rfl⟩
            omega
    · rintro ⟨text, rest, hunit, rfl, rfl⟩
      cases hunit with
      | lines hlen => rw [ha] at hlen; cases hlen
      | bare hlen =>
        obtain rfl := Option.some.inj (ha.symm.trans hlen)
        rw [if_neg (Nat.lt_irrefl _), if_pos rfl]
        rfl
      | counted hlen =>
        obtain rfl := Option.some.inj (ha.symm.trans hlen)
        rw [if_neg (by omega), if_neg (by omega)]
        refine bind_eq_done_iff.2 ⟨.whole text, text.length, 0, ?_, rfl, rfl⟩
        exact take_eq_whole_iff.2 ⟨by omega, by omega, rest, rfl⟩
      | @opening _ length hlen hlt =>
        obtain rfl := Option.some.inj (ha.symm.trans hlen)
        -- the line of the method and the last line feed are bytes of the content, too
        have hlength : s.consumed + method.length + length + 2 -
            (s.consumed + method.length + 1) - 1 = length := by omega
        rw [if_neg (by omega), if_neg (by omega), hlength, List.append_nil]
        refine bind_eq_done_iff.2 ⟨.part text, text.length, 0, ?_, rfl, rfl⟩
        exact take_eq_part_iff.2 ⟨rfl, rfl, hlt⟩

/-- A body is a method, a line feed and the data behind it. -/
theorem scanBody_eq_some_iff :
    scanBody s input = .done (some (e, owed)) n ↔
      ∃ method text rest, isKeyword method ∧ BodyUnit s method text rest e owed ∧
        input = method ++ Byte.lineFeed :: text ++ rest ∧
        n = (method ++ Byte.lineFeed :: text).length := by
  rw [scanBody, bind_eq_done_iff]
  constructor
  · rintro ⟨⟨method, used⟩, j, k, hword, hk, rfl⟩
    obtain ⟨hword, rfl⟩ := measured_eq_done_iff.1 hword
    obtain ⟨rfl, hall, c, rest, -, rfl⟩ := keyword_eq_done_iff.1 hword
    dsimp only at hk
    split at hk
    · cases hk
    · next hne =>
      rw [List.drop_left] at hk
      obtain ⟨rest', l, hc, hl, rfl⟩ := byte_bind_eq_done_iff.1 hk
      obtain ⟨rfl, rfl⟩ := List.cons.inj hc
      obtain ⟨found, i, _, hdata, hpure, rfl⟩ := bind_eq_done_iff.1 hl
      cases hpure
      obtain ⟨text, behind, hunit, rfl, rfl⟩ := scanBodyData_eq_done_iff.1 hdata
      exact ⟨method, text, behind, isKeyword_iff.2 ⟨by simpa using hne, hall⟩, hunit, by simp,
        by simp⟩
  · rintro ⟨method, text, rest, hkey, hunit, rfl, rfl⟩
    obtain ⟨hne, hall⟩ := isKeyword_iff.1 hkey
    rw [List.append_assoc, List.cons_append]
    refine ⟨(method, method.length), method.length, text.length + 1,
      measured_eq_done_iff.2 ⟨keyword_eq_done_iff.2 ?_, rfl⟩, ?_, by simp⟩
    · exact ⟨rfl, hall, Byte.lineFeed, text ++ rest, by decide, rfl⟩
    · dsimp only
      rw [if_neg (by simpa using hne), List.drop_left]
      refine byte_bind_eq_done_iff.2 ⟨text ++ rest, text.length, rfl, ?_, rfl⟩
      refine bind_eq_done_iff.2 ⟨(e, owed), text.length, 0, ?_, rfl, rfl⟩
      exact scanBodyData_eq_done_iff.2 ⟨text, rest, hunit, rfl, rfl⟩

/-- There is no method just where the next byte starts none. -/
theorem scanBody_eq_none_iff :
    scanBody s input = .done none n ↔
      n = 0 ∧ ∃ b rest, Byte.isKeyword b = false ∧ input = b :: rest := by
  rw [scanBody, bind_eq_done_iff]
  constructor
  · rintro ⟨⟨method, used⟩, j, k, hword, hk, rfl⟩
    obtain ⟨hword, rfl⟩ := measured_eq_done_iff.1 hword
    obtain ⟨rfl, -, c, rest, hc, rfl⟩ := keyword_eq_done_iff.1 hword
    dsimp only at hk
    split at hk
    · next hempty =>
      cases hk
      obtain rfl : method = [] := by simpa using hempty
      exact ⟨rfl, c, rest, hc, rfl⟩
    · rw [List.drop_left] at hk
      obtain ⟨rest', l, -, hl, rfl⟩ := byte_bind_eq_done_iff.1 hk
      obtain ⟨_, _, _, _, hpure, rfl⟩ := bind_eq_done_iff.1 hl
      cases hpure
  · rintro ⟨rfl, b, rest, hb, rfl⟩
    refine ⟨([], 0), 0, 0, measured_eq_done_iff.2 ⟨keyword_eq_done_iff.2 ?_, rfl⟩, rfl, rfl⟩
    exact ⟨rfl, nofun, b, rest, hb, rfl⟩

/-! ### Raw content -/

/-- The unit of raw content, by its text and the bytes behind it. -/
inductive DataUnit (s : State) : Bytes → Bytes → Event → Owed → Prop where
  /-- The lines in front of the closing line. -/
  | lines {lines rest : Bytes} :
      s.announced = none → Unclosed lines → lines ≠ [] →
        DataUnit s lines (closingLine ++ rest) (.content lines) .nothing
  /-- All bytes of the content. -/
  | counted {bytes rest : Bytes} :
      s.announced = some (s.consumed + bytes.length) → bytes ≠ [] →
        DataUnit s bytes rest (.content bytes) .nothing
  /-- The bytes that have come, where some are missing. -/
  | opening {bytes : Bytes} {length : Nat} :
      s.announced = some (s.consumed + length) → bytes ≠ [] → bytes.length < length →
        DataUnit s bytes [] (.contentOpening bytes length)
          (.value .content (length - bytes.length))

/-- Raw content is read just where it is spelled. -/
theorem scanData_eq_some_iff :
    scanData s input = .done (some (e, owed)) n ↔
      ∃ text rest, DataUnit s text rest e owed ∧ input = text ++ rest ∧ n = text.length := by
  unfold scanData
  -- Without a length the content ends with the last line before the closing one; with a length it
  -- is taken as it comes.
  cases ha : s.announced with
  | none =>
    simp only
    rw [bind_eq_done_iff]
    constructor
    · rintro ⟨lines, j, k, hlines, hk, rfl⟩
      obtain ⟨rfl, hu, rest, rfl⟩ := unclosed_of_scanLines hlines
      split at hk
      · cases hk
      · next hne =>
        cases hk
        exact ⟨lines, _, .lines ha hu (by simpa using hne), List.append_assoc .., rfl⟩
    · rintro ⟨text, _, hunit, rfl, rfl⟩
      cases hunit with
      | @lines rest _ hu hne =>
        refine ⟨text, text.length, 0, ?_, ?_, rfl⟩
        · rw [← List.append_assoc]
          exact scanLines_of_unclosed hu
        · rw [if_neg (by simpa using hne)]
          rfl
      | counted hlen => rw [ha] at hlen; cases hlen
      | opening hlen => rw [ha] at hlen; cases hlen
  | some announced =>
    simp only
    constructor
    · intro h
      split at h
      · cases h
      · obtain ⟨portion, j, k, htake, hpure, rfl⟩ := bind_eq_done_iff.1 h
        obtain ⟨hne, htake⟩ := takeOn_eq_done_iff.1 htake
        cases portion with
        | whole bytes =>
          obtain ⟨rfl, hlen, rest, rfl⟩ := take_eq_whole_iff.1 htake
          cases hpure
          refine ⟨bytes, rest, .counted (ha.trans (congrArg some ?_)) ?_, rfl, hlen.symm⟩
          · omega
          · rintro rfl
            simp at hlen
            omega
        | part bytes =>
          obtain ⟨rfl, rfl, hlt⟩ := take_eq_part_iff.1 htake
          cases hpure
          refine ⟨bytes, [], .opening (ha.trans (congrArg some ?_)) hne hlt,
            (List.append_nil _).symm, rfl⟩
          omega
    · rintro ⟨text, rest, hunit, rfl, rfl⟩
      cases hunit with
      | lines hlen => rw [ha] at hlen; cases hlen
      | counted hlen hne =>
        obtain rfl := Option.some.inj (ha.symm.trans hlen)
        have hpos := List.length_pos_iff.2 hne
        rw [Nat.add_sub_cancel_left, if_neg (by omega)]
        refine bind_eq_done_iff.2 ⟨.whole text, text.length, 0, ?_, rfl, rfl⟩
        exact takeOn_eq_done_iff.2 ⟨by simp [hne], take_eq_whole_iff.2 ⟨rfl, rfl, rest, rfl⟩⟩
      | opening hlen hne hlt =>
        obtain rfl := Option.some.inj (ha.symm.trans hlen)
        rw [Nat.add_sub_cancel_left, if_neg (by omega), List.append_nil]
        refine bind_eq_done_iff.2 ⟨.part text, text.length, 0, ?_, rfl, rfl⟩
        exact takeOn_eq_done_iff.2 ⟨hne, take_eq_part_iff.2 ⟨rfl, rfl, hlt⟩⟩

/-- There is none at the closing line, or where the content has its length. -/
theorem scanData_eq_none_iff :
    scanData s input = .done none n ↔
      n = 0 ∧ ((s.announced = none ∧ ∃ rest, input = closingLine ++ rest) ∨
        ∃ announced, s.announced = some announced ∧ announced ≤ s.consumed) := by
  unfold scanData
  cases ha : s.announced with
  | none =>
    simp only
    rw [bind_eq_done_iff]
    constructor
    · rintro ⟨lines, j, k, hlines, hk, rfl⟩
      obtain ⟨rfl, hu, rest, rfl⟩ := unclosed_of_scanLines hlines
      split at hk
      · next hempty =>
        cases hk
        obtain rfl : lines = [] := by simpa using hempty
        exact ⟨rfl, .inl ⟨trivial, rest, rfl⟩⟩
      · cases hk
    · rintro ⟨rfl, ⟨-, rest, rfl⟩ | ⟨_, h, -⟩⟩
      · exact ⟨[], 0, 0, rfl, rfl, rfl⟩
      · cases h
  | some announced =>
    simp only
    constructor
    · intro h
      split at h
      · cases h
        exact ⟨rfl, .inr ⟨announced, rfl, by omega⟩⟩
      · obtain ⟨portion, j, k, -, hpure, rfl⟩ := bind_eq_done_iff.1 h
        cases portion <;> cases hpure
    · rintro ⟨rfl, ⟨h, -⟩ | ⟨_, h, hle⟩⟩
      · cases h
      · cases h
        rw [if_pos (by omega)]
        rfl

/-! ### Further parts of values -/

/-- A further part of a value, by its text and the bytes behind it. -/
inductive PieceUnit (slot : Slot) (missing : Nat) : Bytes → Bytes → Event → Owed → Prop where
  /-- All that is missing. -/
  | last {bytes rest : Bytes} :
      bytes.length = missing → bytes ++ rest ≠ [] →
        PieceUnit slot missing bytes rest (.piece slot bytes true) slot.behind
  /-- A part of what is missing. -/
  | part {bytes : Bytes} :
      bytes ≠ [] → bytes.length < missing →
        PieceUnit slot missing bytes [] (.piece slot bytes false)
          (.value slot (missing - bytes.length))

/-- A further part of a value is read just where it is spelled. -/
theorem scanPiece_eq_done_iff {slot : Slot} {missing : Nat} {t : State} :
    scanPiece s slot missing input = .done (e, t) n ↔
      ∃ text rest owed, PieceUnit slot missing text rest e owed ∧
        t = { s.consume text.length with owed } ∧ input = text ++ rest ∧ n = text.length := by
  rw [scanPiece, bind_eq_done_iff]
  constructor
  · rintro ⟨portion, j, k, htake, hpure, rfl⟩
    obtain ⟨hne, htake⟩ := takeOn_eq_done_iff.1 htake
    cases portion with
    | whole bytes =>
      obtain ⟨rfl, hlen, rest, rfl⟩ := take_eq_whole_iff.1 htake
      cases hpure
      exact ⟨bytes, rest, _, .last hlen hne, rfl, rfl, hlen.symm⟩
    | part bytes =>
      obtain ⟨rfl, rfl, hlt⟩ := take_eq_part_iff.1 htake
      cases hpure
      exact ⟨bytes, [], _, .part hne hlt, rfl, (List.append_nil _).symm, rfl⟩
  · rintro ⟨text, rest, owed, hunit, rfl, rfl, rfl⟩
    cases hunit with
    | last hlen hne =>
      refine ⟨.whole text, text.length, 0, takeOn_eq_done_iff.2 ⟨hne, ?_⟩, rfl, rfl⟩
      exact take_eq_whole_iff.2 ⟨hlen, hlen, rest, rfl⟩
    | part hne hlt =>
      rw [List.append_nil]
      refine ⟨.part text, text.length, 0, takeOn_eq_done_iff.2 ⟨hne, ?_⟩, rfl, rfl⟩
      exact take_eq_part_iff.2 ⟨rfl, rfl, hlt⟩

/-! ### The end of a packet -/

/-- The content has the length that was told, if it was told. -/
def State.IsExact (s : State) : Prop :=
  ∀ announced, s.announced = some announced → s.consumed = announced

/-- The check passes just if the content has its length. -/
theorem scanLengthCheck_eq_done_iff {u : Unit} :
    scanLengthCheck s input = .done u n ↔ n = 0 ∧ s.IsExact := by
  rw [scanLengthCheck, State.IsExact]
  cases s.announced with
  | none =>
    constructor
    · intro h
      cases h
      exact ⟨rfl, nofun⟩
    · rintro ⟨rfl, -⟩
      rfl
  | some announced =>
    simp only [Option.some.injEq, forall_eq']
    by_cases hexact : s.consumed = announced
    · rw [if_pos hexact]
      simp [pure_apply, hexact, eq_comm]
    · rw [if_neg hexact]
      simp [fault, hexact]

/-- Content of another length is a fault. -/
theorem scanLengthCheck_of_ne {announced : Nat} (hann : s.announced = some announced)
    (hne : s.consumed ≠ announced) :
    scanLengthCheck s input = .fault ⟨.lengthMismatch announced s.consumed, 0⟩ := by
  rw [scanLengthCheck, hann]
  exact congrFun (if_neg hne) input

/-- The end of a packet, by its text. Content that comes by itself has no closing line. -/
def ending : Mode → Bytes
  | .contentOnly _ => []
  | _ => closingLine

/-- The closing line is read just where it stands. -/
theorem scanClosingLine_eq_done_iff {u : Unit} :
    scanClosingLine input = .done u n ↔ n = 2 ∧ ∃ rest, input = closingLine ++ rest := by
  rw [scanClosingLine, byte_bind_eq_done_iff]
  constructor
  · rintro ⟨rest, k, rfl, hk, rfl⟩
    obtain ⟨rfl, behind, rfl⟩ := byte_eq_done_iff.1 hk
    exact ⟨rfl, behind, rfl⟩
  · rintro ⟨rfl, rest, rfl⟩
    exact ⟨Byte.lineFeed :: rest, 1, rfl, byte_eq_done_iff.2 ⟨rfl, rest, rfl⟩, rfl⟩

/-- The end is read just where the content has its length and the ending stands. -/
theorem scanClosing_eq_done_iff {t : State} :
    scanClosing s input = .done (e, t) n ↔
      s.IsExact ∧ e = .complete ∧ t = .initial s.mode ∧ n = (ending s.mode).length ∧
        ∃ rest, input = ending s.mode ++ rest := by
  -- in the modes with a closing line
  have hclosing : (do scanClosingLine; return (.complete, .initial s.mode) :
      Scan Cause (Event × State)) input = .done (e, t) n ↔
        e = .complete ∧ t = .initial s.mode ∧ n = 2 ∧ ∃ rest, input = closingLine ++ rest := by
    rw [bind_eq_done_iff]
    constructor
    · rintro ⟨_, j, k, hline, hpure, rfl⟩
      obtain ⟨rfl, rest, hi⟩ := scanClosingLine_eq_done_iff.1 hline
      cases hpure
      exact ⟨rfl, rfl, rfl, rest, hi⟩
    · rintro ⟨rfl, rfl, rfl, rest, hi⟩
      exact ⟨(), 2, 0, scanClosingLine_eq_done_iff.2 ⟨rfl, rest, hi⟩, rfl, rfl⟩
  -- in all modes
  have hmode : (match s.mode with
      | .contentOnly _ => return (.complete, .initial s.mode)
      | _ => do scanClosingLine; return (.complete, .initial s.mode) :
      Scan Cause (Event × State)) input = .done (e, t) n ↔
        e = .complete ∧ t = .initial s.mode ∧ n = (ending s.mode).length ∧
          ∃ rest, input = ending s.mode ++ rest := by
    cases hm : s.mode with
    | whole => rw [hm] at hclosing; exact hclosing
    | routingOnly => rw [hm] at hclosing; exact hclosing
    | contentOnly length =>
      constructor
      · intro h
        cases h
        exact ⟨rfl, rfl, rfl, input, rfl⟩
      · rintro ⟨rfl, rfl, rfl, -⟩
        rfl
  rw [scanClosing, bind_eq_done_iff]
  constructor
  · rintro ⟨_, j, k, hcheck, hk, rfl⟩
    obtain ⟨rfl, hexact⟩ := scanLengthCheck_eq_done_iff.1 hcheck
    exact ⟨hexact, hmode.1 (by rw [Nat.zero_add]; exact hk)⟩
  · rintro ⟨hexact, he, ht, hn, hrest⟩
    exact ⟨(), 0, n, scanLengthCheck_eq_done_iff.2 ⟨rfl, hexact⟩, hmode.2 ⟨he, ht, hn, hrest⟩,
      (Nat.zero_add n).symm⟩

end PacketWire.Packet
