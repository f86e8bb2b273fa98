import PacketWire.Proofs.Resumable.Resume
import PacketWire.Proofs.Scan.Bounded
import PacketWire.Proofs.Scan.More

namespace PacketWire

open Scan

/-!
# The rest of what was cut

Values and keys of told length are taken up part by part, where they come in parts, up to the last
one, which what comes behind it must allow. Where this is so is told by a `Rest`, and that a machine
does it by `Machine.ReadsRest`. A part that is not the last goes on as a longer one
(`Machine.ReadsRest.goesOn`); what was cut before is complete with the last one
(`Machine.ReadsRest.completes`).
-/

variable {σ ε κ : Type}

/-- How the rest of a value or key is taken up. -/
structure Rest (σ ε : Type) where
  /-- The unit of a part, which may be the last. -/
  piece : Bytes → Bool → ε
  /-- The state behind the last part. -/
  next : σ
  /-- The state in which so many bytes are missing. -/
  within : Nat → σ
  /-- The last part may stand in front of these bytes. -/
  Ends : Bytes → Prop

namespace Rest

variable {rest : Rest σ ε} {scanEnd : ε × σ → Scan κ (ε × σ)} {input text behind : Bytes}
  {missing n : Nat} {e : ε} {t : σ}

/-- The text of a part where so many bytes are missing, in front of these bytes, with its unit and
    the state behind it. -/
inductive Unit (rest : Rest σ ε) (missing : Nat) : Bytes → Bytes → ε → σ → Prop where
  /-- A part that is not the last. -/
  | part {value : Bytes} :
      value ≠ [] → value.length < missing →
        Unit rest missing value [] (rest.piece value false) (rest.within (missing - value.length))
  /-- The last part. -/
  | last {value behind : Bytes} :
      value ++ behind ≠ [] → value.length = missing → rest.Ends behind →
        Unit rest missing value behind (rest.piece value true) rest.next

/-- More of what so many bytes are missing of, and what has to come behind it. -/
def scan (rest : Rest σ ε) (scanEnd : ε × σ → Scan κ (ε × σ)) (missing : Nat) :
    Scan κ (ε × σ) := do
  match ← takeOn missing with
  | .part value => return (rest.piece value false, rest.within (missing - value.length))
  | .whole value => scanEnd (rest.piece value true, rest.next)

/-- The rest of a value is read just where a unit of it is spelled. -/
theorem scan_eq_done_iff
    (hend : ∀ {found found' input n}, scanEnd found' input = .done found n ↔
      found = found' ∧ rest.Ends input ∧ n = 0) :
    rest.scan scanEnd missing input = .done (e, t) n ↔
      ∃ text behind, rest.Unit missing text behind e t ∧ input = text ++ behind ∧
        n = text.length := by
  -- The bytes that are missing are all there, and what may come behind them is looked at, or they
  -- are not.
  unfold scan
  rw [bind_eq_done_iff]
  constructor
  · rintro ⟨portion, j, k, htake, hfound, rfl⟩
    obtain ⟨hne, htake⟩ := takeOn_eq_done_iff.1 htake
    cases portion with
    | part value =>
      cases hfound
      obtain ⟨rfl, rfl, hlt⟩ := take_eq_part_iff.1 htake
      exact ⟨value, [], .part hne hlt, (List.append_nil _).symm, rfl⟩
    | whole value =>
      obtain ⟨rfl, hlength, behind, rfl⟩ := take_eq_whole_iff.1 htake
      rw [← hlength, List.drop_left] at hfound
      obtain ⟨hunit, hends, rfl⟩ := hend.1 hfound
      cases hunit
      exact ⟨value, behind, .last hne hlength hends, rfl, hlength.symm⟩
  · rintro ⟨text, behind, hunit, rfl, rfl⟩
    cases hunit with
    | part hne hlt =>
      rw [List.append_nil]
      exact ⟨.part text, text.length, 0,
        takeOn_eq_done_iff.2 ⟨hne, take_eq_part_iff.2 ⟨rfl, rfl, hlt⟩⟩, rfl, rfl⟩
    | last hne hlength hends =>
      refine ⟨.whole text, missing, 0,
        takeOn_eq_done_iff.2 ⟨hne, take_eq_whole_iff.2 ⟨rfl, hlength, behind, rfl⟩⟩, ?_, hlength⟩
      rw [← hlength, List.drop_left]
      exact hend.2 ⟨rfl, hends, rfl⟩

/-- More is asked for just where there is nothing. -/
theorem scan_eq_more_iff (hend : ∀ {found input}, scanEnd found input ≠ .more) :
    rest.scan scanEnd missing input = .more ↔ input = [] := by
  unfold scan
  rw [bind_eq_more_iff, takeOn, bind_eq_more_iff, peek_eq_more_iff]
  constructor
  · rintro ((hnil | ⟨_, _, -, htake⟩) | ⟨portion, _, -, hmore⟩)
    · exact hnil
    · exact absurd htake take_ne_more
    · cases portion with
      | part value => cases hmore
      | whole value => exact absurd hmore hend
  · exact fun hnil => .inl (.inl hnil)

end Rest

namespace Machine

variable {m : Machine σ ε κ} {rest : Rest σ ε} {prepend : ε → List ε → List ε}
  {scanEnd : ε × σ → Scan κ (ε × σ)} {input text behind value back : Bytes} {e e' : ε} {t t' : σ}
  {missing j n : Nat}

/-- A machine takes up the rest of a value or key in this way. -/
structure ReadsRest (m : Machine σ ε κ) (rest : Rest σ ε) : Prop where
  /-- It reads a part, and nothing else. -/
  emit_iff {missing : Nat} {input : Bytes} {e : ε} {t : σ} {n : Nat} :
    m.step (rest.within missing) input = .emit e t n ↔
      ∃ text behind, rest.Unit missing text behind e t ∧ input = text ++ behind ∧ n = text.length
  /-- It needs a byte. -/
  wait_iff {missing : Nat} {input : Bytes} {t : σ} {n : Nat} :
    m.step (rest.within missing) input = .wait t n ↔
      input = [] ∧ t = rest.within missing ∧ n = 0
  /-- A part is not the end. -/
  isFinal_piece (value : Bytes) (isLast : Bool) : m.isFinal (rest.piece value isLast) = false
  /-- What may stand behind the last part may do so in a longer input, or the end comes there. -/
  stable {behind : Bytes} (hends : rest.Ends behind) :
    (∀ back, rest.Ends (behind ++ back)) ∨ m.EndsAt rest.next behind

/-- The parts of what was cut are joined. -/
def JoinsParts (rest : Rest σ ε) (prepend : ε → List ε → List ε) : Prop :=
  ∀ value value' es, prepend (rest.piece value false) (prepend (rest.piece value' true) es) =
    prepend (rest.piece (value ++ value') true) es

namespace ReadsRest

/-- It is enough to know of the scan that it reads units of a rest. -/
theorem of_scan
    (hstep : ∀ missing input, m.step (rest.within missing) input =
      Step.ofScan (rest.scan scanEnd missing) (rest.within missing) input)
    (hdone : ∀ {found found' input n}, scanEnd found' input = .done found n ↔
      found = found' ∧ rest.Ends input ∧ n = 0)
    (hmore : ∀ {found input}, scanEnd found input ≠ .more)
    (hfinal : ∀ value isLast, m.isFinal (rest.piece value isLast) = false)
    (hstable : ∀ {behind}, rest.Ends behind →
      (∀ back, rest.Ends (behind ++ back)) ∨ m.EndsAt rest.next behind) : m.ReadsRest rest where
  emit_iff {missing input e t n} := by
    rw [hstep, Step.ofScan_eq_emit_iff]
    exact Rest.scan_eq_done_iff hdone
  wait_iff {missing input t n} := by
    rw [hstep, Step.ofScan_eq_wait_iff, Rest.scan_eq_more_iff hmore]
  isFinal_piece := hfinal
  stable := hstable

/-- Where anything may stand behind the last part, nothing is looked for there. -/
theorem of_unended
    (hstep : ∀ missing input, m.step (rest.within missing) input =
      Step.ofScan (rest.scan pure missing) (rest.within missing) input)
    (hends : ∀ behind, rest.Ends behind)
    (hfinal : ∀ value isLast, m.isFinal (rest.piece value isLast) = false) : m.ReadsRest rest := by
  refine of_scan hstep ?_ nofun hfinal fun _ => .inl fun _ => hends _
  intro found found' input n
  rw [pure_apply, Outcome.done.injEq, and_iff_right (hends input), eq_comm, @eq_comm _ 0]

/-- Within a value the machine waits where there is nothing. -/
theorem step_nil (h : m.ReadsRest rest) :
    m.step (rest.within missing) [] = .wait (rest.within missing) 0 :=
  h.wait_iff.2 ⟨rfl, rfl, rfl⟩

/-- No more of a rest is taken than there is. -/
theorem used_le (h : m.ReadsRest rest) :
    (m.step (rest.within missing) input).used ≤ input.length := by
  cases hstep : m.step (rest.within missing) input with
  | emit e t n =>
    obtain ⟨text, behind, -, rfl, rfl⟩ := h.emit_iff.1 hstep
    rw [List.length_append]
    exact Nat.le_add_right ..
  | wait t n =>
    obtain ⟨-, -, rfl⟩ := h.wait_iff.1 hstep
    exact Nat.zero_le _
  | fault f => exact Nat.zero_le _

/-- Where some bytes are missing a part has some, and if others are left it is not the last. -/
theorem advances (h : m.ReadsRest rest) {Valid : σ → Prop} (hnext : Valid rest.next)
    (hwithin : ∀ left, 0 < left → Valid (rest.within left)) (hpos : 0 < missing)
    (hstep : m.step (rest.within missing) input = .emit e t n) : Valid t ∧ 0 < n := by
  obtain ⟨text, behind, hunit, -, rfl⟩ := h.emit_iff.1 hstep
  cases hunit with
  | part hne hlt => exact ⟨hwithin _ (Nat.sub_pos_of_lt hlt), List.length_pos_iff.2 hne⟩
  | last _ hlength => exact ⟨hnext, hlength ▸ hpos⟩

/-- What was cut is complete with its last part. -/
theorem completes (h : m.ReadsRest rest) (hne : value ≠ []) (hlength : value.length = missing)
    (hends : rest.Ends behind)
    (hprepend : ∀ es, prepend e (prepend (rest.piece value true) es) = prepend e' es)
    (hnext : m.step rest.next behind = (m.step t' (behind.drop j)).shift j) :
    m.Completes prepend e (rest.within missing) (value ++ behind) e' t' (value.length + j) := by
  have hstep : m.step (rest.within missing) (value ++ behind) =
      .emit (rest.piece value true) rest.next value.length :=
    h.emit_iff.2 ⟨value, behind, .last (by simp [hne]) hlength hends, rfl, rfl⟩
  refine .mk hstep (h.isFinal_piece value true) hprepend ?_
  rw [List.drop_left]
  exact hnext

/-- A part of what was cut is read again, or goes on as a longer part. -/
theorem goesOn (h : m.ReadsRest rest) (hjoins : JoinsParts rest prepend)
    (hstep : m.step (rest.within missing) input = .emit e t n) :
    m.GoesOn prepend (rest.within missing) input e t n := by
  obtain ⟨text, behind, hunit, rfl, rfl⟩ := h.emit_iff.1 hstep
  cases hunit with
  | last hne hlength hends =>
    obtain hstable | hend := h.stable hends
    · refine .again (by simp) fun back => ?_
      rw [List.append_assoc]
      refine h.emit_iff.2 ⟨text, behind ++ back, .last ?_ hlength (hstable back), rfl, rfl⟩
      rw [← List.append_assoc]
      exact List.append_ne_nil_of_left_ne_nil hne back
    · refine .atEnd ?_
      rw [List.drop_left]
      exact hend
  | part hne hlt =>
    rw [List.append_nil]
    refine .cut rfl h.step_nil fun {back e' t' n'} hemit => ?_
    obtain ⟨text', behind, hunit, hi, rfl⟩ := h.emit_iff.1 hemit
    cases hunit with
    | part hne' hlt' =>
      rw [hi, List.append_nil]
      exact ⟨h.isFinal_piece _ _, .inl ⟨rfl, h.step_nil⟩⟩
    | last hne' hlength hends =>
      refine ⟨h.isFinal_piece _ _, .inr ?_⟩
      obtain ⟨value, rfl, rfl⟩ | ⟨excess, rfl, -⟩ := List.append_eq_append_iff.1 hi
      · rw [List.length_append] at hlength
        refine ⟨value.length + 0, List.length_append, ?_⟩
        exact h.completes (List.ne_nil_of_length_pos (by omega)) (by omega) hends
          (hjoins text value) (Step.shift_zero _).symm
      · rw [List.length_append] at hlt
        omega

/-- Where the rest of a value or key is taken up, a machine waits for nothing but the next byte. -/
theorem resumesAt (h : m.ReadsRest rest) (hjoins : JoinsParts rest prepend) :
    m.ResumesAt prepend (rest.within missing) where
  wait hstep := by
    obtain ⟨rfl, rfl, rfl⟩ := h.wait_iff.1 hstep
    exact ⟨Nat.le_refl 0, fun _ => (Step.shift_zero _).symm⟩
  emit hstep _ := h.goesOn hjoins hstep

end ReadsRest

end Machine

end PacketWire
