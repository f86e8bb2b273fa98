import PacketWire.Proofs.Element.Cut
import PacketWire.Proofs.Resumable.Rest

namespace PacketWire.Element

open Scan

/-!
# Places of elements

Lists and dicts take up elements in the same way: there is a byte in front of each, and what is
read of it, all of it or its parts, makes units. Where this is so is told by a `Slot`. An element is
read there in front of the byte that stops it (`Slot.scan_eq_done_iff`), and so is the rest of one
that was cut (`Machine.HasSlot.readsRest`); with more input a unit is read again, or goes on
(`Machine.HasSlot.goesOn`).
-/

variable {σ ε κ : Type} {input : Bytes} {n : Nat} {e : ε} {t : σ}

/-- A place of elements in what a machine reads. -/
structure Slot (σ ε κ : Type) where
  /-- How elements are written there. -/
  form : Form κ
  /-- The byte in front of an element. -/
  mark : UInt8
  /-- This byte is missing. -/
  noMark : κ
  /-- The byte behind an element. -/
  stop : UInt8
  /-- The unit of an element; the buffer may end behind it. -/
  whole : Element → Bool → ε
  /-- The unit of the first part of an element, with its type and the length of its value. -/
  opening : Bytes → Bytes → Nat → ε
  /-- The unit of a further part of a value, which may be the last. -/
  piece : Bytes → Bool → ε
  /-- The state behind an element. -/
  next : σ
  /-- The state in which so many bytes of a value are missing. -/
  within : Nat → σ
  /-- Nothing but this byte stops an element, if its length is not told. -/
  delimiter_form : form.delimiter = some stop
  /-- Types are marked. -/
  bareType_form : form.bareType = false
  /-- The byte belongs to no type, length or space. -/
  separates_form : form.Separates

namespace Slot

variable (slot : Slot σ ε κ)

/-- An element, or what there is of it, behind its mark. -/
def scan : Scan κ (ε × σ) := do
  byte slot.mark slot.noMark
  match ← Element.scan slot.form with
  | .whole element isLast => return (slot.whole element isLast, slot.next)
  | .opening type value length =>
    return (slot.opening type value length, slot.within (length - value.length))

/-- What has to come behind an element. -/
def scanEnd (found : ε × σ) : Scan κ (ε × σ) := do
  match ← peek? with
  | none => return found
  | some b => if b = slot.stop then return found else fault slot.form.trailingBytes

/-- How the rest of an element is taken up. -/
def rest : Rest σ ε where
  piece := slot.piece
  next := slot.next
  within := slot.within
  Ends := EndsBefore (some slot.stop)

/-- The text of a unit at the place of an element, in front of these bytes, with the state behind
    it. -/
inductive Unit : Bytes → Bytes → ε → σ → Prop where
  /-- An element. -/
  | whole {element : Element} {text rest : Bytes} :
      element.Spelled (some slot.stop) text → EndsBefore (some slot.stop) rest →
        Unit (slot.mark :: text) rest (slot.whole element rest.isEmpty) slot.next
  /-- An element that the input cuts. -/
  | opening {type value text : Bytes} {length : Nat} :
      slot.form.Opens type value length text →
        Unit (slot.mark :: text) [] (slot.opening type value length)
          (slot.within (length - value.length))

variable {slot}

/-! ### Elements -/

/-- An element is read as a whole just where it is spelled in front of the stop or the end. -/
theorem scan_eq_whole_iff {element : Element} {isLast : Bool} :
    Element.scan slot.form input = .done (.whole element isLast) n ↔
      ∃ text rest, element.Spelled (some slot.stop) text ∧ EndsBefore (some slot.stop) rest ∧
        isLast = rest.isEmpty ∧ input = text ++ rest ∧ n = text.length := by
  have hspelled (text : Bytes) :
      slot.form.Spells element text ↔ element.Spelled (some slot.stop) text := by
    rw [spells_iff_spelled slot.bareType_form, slot.delimiter_form]
  rw [Element.scan_eq_whole_iff slot.separates_form, slot.delimiter_form]
  simp only [hspelled]

/-- At the place of an element a unit is read and nothing else. -/
theorem scan_eq_done_iff :
    slot.scan input = .done (e, t) n ↔
      ∃ text rest, slot.Unit text rest e t ∧ input = text ++ rest ∧ n = text.length := by
  unfold scan
  rw [byte_bind_eq_done_iff]
  constructor
  · rintro ⟨tail, k, rfl, hk, rfl⟩
    obtain ⟨portion, i, j, hscan, hfound, rfl⟩ := bind_eq_done_iff.1 hk
    cases portion with
    | whole element isLast =>
      cases hfound
      obtain ⟨text, rest, hspelled, hends, rfl, rfl, rfl⟩ := scan_eq_whole_iff.1 hscan
      exact ⟨_, rest, .whole hspelled hends, rfl, rfl⟩
    | opening type value length =>
      cases hfound
      obtain ⟨hopens, rfl⟩ := Element.scan_eq_opening_iff.1 hscan
      exact ⟨_, [], .opening hopens, (List.append_nil _).symm, rfl⟩
  · rintro ⟨text, rest, hunit, rfl, rfl⟩
    cases hunit with
    | @whole element text _ hspelled hends =>
      refine ⟨text ++ rest, text.length, rfl, ?_, rfl⟩
      refine bind_eq_done_iff.2 ⟨.whole element rest.isEmpty, text.length, 0, ?_, rfl, rfl⟩
      exact scan_eq_whole_iff.2 ⟨text, rest, hspelled, hends, rfl, rfl, rfl⟩
    | @opening type value text length hopens =>
      rw [List.append_nil]
      refine ⟨text, text.length, rfl, ?_, rfl⟩
      refine bind_eq_done_iff.2 ⟨.opening type value length, text.length, 0, ?_, rfl, rfl⟩
      exact Element.scan_eq_opening_iff.2 ⟨hopens, rfl⟩

/-- Every unit of a place starts with its mark. -/
theorem Unit.exists_mark {text rest : Bytes} (h : slot.Unit text rest e t) :
    ∃ tail, text = slot.mark :: tail := by
  cases h with
  | whole => exact ⟨_, rfl⟩
  | opening => exact ⟨_, rfl⟩

/-- The mark is taken, and behind the first part of an element some bytes are missing. -/
theorem Unit.advances {text rest : Bytes} (h : slot.Unit text rest e t) {Valid : σ → Prop}
    (hnext : Valid slot.next) (hwithin : ∀ missing, 0 < missing → Valid (slot.within missing)) :
    Valid t ∧ 0 < text.length := by
  cases h with
  | whole => exact ⟨hnext, Nat.succ_pos _⟩
  | opening hopens => exact ⟨hwithin _ (Nat.sub_pos_of_lt hopens.lt), Nat.succ_pos _⟩

/-- What is read in a place is no more than there is. -/
theorem isBounded_scan : slot.scan.IsBounded where
  used_le h := by
    obtain ⟨text, rest, -, rfl, rfl⟩ := scan_eq_done_iff.1 h
    simp

/-- A value ends in front of the stop or the end of the input. -/
theorem scanEnd_eq_done_iff {found found' : ε × σ} :
    slot.scanEnd found' input = .done found n ↔
      found = found' ∧ EndsBefore (some slot.stop) input ∧ n = 0 := by
  rw [scanEnd, peek?_bind]
  cases input with
  | nil =>
    show Outcome.done found' 0 = .done found n ↔ _
    simp [endsBefore_nil, eq_comm]
  | cons b input =>
    show (if b = slot.stop then _ else _ : Scan κ (ε × σ)) _ = _ ↔ _
    rw [endsBefore_cons_iff, Option.some_inj, eq_comm (a := slot.stop)]
    split
    · next hstop => simp [pure_apply, hstop, eq_comm]
    · next hstop => simp [fault, hstop]

/-- Whether it does is known at once. -/
theorem scanEnd_ne_more {found : ε × σ} : slot.scanEnd found input ≠ .more := by
  rw [scanEnd, peek?_bind]
  cases input with
  | nil => exact nofun
  | cons b input =>
    show (if b = slot.stop then _ else _ : Scan κ (ε × σ)) _ ≠ _
    split <;> exact nofun

/-- What ends an element ends it in a longer input, too, if it is there. -/
theorem endsBefore_append {d : Option UInt8} {b : UInt8} {tail : Bytes}
    (h : EndsBefore d (b :: tail)) (back : Bytes) : EndsBefore d (b :: tail ++ back) :=
  endsBefore_cons_iff.2 (endsBefore_cons_iff.1 h)

/-- The parts of an element are joined. -/
structure Joins (slot : Slot σ ε κ) (prepend : ε → List ε → List ε) : Prop where
  /-- All but the first. -/
  parts : Machine.JoinsParts slot.rest prepend
  /-- The first part and the others. -/
  whole (type value value' : Bytes) (length : Nat) (isLast : Bool) (es : List ε) :
    prepend (slot.opening type value length) (prepend (slot.piece value' true) es) =
      prepend (slot.whole ⟨type, value ++ value', true⟩ isLast) es

end Slot

end PacketWire.Element

namespace PacketWire.Machine

open Element

variable {σ ε κ : Type} {m : Machine σ ε κ} {slot : Slot σ ε κ} {prepend : ε → List ε → List ε}
  {here : σ} {input : Bytes} {b : UInt8} {e : ε} {t : σ} {n : Nat}

/-- A machine takes up elements in this way, in a state of its own. -/
structure HasSlot (m : Machine σ ε κ) (slot : Slot σ ε κ) (here : σ) : Prop where
  /-- It reads what there is of an element, -/
  step_here (b : UInt8) (input : Bytes) :
    m.step here (b :: input) = Step.ofScan slot.scan here (b :: input)
  /-- and then the rest of it. -/
  step_within (missing : Nat) (input : Bytes) : m.step (slot.within missing) input =
    Step.ofScan (slot.rest.scan slot.scanEnd missing) (slot.within missing) input
  /-- An element is not the end, -/
  isFinal_whole (element : Element) (isLast : Bool) : m.isFinal (slot.whole element isLast) = false
  /-- nor is its first part, -/
  isFinal_opening (type value : Bytes) (length : Nat) :
    m.isFinal (slot.opening type value length) = false
  /-- nor a further one. -/
  isFinal_piece (value : Bytes) (isLast : Bool) : m.isFinal (slot.piece value isLast) = false
  /-- The end of the input behind an element is the end. -/
  endsAt_next : m.EndsAt slot.next []

namespace HasSlot

/-- The rest of a value is read like the rest of any value. -/
theorem readsRest (h : m.HasSlot slot here) : m.ReadsRest slot.rest := by
  refine .of_scan h.step_within Slot.scanEnd_eq_done_iff Slot.scanEnd_ne_more h.isFinal_piece ?_
  intro behind hends
  cases behind with
  | nil => exact .inr h.endsAt_next
  | cons b behind => exact .inl (Slot.endsBefore_append hends)

/-- In a place a unit is read just where one is spelled. -/
theorem step_eq_emit_iff (h : m.HasSlot slot here) :
    m.step here (b :: input) = .emit e t n ↔
      ∃ text rest, slot.Unit text rest e t ∧ b :: input = text ++ rest ∧ n = text.length := by
  rw [h.step_here, Step.ofScan_eq_emit_iff, Slot.scan_eq_done_iff]

/-- An element, or what there is of it, is read again, or goes on as a longer one. -/
theorem goesOn (h : m.HasSlot slot here) (hjoins : slot.Joins prepend)
    (hstep : m.step here (b :: input) = .emit e t n) :
    m.GoesOn prepend here (b :: input) e t n := by
  obtain ⟨text, rest, hunit, hi, rfl⟩ := h.step_eq_emit_iff.1 hstep
  -- A whole element ends at the end of the buffer, or in front of a delimiter, which is there with
  -- more bytes, too. A part goes on as a longer part, or as a whole that the missing bytes
  -- complete.
  cases hunit with
  | @whole element text _ hspelled hends =>
    cases rest with
    | nil =>
      refine .atEnd ?_
      rw [hi, List.drop_left]
      exact h.endsAt_next
    | cons c rest =>
      refine .again (by simp [hi]) fun back => ?_
      rw [List.cons_append, h.step_eq_emit_iff, ← List.cons_append, hi, List.append_assoc]
      exact ⟨_, c :: rest ++ back, .whole hspelled (Slot.endsBefore_append hends back), rfl, rfl⟩
  | @opening type value text length hopens =>
    rw [List.append_nil] at hi
    refine .cut (by rw [hi]) h.readsRest.step_nil fun {back e' t' n'} hemit => ?_
    rw [List.cons_append, h.step_eq_emit_iff, ← List.cons_append, hi] at hemit
    obtain ⟨text', rest, hunit, hi', rfl⟩ := hemit
    cases hunit with
    | opening =>
      rw [hi, hi', List.append_nil]
      exact ⟨h.isFinal_opening _ _ _, .inl ⟨rfl, h.readsRest.step_nil⟩⟩
    | @whole element text' _ hspelled hends =>
      have hscan := Slot.scan_eq_whole_iff.2
        ⟨text', rest, hspelled, hends, rfl, (List.cons.inj hi').2, rfl⟩
      obtain ⟨piece, behind, rfl, rfl, hlength, hends', hn⟩ := hopens.exists_of_scan_eq_whole hscan
      have hlt := hopens.lt
      refine ⟨h.isFinal_whole _ _, .inr ⟨piece.length + 0, by simp [hn]; omega, ?_⟩⟩
      exact h.readsRest.completes (List.ne_nil_of_length_pos (by omega)) hlength
        (by rwa [slot.delimiter_form] at hends') (hjoins.whole type value piece length _)
        (Step.shift_zero _).symm

end HasSlot

end PacketWire.Machine
