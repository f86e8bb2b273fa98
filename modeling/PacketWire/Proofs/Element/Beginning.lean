import PacketWire.Proofs.Element.Slot
import PacketWire.Proofs.Resumable.Lasts

namespace PacketWire.Element

open Scan

/-!
# Beginnings of elements

Where the text of an element is cut, what is in front of the cut is an element by itself, or the
first part of one whose length is told, or it lacks but the rest of the length or the space behind
it (`Form.Begins`); or else it ends behind a bare mark, a `=` without a type or a `:` without a
length (`Form.Bare`). The scan for elements asks for more or finds something in the former cases,
and in the latter meets a fault (`scan_of_bare`). So does a machine at a place of elements
(`Machine.HasSlot.lasts_of_begins`, `Machine.HasSlot.fails_of_bare`).
-/

variable {κ : Type} {form : Form κ} {bareType counted : Bool} {delimiter : Option UInt8}
  {type value typeText digits text front back : Bytes} {element : Element} {length : Nat}
  {f : Fault κ}

/-! ### Types and values -/

/-- The first bytes of a type are a type, but for its mark alone. -/
theorem TypeSpelled.of_append (h : TypeSpelled bareType type (front ++ back)) :
    (∃ type', TypeSpelled bareType type' front) ∨ bareType = false ∧ front = [Byte.equalSign] := by
  generalize htext : front ++ back = text at h
  cases h with
  | absent =>
    obtain ⟨rfl, -⟩ := List.append_eq_nil_iff.1 htext
    exact .inl ⟨[], .absent⟩
  | bare htype =>
    subst htext
    -- The beginning of a word is a word, unless it is empty: then there is no type yet.
    by_cases hne : front = []
    · subst hne
      exact .inl ⟨[], .absent⟩
    · exact .inl ⟨front, .bare (isKeyword_of_append htype hne)⟩
  | marked htype =>
    cases front with
    | nil => exact .inl ⟨[], .absent⟩
    | cons b word =>
      obtain ⟨rfl, rfl⟩ := List.cons.inj htext
      by_cases hne : word = []
      · exact .inr ⟨rfl, by rw [hne]⟩
      · exact .inl ⟨word, .marked (isKeyword_of_append htype hne)⟩

/-- The beginning of the text of a value that is no value by itself. -/
inductive ValueCut : Bytes → Prop where
  /-- The mark of a length. -/
  | mark : ValueCut [Byte.colon]
  /-- A length other than zero. -/
  | length {digits : Bytes} {length : Nat} :
      Numeral length digits → 0 < length → ValueCut (Byte.colon :: digits)
  /-- The first bytes of a value. -/
  | value {value digits : Bytes} {length : Nat} :
      Numeral length digits → value.length < length →
        ValueCut (Byte.colon :: digits ++ Byte.space :: value)

/-- The first bytes of a length are there with or without the others. -/
theorem cut_of_numeral (h : Numeral length (digits ++ back)) :
    ValueSpelling delimiter [] true (Byte.colon :: digits) ∨ ValueCut (Byte.colon :: digits) := by
  by_cases hne : digits = []
  · subst hne
    exact .inr .mark
  · obtain ⟨k, hnum⟩ := Decimal.exists_numeral_of_append h hne
    rcases Nat.eq_zero_or_pos k with rfl | hpos
    · exact .inl (.zero hnum)
    · exact .inr (.length hnum hpos)

/-- The first bytes of the text of a value are a text of a value, or it is cut. -/
theorem ValueSpelling.of_append (h : ValueSpelling delimiter value counted (front ++ back)) :
    (∃ value' counted', ValueSpelling delimiter value' counted' front) ∨ ValueCut front := by
  cases front with
  | nil => exact .inl ⟨[], false, .absent⟩
  | cons b front =>
    generalize htext : b :: front ++ back = text at h
    cases h with
    | absent => cases htext
    | delimited hnot =>
      obtain ⟨rfl, rfl⟩ := List.cons.inj htext
      exact .inl ⟨front, false, .delimited fun d hd hmem =>
        hnot d hd (List.mem_append_left _ hmem)⟩
    | zero hnum =>
      obtain ⟨rfl, rfl⟩ := List.cons.inj htext
      exact (cut_of_numeral hnum).imp_left fun h => ⟨[], true, h⟩
    | @counted value digits hnum =>
      obtain rfl := (List.cons.inj htext).1
      have hbehind : front ++ back = digits ++ Byte.space :: value := (List.cons.inj htext).2
      -- the cut is inside the length, or in front of the space or behind it
      obtain ⟨rest, rfl, -⟩ | ⟨rest, rfl, hrest⟩ := List.append_eq_append_iff.1 hbehind
      · exact (cut_of_numeral hnum).imp_left fun h => ⟨[], true, h⟩
      · cases rest with
        | nil =>
          rw [List.append_nil]
          have hnum' : Numeral value.length (digits ++ []) := by rwa [List.append_nil]
          exact (cut_of_numeral hnum').imp_left fun h => ⟨[], true, h⟩
        | cons c rest =>
          obtain ⟨rfl, rfl⟩ := List.cons.inj hrest
          cases back with
          | nil => exact .inl ⟨rest, true, .counted (by simpa using hnum)⟩
          | cons d back => exact .inr (.value hnum (by simp))

/-! ### Elements -/

/-- A mark at the end, with the fault that it makes. -/
inductive Form.Bare (form : Form κ) : Fault κ → Bytes → Prop where
  /-- A `=` without a type. -/
  | type : form.bareType = false → Bare form ⟨form.badType, 1⟩ [Byte.equalSign]
  /-- A `:` without a length. -/
  | length {type typeText : Bytes} :
      TypeSpelled form.bareType type typeText →
        Bare form ⟨form.badLength, typeText.length + 1⟩ (typeText ++ [Byte.colon])

/-- The beginnings of elements that do not end at a mark. -/
inductive Form.Begins (form : Form κ) : Bytes → Prop where
  /-- An element. -/
  | whole {element : Element} {text : Bytes} : form.Spells element text → Begins form text
  /-- An element of told length that is not there as a whole. -/
  | opening {type value text : Bytes} {length : Nat} :
      form.Opens type value length text → Begins form text
  /-- A length other than zero, without the space behind it. -/
  | length {type typeText digits : Bytes} {length : Nat} :
      TypeSpelled form.bareType type typeText → Numeral length digits → 0 < length →
        Begins form (typeText ++ Byte.colon :: digits)

/-- Where the text of an element is cut, a bare mark is left or none. -/
theorem Form.Spells.of_append (h : form.Spells element (front ++ back)) :
    form.Begins front ∨ ∃ f, form.Bare f front := by
  generalize htext : front ++ back = text at h
  cases h with
  | @mk type value typeText valueText counted htype hvalue =>
    -- the cut is inside the type, or behind it
    obtain ⟨rest, rfl, -⟩ | ⟨behind, rfl, rfl⟩ := List.append_eq_append_iff.1 htext
    · obtain ⟨type', htype'⟩ | ⟨hbare, rfl⟩ := htype.of_append
      · have hspells : form.Spells ⟨type', [], false⟩ (front ++ []) := .mk htype' .absent
        rw [List.append_nil] at hspells
        exact .inl (.whole hspells)
      · exact .inr ⟨_, .type hbare⟩
    · obtain ⟨value', counted', hvalue'⟩ | hcut := hvalue.of_append
      · exact .inl (.whole (.mk htype hvalue'))
      · cases hcut with
        | mark => exact .inr ⟨_, .length htype⟩
        | length hnum hpos => exact .inl (.length htype hnum hpos)
        | @value value digits length hnum hlt =>
          have hopens := Form.Opens.mk htype hnum hlt
          have hhead : countedHead typeText digits ++ value =
              typeText ++ (Byte.colon :: digits ++ Byte.space :: value) := by simp [countedHead]
          rw [hhead] at hopens
          exact .inl (.opening hopens)

/-! ### What is scanned -/

/-- A bare mark is a fault behind it. -/
theorem scan_of_bare (h : form.Bare f text) : scan form text = .fault f := by
  rw [scan_eq]
  cases h with
  | type hbare =>
    refine bind_of_fault ?_
    rw [scanType, if_neg (by simp [hbare])]
    rfl
  | @length type typeText htype =>
    rw [bind_of_done (scanType_of_typeSpelled htype (stops_cons_iff.2 (by decide))),
      List.drop_left]
    rfl

/-- A length other than zero may go on. -/
theorem scan_of_length (htype : TypeSpelled form.bareType type typeText)
    (hnum : Numeral length digits) (hpos : 0 < length) :
    scan form (typeText ++ Byte.colon :: digits) = .more := by
  have hlength : scanLength form (Byte.colon :: digits) = .done (some length) (digits.length + 1) :=
    scanLength_eq_some_iff.2 ⟨digits, [], hnum, stops_nil, by rw [List.append_nil], rfl⟩
  have hend : scanHeadEnd form ⟨type, some length⟩ [] = .more := by
    rw [scanHeadEnd, peek?_bind]
    dsimp only [List.head?_nil]
    rw [if_pos (by simpa using hpos)]
    rfl
  rw [scan_eq, bind_of_done (scanType_of_typeSpelled htype (stops_cons_iff.2 (by decide))),
    List.drop_left, scanBehindType, bind_of_done hlength, ← List.length_cons, List.drop_length,
    bind_of_more hend]
  rfl

end PacketWire.Element

namespace PacketWire.Machine

open Element Scan

variable {σ ε κ : Type} {m : Machine σ ε κ} {slot : Slot σ ε κ} {here : σ} {text : Bytes}
  {f : Fault κ}

/-! ### Places of elements -/

/-- At the beginning of an element that ends at no mark, a machine meets no fault. -/
theorem HasSlot.lasts_of_begins (h : m.HasSlot slot here) (hbegins : slot.form.Begins text) :
    m.Lasts here (slot.mark :: text) := by
  cases hbegins with
  | @whole element text hspells =>
    have hspelled : element.Spelled (some slot.stop) text := by
      rwa [spells_iff_spelled slot.bareType_form, slot.delimiter_form] at hspells
    have hstep := h.step_eq_emit_iff.2 ⟨slot.mark :: text, [], .whole hspelled endsBefore_nil,
      (List.append_nil _).symm, rfl⟩
    obtain ⟨last, u, n, hend, hfinal⟩ := h.endsAt_next
    exact .of_emit hstep (h.isFinal_whole _ _) (.of_final hend hfinal)
  | @opening type value text length hopens =>
    have hstep := h.step_eq_emit_iff.2 ⟨slot.mark :: text, [], .opening hopens,
      (List.append_nil _).symm, rfl⟩
    exact .of_emit hstep (h.isFinal_opening _ _ _) (.of_wait h.readsRest.step_nil)
  | length htype hnum hpos =>
    refine .of_wait ((h.step_here _ _).trans (Step.ofScan_of_more ?_))
    rw [Slot.scan, byte_bind_cons, bind_of_more (scan_of_length htype hnum hpos)]
    rfl

/-- At a bare mark it meets a fault behind it. -/
theorem HasSlot.fails_of_bare (h : m.HasSlot slot here) (hbare : slot.form.Bare f text) :
    m.FailsWith here (slot.mark :: text) (f.shift 1) := by
  refine .of_fault ((h.step_here _ _).trans (Step.ofScan_of_fault ?_))
  rw [Slot.scan, byte_bind_cons, bind_of_fault (scan_of_bare hbare)]
  rfl

end PacketWire.Machine
