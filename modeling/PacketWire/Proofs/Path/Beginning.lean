import PacketWire.Proofs.Key.Beginning
import PacketWire.Proofs.Path.Accepts
import PacketWire.Proofs.Resumable.Lasts
import PacketWire.Proofs.Series

namespace PacketWire.Path

open Scan Machine

/-!
# Beginnings of paths

What is in front of a cut through a path is a path by itself and a beginning of one more step
(`of_append_series`). The parser fails there just if that step is a `#` without a number or a `.`
without a name (`failsJustAt`); a key may be cut anywhere.
-/

variable {embedded : Bool} {front back text head : Bytes} {segments : List Segment} {seg : Segment}
  {p : Path} {f : Fault Cause} {f? : Option (Fault Cause)}

/-- A mark at the end, with the fault that it makes. -/
inductive Bare : Fault Cause → Bytes → Prop where
  /-- A `#` without a number. -/
  | index : Bare ⟨.badIndex, 1⟩ [Byte.hash]
  /-- A `.` without a name. -/
  | field : Bare ⟨.badField, 1⟩ [Byte.dot]
  /-- A `.` and the `_` in front of a name. -/
  | markedField : Bare ⟨.badField, 1⟩ [Byte.dot, Byte.underscore]

/-- The beginning of a step, with the fault that it makes, if there is one. -/
inductive SegmentBegins : Option (Fault Cause) → Bytes → Prop where
  /-- Nothing. -/
  | nothing : SegmentBegins none []
  /-- A step. -/
  | segment {seg : Segment} {text : Bytes} : SegmentSpelled seg text → SegmentBegins none text
  /-- A key without its closing brace. -/
  | key {text : Bytes} : Key.Cut text → SegmentBegins none text
  /-- A bare mark. -/
  | bare {f : Fault Cause} {text : Bytes} : Bare f text → SegmentBegins (some f) text

/-- A path is cut behind a bare mark: behind a path there is the beginning of a step that makes
    this fault. -/
def CutsMark : Bytes → Fault Cause → Prop :=
  Parser.CutBehind (fun text => ∃ p, Spelled p text) SegmentBegins

/-! ### Cuts -/

/-- The first digits of an index are one. -/
theorem segmentBegins_of_numeral {digits : Bytes} {n : Nat} (h : Numeral n (digits ++ back)) :
    ∃ f?, SegmentBegins f? (Byte.hash :: digits) := by
  by_cases hne : digits = []
  · subst hne
    exact ⟨_, .bare .index⟩
  · obtain ⟨k, hnum⟩ := Decimal.exists_numeral_of_append h hne
    have hk : k.toUInt64.toNat = k := by
      rw [Nat.toUInt64, UInt64.toNat_ofNat', Nat.mod_eq_of_lt hnum.lt_bound]
    exact ⟨none, @SegmentBegins.segment (.index k.toUInt64) _ (.index (by rwa [hk]))⟩

theorem SegmentSpelled.of_append (h : SegmentSpelled seg (front ++ back)) :
    ∃ f?, SegmentBegins f? front := by
  cases front with
  | nil => exact ⟨none, .nothing⟩
  | cons b front =>
    generalize htext : b :: front ++ back = text at h
    -- By the first byte, which tells the kind of the step. If a glyph is all there is, it is a bare
    -- mark.
    cases h with
    | index hnum =>
      obtain ⟨rfl, rfl⟩ := List.cons.inj htext
      exact segmentBegins_of_numeral hnum
    | @field name hname =>
      obtain rfl := (List.cons.inj htext).1
      have hword : front ++ back = Byte.underscore :: name := (List.cons.inj htext).2
      cases front with
      | nil => exact ⟨_, .bare .field⟩
      | cons c front =>
        obtain ⟨rfl, rfl⟩ := List.cons.inj hword
        by_cases hne : front = []
        · subst hne
          exact ⟨_, .bare .markedField⟩
        · exact ⟨none, .segment (.field (isKeyword_of_append hname hne))⟩
    | bareField hname hhead =>
      obtain ⟨rfl, rfl⟩ := List.cons.inj htext
      cases front with
      | nil => exact ⟨_, .bare .field⟩
      | cons c front =>
        exact ⟨none, .segment (.bareField (isKeyword_of_append hname (List.cons_ne_nil _ _)) hhead)⟩
    | key hkey =>
      rw [← htext] at hkey
      obtain hnil | rfl | hcut := hkey.of_append
      · cases hnil
      · rw [List.append_nil] at hkey
        exact ⟨none, .segment (.key hkey)⟩
      · exact ⟨none, .key hcut⟩

/-- The first bytes of a path are a path and the beginning of a step. -/
theorem Spelled.of_append (h : Spelled p (front ++ back)) :
    ∃ p' text head f?, Spelled p' text ∧ front = text ++ head ∧ SegmentBegins f? head := by
  generalize htext : front ++ back = text at h
  cases h with
  | mk hsegments =>
    subst htext
    obtain ⟨segments', text, head, hseries, rfl, f?, hhead⟩ :=
      hsegments.of_append ⟨none, .nothing⟩ SegmentSpelled.of_append
    exact ⟨_, text, head, f?, .mk hseries, rfl, hhead⟩

/-! ### What is scanned -/

theorem scanSegment_of_bare (h : Bare f text) : scanSegment embedded text = .fault f := by
  cases h <;> rfl

/-- A key that is cut is waited for, or its first part is found. -/
theorem scanSegment_of_cut (h : Key.Cut text) :
    scanSegment embedded text = .more ∨ ∃ value length,
      scanSegment embedded text =
        .done (.piece (.keyOpening value length), .keyWithin (length - value.length))
          text.length := by
  obtain ⟨inside, rfl, hmore | ⟨key, hinside⟩ | ⟨value, digits, length, hnum, hlt, rfl⟩⟩ :=
    h.inside Cause.badKeyLength
  · refine .inl ?_
    rw [scanSegment_openBrace, scanKey, bind_of_more hmore]
    rfl
  · refine .inl ?_
    have hdone : Key.scan Cause.badKeyLength inside = .done (.whole key) inside.length :=
      Key.scan_eq_whole_iff.2 ⟨inside, [], hinside, (List.append_nil _).symm, rfl⟩
    rw [scanSegment_openBrace, scanKey, bind_of_done hdone, List.drop_length]
    rfl
  · refine .inr ⟨value, length, scanSegment_eq_done_iff.2 ⟨_, [], .keyOpening hnum hlt, ?_, rfl⟩⟩
    exact (List.append_nil _).symm

/-- No step starts as a name or number goes on. -/
theorem SegmentBegins.stops (h : SegmentBegins f? head) : Scan.Stops Byte.isKeyword head := by
  cases h with
  | nothing => exact stops_nil
  | segment hspelled =>
    obtain ⟨b, tail, rfl, hb⟩ := hspelled.starts
    exact stops_cons_iff.2 hb
  | key hcut =>
    cases hcut with
    | delimited => exact stops_cons_iff.2 (by decide)
    | length => exact stops_cons_iff.2 (by decide)
    | counted => exact stops_cons_iff.2 (by decide)
  | bare hbare =>
    cases hbare with
    | index => exact stops_cons_iff.2 (by decide)
    | field => exact stops_cons_iff.2 (by decide)
    | markedField => exact stops_cons_iff.2 (by decide)

/-! ### Runs -/

/-- The run over a path comes to what is behind it. -/
theorem passes_of_series (h : Series SegmentSpelled segments text)
    (hstops : Scan.Stops Byte.isKeyword head) : machine.Passes .segment text .segment head := by
  induction h with
  | nil => exact .refl
  | @cons seg segments line text hspelled hsegments ih =>
    have hbehind : seg.Stops (text ++ head) :=
      Segment.stops_of_keyword ((stops_of_series hsegments).append hstops)
    have hstep := step_segment_eq_emit_iff.2 ⟨line, _, .segment hspelled hbehind, rfl, rfl⟩
    exact (Passes.of_emit hstep rfl).trans ih

/-- A parser of paths fails at the beginning of a path just if this ends at a bare mark. -/
theorem failsJustAt (h : Spelled p (front ++ back)) :
    parser.FailsJustAt front (CutsMark front) := by
  refine Parser.failsJustAt_of_passes isBounded_machine (t := .segment) ?_ ?_ ?_ ?_
  · rintro text head f? ⟨p, hspelled⟩ hbegins
    cases hspelled with
    | mk hsegments => exact passes_of_series hsegments hbegins.stops
  · intro head hbegins
    cases hbegins with
    | nothing => exact .of_final rfl rfl
    | @segment seg _ hspelled =>
      have hstops : seg.Stops [] := Segment.stops_of_keyword stops_nil
      have hstep := step_segment_eq_emit_iff.2
        ⟨head, [], .segment hspelled hstops, (List.append_nil _).symm, rfl⟩
      exact .of_emit hstep rfl (.of_final rfl rfl)
    | key hcut =>
      obtain hmore | ⟨value, length, hdone⟩ := @scanSegment_of_cut false _ hcut
      · exact .of_wait (Step.ofScan_of_more hmore)
      · exact .of_emit (Step.ofScan_of_done hdone) rfl (.of_wait rfl)
  · intro head g hbegins
    cases hbegins with
    | bare hbare => exact .of_fault (Step.ofScan_of_fault (scanSegment_of_bare hbare))
  · obtain ⟨p', text, head, f?, hspelled, htext, hbegins⟩ := h.of_append
    exact ⟨text, head, f?, ⟨p', hspelled⟩, htext, hbegins⟩

end PacketWire.Path
