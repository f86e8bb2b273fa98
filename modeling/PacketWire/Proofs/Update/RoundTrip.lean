import PacketWire.Proofs.Element.Wire
import PacketWire.Proofs.Path.RoundTrip
import PacketWire.Proofs.Update.Accepts

namespace PacketWire.Update

open Scan PacketWire.Path

/-!
# Sending and reading updates

A path that is built and sent, by itself or in front of an operator and an operand, is read back
with all its steps if and only if each of its keys that does not have its length told can do
without. The operator and the operand are read back in any case (`path_and_update_read_back_iff`).
The lengths that are told then are those that were written, which are all but those of empty keys
and of an empty operand.
-/

variable {u u' : Update} {p : Path} {e : Element} {drafts : List Segment.Draft} {t : Thresholds}
  {text text' : Bytes} {oper : Operator} {draft : Element.Draft}

/-- The update as its wire form tells it. -/
def written (u : Update) : Update :=
  { u with path := u.path.written, operand := u.operand.written }

/-- The updates are the same but for the lengths that are told. -/
def SameContent (u u' : Update) : Prop :=
  u.path.SameContent u'.path ∧ u.oper = u'.oper ∧ u.operand.content = u'.operand.content

/-- Marks of what is empty are no part of what an update says. -/
theorem sameContent_written : u.written.SameContent u := ⟨Path.sameContent_written, rfl, rfl⟩

/-! ### Wire form -/

/-- What stands between the path and the operator. -/
def gap (u : Update) : Bytes := if u.path.isEmpty then [] else [Byte.space]

/-- In front of the operator there is a space or nothing. -/
theorem isGap_gap : IsGap u.gap := by
  unfold gap
  split
  · exact .inl rfl
  · exact .inr rfl

/-- An update is written as its steps, the gap, the operator and the operand. -/
theorem wire_eq :
    u.wire = u.path.segments.flatMap Segment.wire ++
      (u.gap ++ u.oper.glyph :: u.operand.operandWire) := by
  show u.path.wire ++ u.gap ++ [u.oper.glyph] ++ u.operand.operandWire = _
  rw [List.append_assoc, List.append_assoc]
  rfl

/-- Where the operator is, is told by the operator. -/
theorem append_glyph_inj {gap gap' : Bytes} (hgap : IsGap gap) (hgap' : IsGap gap')
    (h : gap ++ oper.glyph :: text = gap' ++ oper.glyph :: text') : text = text' := by
  have hne : oper.glyph ≠ Byte.space := by cases oper <;> decide
  obtain rfl | rfl := hgap
  · obtain rfl | rfl := hgap'
    · exact (List.cons.inj h).2
    · exact absurd (List.cons.inj h).1 hne
  · obtain rfl | rfl := hgap'
    · exact absurd (List.cons.inj h).1.symm hne
    · exact (List.cons.inj (List.cons.inj h).2).2

/-- An operand is written in one of the ways to write it. -/
theorem operandSpelled_wire (htype : e.type = [] ∨ isKeyword e.type)
    (hlength : e.value.length < Decimal.bound) : e.written.OperandSpelled e.operandWire :=
  .mk htype (Element.valueSpelling_wire hlength (fun _ _ hd => nomatch hd))

/-- An operand that is read from the wire form of another is this one as it was written. -/
theorem eq_of_operandSpelled {e' : Element} (htype : e.type = [] ∨ isKeyword e.type)
    (hlength : e.value.length < Decimal.bound) (h : e'.OperandSpelled e.operandWire) :
    e' = e.written := by
  have hwire := operandSpelled_wire htype hlength
  rw [← @Element.spells_iff_operandSpelled _ form _ _ rfl rfl] at h hwire
  exact (h.unique separates_form hwire Element.endsBefore_nil Element.endsBefore_nil rfl).1

/-! ### Built updates -/

/-- An update that is built has its path, and a keyword for its type if it has one. -/
theorem build_eq_ok (h : build p oper draft t = .ok u) :
    u.path = p ∧ (u.operand.type = [] ∨ isKeyword u.operand.type) := by
  obtain ⟨operand, hoperand, hmade⟩ := Except.bind_eq_ok_iff.1 h
  cases hmade
  exact ⟨rfl, Element.type_of_build hoperand⟩

/-- The path and the value of the operand are shorter than the update. -/
theorem size_le : u.path.wireSize ≤ u.wireSize ∧ u.operand.value.length ≤ u.wireSize := by
  have hvalue := u.operand.length_value_le_valueWireSize
  rw [wireSize, Element.operandWireSize]
  constructor
  · omega
  · omega

/-! ### Reading back -/

/-- An update of the same content is read back only if each key of its path that needs its length
    has it told. -/
theorem isSafe_of_parse (hvalid : ∀ seg ∈ u.path.segments, seg.IsValid)
    (htype : u.operand.type = [] ∨ isKeyword u.operand.type)
    (hlength : u.operand.value.length < Decimal.bound) (hparse : parse u.wire = .ok u')
    (hsame : u'.SameContent u) : (∀ seg ∈ u.path.segments, seg.IsSafe) ∧ u' = u.written := by
  obtain ⟨⟨segments'⟩, oper', operand'⟩ := u'
  obtain ⟨hpath, rfl, -⟩ := hsame
  obtain ⟨pathText, gap, text, hseries, hgap, htext, hi⟩ := spelled_iff.1 (parse_eq_ok_iff.1 hparse)
  rw [wire_eq, List.append_assoc] at hi
  obtain ⟨hsafe, rfl, htail⟩ := Series.eq_map_of_content
    (fun seg hseg => Segment.eq_of_spelled (hvalid seg hseg))
    (fun hsegments => (stops_of_series hsegments).append (keywordStops_of_isGap hgap))
    (fun _ => stops_flatMap.append (keywordStops_of_isGap isGap_gap)) hseries hpath hi.symm
  obtain rfl := append_glyph_inj hgap isGap_gap htail
  obtain rfl := eq_of_operandSpelled htype hlength htext
  exact ⟨hsafe, rfl⟩

/-- A valid and safe update is read back as it was written. -/
theorem parse_wire (hvalid : ∀ seg ∈ u.path.segments, seg.IsValid)
    (htype : u.operand.type = [] ∨ isKeyword u.operand.type)
    (hlength : u.operand.value.length < Decimal.bound)
    (hsafe : ∀ seg ∈ u.path.segments, seg.IsSafe) : parse u.wire = .ok u.written := by
  refine parse_eq_ok_iff.2 (spelled_iff.2 ⟨_, u.gap, _, series_wire hvalid hsafe, isGap_gap,
    operandSpelled_wire htype hlength, ?_⟩)
  rw [wire_eq, List.append_assoc]
  rfl

/-- A path that is rendered by itself, and an update that is, are read back if and only if no key of
    the path holds a `}` or starts with a digit without having its length told. What is read back
    then is the path or the update as it was written. -/
theorem path_and_update_read_back_iff (hpath : Path.build drafts t = .ok p) :
    (p.wireSize < Decimal.bound →
      ∃ bytes, Sendable.toBytes p = some bytes ∧
        ((∃ p', Path.parse bytes = .ok p' ∧ p'.SameContent p) ↔
          ∀ k, Segment.key k ∈ p.segments → k.counted = false →
            Byte.closeBrace ∉ k.value ∧ ¬ k.value.head?.any Byte.isDigit) ∧
        ∀ p', Path.parse bytes = .ok p' → p'.SameContent p → p' = p.written) ∧
    ∀ {oper draft t' u}, build p oper draft t' = .ok u → u.wireSize < Decimal.bound →
      ∃ bytes, Sendable.toBytes u = some bytes ∧
        ((∃ u', parse bytes = .ok u' ∧ u'.SameContent u) ↔
          ∀ k, Segment.key k ∈ p.segments → k.counted = false →
            Byte.closeBrace ∉ k.value ∧ ¬ k.value.head?.any Byte.isDigit) ∧
        ∀ u', parse bytes = .ok u' → u'.SameContent u → u' = u.written := by
  have hsafe : (∀ seg ∈ p.segments, seg.IsSafe) ↔ ∀ k, Segment.key k ∈ p.segments →
      k.counted = false → Byte.closeBrace ∉ k.value ∧ ¬ k.value.head?.any Byte.isDigit :=
    forall_isSafe_iff
  rw [← hsafe]
  constructor
  · intro hsize
    have hvalid := isValid_of_build hpath hsize
    refine ⟨p.wire, p.renders_wire.toBytes, ?_⟩
    exact Except.exists_ok_iff (fun _ => Path.isSafe_of_parse hvalid) fun hsafe =>
      ⟨Path.parse_wire hvalid hsafe, Path.sameContent_written⟩
  · intro oper draft t' u hbuild hsize
    obtain ⟨rfl, htype⟩ := build_eq_ok hbuild
    have hvalid := isValid_of_build hpath (Nat.lt_of_le_of_lt size_le.1 hsize)
    have hlength := Nat.lt_of_le_of_lt size_le.2 hsize
    refine ⟨u.wire, u.renders_wire.toBytes, ?_⟩
    exact Except.exists_ok_iff (fun _ => isSafe_of_parse hvalid htype hlength) fun hsafe =>
      ⟨parse_wire hvalid htype hlength hsafe, sameContent_written⟩

/-- A key with a `}` is read back with its length and not without it, in a path by itself as in
    front of an operator; the length that an empty operand was to have is gone. -/
theorem path_and_update_read_back_of_brace :
    (∃ p, Path.build [.key ⟨Bytes.ofText "\x7d", .delimited⟩] {} = .ok p ∧
      Sendable.toBytes p = some (Bytes.ofText "\x7b\x7d\x7d") ∧
      (¬ ∃ p', Path.parse (Bytes.ofText "\x7b\x7d\x7d") = .ok p' ∧ p'.SameContent p) ∧
      ∃ u, build p .assign ⟨[], Bytes.ofText "x", .automatic⟩ {} = .ok u ∧
        Sendable.toBytes u = some (Bytes.ofText "\x7b\x7d\x7d = x") ∧
        ¬ ∃ u', parse (Bytes.ofText "\x7b\x7d\x7d = x") = .ok u' ∧ u'.SameContent u) ∧
    ∃ p, Path.build [.field (Bytes.ofText "_x"), .index 7,
        .key ⟨Bytes.ofText "\x7d", .automatic⟩] {} = .ok p ∧
      Sendable.toBytes p = some (Bytes.ofText ".__x#7\x7b1 \x7d\x7d") ∧
      Path.parse (Bytes.ofText ".__x#7\x7b1 \x7d\x7d") = .ok p ∧
      ∃ u, build p .set ⟨Bytes.ofText "_x", [], .counted⟩ {} = .ok u ∧
        Sendable.toBytes u = some (Bytes.ofText ".__x#7\x7b1 \x7d\x7d :_x") ∧
        parse (Bytes.ofText ".__x#7\x7b1 \x7d\x7d :_x") =
          .ok ⟨p, .set, ⟨Bytes.ofText "_x", [], false⟩⟩ := by
  constructor
  · let p : Path := ⟨[.key ⟨Bytes.ofText "\x7d", false⟩]⟩
    let u : Update := ⟨p, .assign, ⟨[], Bytes.ofText "x", false⟩⟩
    have hpath : Path.build [.key ⟨Bytes.ofText "\x7d", .delimited⟩] {} = .ok p := rfl
    have hupdate : build p .assign ⟨[], Bytes.ofText "x", .automatic⟩ {} = .ok u := rfl
    have hpathBytes : Sendable.toBytes p = some (Bytes.ofText "\x7b\x7d\x7d") := by decide +kernel
    have hupdateBytes : Sendable.toBytes u = some (Bytes.ofText "\x7b\x7d\x7d = x") := by
      decide +kernel
    obtain ⟨hp, hu⟩ := path_and_update_read_back_iff hpath
    obtain ⟨pathBytes, hpathSent, hpathRead, -⟩ := hp (by decide +kernel)
    obtain ⟨updateBytes, hupdateSent, hupdateRead, -⟩ := hu hupdate (by decide +kernel)
    obtain rfl := Option.some.inj (hpathSent.symm.trans hpathBytes)
    obtain rfl := Option.some.inj (hupdateSent.symm.trans hupdateBytes)
    have hbrace : Byte.closeBrace ∈ Bytes.ofText "\x7d" := by decide +kernel
    refine ⟨p, hpath, hpathBytes, fun hread => ?_, u, hupdate, hupdateBytes, fun hread => ?_⟩
    · exact (hpathRead.1 hread ⟨_, false⟩ List.mem_cons_self rfl).1 hbrace
    · exact (hupdateRead.1 hread ⟨_, false⟩ List.mem_cons_self rfl).1 hbrace
  · let p : Path := ⟨[.field (Bytes.ofText "_x"), .index 7, .key ⟨Bytes.ofText "\x7d", true⟩]⟩
    let u : Update := ⟨p, .set, ⟨Bytes.ofText "_x", [], true⟩⟩
    have hpath : Path.build [.field (Bytes.ofText "_x"), .index 7,
        .key ⟨Bytes.ofText "\x7d", .automatic⟩] {} = .ok p := rfl
    have hupdate : build p .set ⟨Bytes.ofText "_x", [], .counted⟩ {} = .ok u := rfl
    have hpathBytes : Sendable.toBytes p = some (Bytes.ofText ".__x#7\x7b1 \x7d\x7d") := by
      decide +kernel
    have hupdateBytes : Sendable.toBytes u = some (Bytes.ofText ".__x#7\x7b1 \x7d\x7d :_x") := by
      decide +kernel
    have hsafe : ∀ k, Segment.key k ∈ p.segments → k.counted = false →
        Byte.closeBrace ∉ k.value ∧ ¬ k.value.head?.any Byte.isDigit := by
      intro k hk hcounted
      have hkey : k = ⟨Bytes.ofText "\x7d", true⟩ := by simpa [p] using hk
      rw [hkey] at hcounted
      cases hcounted
    obtain ⟨hp, hu⟩ := path_and_update_read_back_iff hpath
    obtain ⟨pathBytes, hpathSent, hpathRead, hpathWritten⟩ := hp (by decide +kernel)
    obtain ⟨updateBytes, hupdateSent, hupdateRead, hupdateWritten⟩ := hu hupdate (by decide +kernel)
    obtain rfl := Option.some.inj (hpathSent.symm.trans hpathBytes)
    obtain rfl := Option.some.inj (hupdateSent.symm.trans hupdateBytes)
    obtain ⟨p', hparse, hsame⟩ := hpathRead.2 hsafe
    obtain ⟨u', hparse', hsame'⟩ := hupdateRead.2 hsafe
    obtain rfl := hpathWritten p' hparse hsame
    obtain rfl := hupdateWritten u' hparse' hsame'
    exact ⟨p, hpath, hpathBytes, hparse, u, hupdate, hupdateBytes, hparse'⟩

end PacketWire.Update
