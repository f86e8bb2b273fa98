import PacketWire.Proofs.DictValue.RoundTrip
import PacketWire.Proofs.ListValue.RoundTrip
import PacketWire.Proofs.Update.RoundTrip

namespace PacketWire

/-!
# Sending on what was read

Lists, dicts, paths and updates may come in many spellings: lengths with zeros in front, empty
values with a length, fields without their `_`, a space in front of an operator or none. However
they came, they are sent in one wire form, which is read back (`read_is_sent_in_one_form`). Reading
it loses no more than the marks that an empty value came with its length, and these are not sent in
any case.

What is read was never checked by a builder, so that it can be sent and read back rests on the way
it was written: a value without a length ended at a delimiter, and thus does not hold it.
-/

/-! ### What is read needs no further length -/

namespace Element

variable {e : Element} {delimiter : Option UInt8} {value text : Bytes}

/-- A value that came without a length ended at the delimiter, so it does not hold it. -/
theorem ValueSpelling.notMem (h : ValueSpelling delimiter value false text) :
    ∀ d, delimiter = some d → d ∉ value := by
  cases h with
  | absent => exact fun _ _ => List.not_mem_nil
  | delimited hnot => exact hnot

/-- The type of an element that was read is a keyword, or there is none. -/
theorem Spelled.type_isKeyword (h : e.Spelled delimiter text) : e.type = [] ∨ isKeyword e.type := by
  cases h with
  | untyped => exact .inl rfl
  | typed htype => exact .inr htype

/-- An element that was read can be sent without being taken for another. -/
theorem Spelled.isSafe (h : e.Spelled delimiter text) : e.IsSafe delimiter := by
  obtain ⟨valueText, hvalue, -⟩ := h.exists_valueSpelling
  intro hcounted
  rw [hcounted] at hvalue
  exact hvalue.notMem

/-- The type of an operand that was read is a keyword, or there is none. -/
theorem OperandSpelled.type_isKeyword (h : e.OperandSpelled text) :
    e.type = [] ∨ isKeyword e.type := by
  cases h with
  | mk htype => exact htype

end Element

/-- A key that came without a length ended at the closing brace, so it does not hold one. -/
theorem Key.Spelled.isSafe {k : Key} {text : Bytes} (h : k.Spelled text) : k.IsSafe := by
  cases h with
  | delimited hbrace hhead =>
    refine fun _ => ⟨hbrace, fun hdigit => ?_⟩
    obtain ⟨b, hb, hdigit⟩ := (Option.any_eq_true ..).1 hdigit
    exact hhead b hb hdigit
  | counted => exact nofun

/-- The entries of a dict that was read can be sent as they are. -/
theorem DictValue.EntrySpelled.isSafe {e : Entry} {text : Bytes} (h : EntrySpelled e text) :
    (e.value.type = [] ∨ isKeyword e.value.type) ∧ e.IsSafe := by
  cases h with
  | mk hkey hvalue => exact ⟨hvalue.type_isKeyword, hkey.isSafe, hvalue.isSafe⟩

namespace Path

variable {p : Path} {seg : Segment} {text : Bytes}

/-- A step of a path that was read can be sent without being taken for another. -/
theorem SegmentSpelled.isSafe (h : SegmentSpelled seg text) : seg.IsSafe := by
  cases h with
  | index => trivial
  | field => trivial
  | bareField => trivial
  | key hkey => exact hkey.isSafe

/-- A step of a path that was read passes the checks of the builder. -/
theorem SegmentSpelled.isValid (h : SegmentSpelled seg text)
    (hsize : seg.wireSize < Decimal.bound) : seg.IsValid := by
  cases h with
  | index => trivial
  | field hname => exact hname
  | bareField hname => exact hname
  | key => exact Nat.lt_of_le_of_lt (Key.length_value_le) hsize

/-- The steps of a path that was read can be written, and each key that needs its length has it
    told. -/
theorem Spelled.isValid_and_isSafe (h : p.Spelled text) (hsize : p.wireSize < Decimal.bound) :
    (∀ seg ∈ p.segments, seg.IsValid) ∧ ∀ seg ∈ p.segments, seg.IsSafe := by
  cases h with
  | @mk segments _ hseries =>
    have hspelled := hseries.forall_mem fun {seg line} hline =>
      (⟨line, hline⟩ : ∃ line, SegmentSpelled seg line)
    constructor
    · intro seg hseg
      obtain ⟨line, hline⟩ := hspelled seg hseg
      have hone : seg.wireSize ≤ totalSize Segment.wireSize segments := le_totalSize hseg
      exact hline.isValid (Nat.lt_of_le_of_lt hone hsize)
    · intro seg hseg
      obtain ⟨line, hline⟩ := hspelled seg hseg
      exact hline.isSafe

end Path

/-! ### The wire form is that of what is read back -/

/-- The members of a sequence are sent as before, if each of them is. -/
theorem flatMap_map_eq {α : Type} {wire : α → Bytes} {written : α → α} {as : List α}
    (h : ∀ a, wire (written a) = wire a) : (as.map written).flatMap wire = as.flatMap wire := by
  rw [List.flatMap_map]
  exact congrArg (as.flatMap ·) (funext h)

namespace Element

variable {e : Element}

/-- Whether a length is sent does not depend on the mark of an empty value. -/
theorem writesLength_written : e.written.writesLength = e.writesLength := by
  show ((e.counted && !e.value.isEmpty) && !e.value.isEmpty) = (e.counted && !e.value.isEmpty)
  rw [Bool.and_assoc, Bool.and_self]

/-- A value is sent in one form, with the mark or without. -/
theorem valueWire_written : e.written.valueWire = e.valueWire := by
  rw [valueWire, writesLength_written]
  rfl

/-- An element is sent in one form, with the mark or without. -/
theorem wire_written : e.written.wire = e.wire := by
  rw [wire, valueWire_written]
  rfl

/-- An operand is sent in one form, with the mark or without. -/
theorem operandWire_written : e.written.operandWire = e.operandWire := by
  rw [operandWire, valueWire_written]
  rfl

end Element

/-- A key is sent in one form, with the mark or without. -/
theorem Key.wire_written {k : Key} : k.written.wire = k.wire := by
  have hlength : k.written.writesLength = k.writesLength := by
    show ((k.counted && !k.value.isEmpty) && !k.value.isEmpty) = (k.counted && !k.value.isEmpty)
    rw [Bool.and_assoc, Bool.and_self]
  rw [wire, hlength]
  rfl

/-- A list is sent in one form, whichever of its elements have the mark. -/
theorem ListValue.wire_written {l : ListValue} : l.written.wire = l.wire :=
  congrArg (l.type ++ ·) (flatMap_map_eq fun _ => congrArg (Byte.pipe :: ·) Element.wire_written)

/-- An entry is sent in one form, with the marks or without. -/
theorem DictValue.Entry.wire_written {e : Entry} : e.written.wire = e.wire := by
  show e.key.written.wire ++ e.value.written.wire = e.key.wire ++ e.value.wire
  rw [Key.wire_written, Element.wire_written]

/-- A dict is sent in one form, whichever of its entries have marks. -/
theorem DictValue.wire_written {d : DictValue} : d.written.wire = d.wire :=
  congrArg (d.type ++ ·) (flatMap_map_eq fun _ => Entry.wire_written)

/-- A step of a path is sent in one form, with the mark or without. -/
theorem Path.Segment.wire_written {seg : Segment} : seg.written.wire = seg.wire := by
  cases seg with
  | index => rfl
  | field => rfl
  | key k => exact Key.wire_written

/-- A path is sent in one form, whichever of its keys have the mark. -/
theorem Path.wire_written {p : Path} : p.written.wire = p.wire :=
  flatMap_map_eq fun _ => Segment.wire_written

/-- An update is sent in one form, whatever in it has the mark. -/
theorem Update.wire_written {u : Update} : u.written.wire = u.wire := by
  have hgap : u.written.gap = u.gap := by
    show (if (u.path.segments.map Path.Segment.written).isEmpty then [] else [Byte.space]) = u.gap
    rw [List.isEmpty_map]
    rfl
  show u.path.written.wire ++ u.written.gap ++ [u.oper.glyph] ++ u.operand.written.operandWire =
    u.path.wire ++ u.gap ++ [u.oper.glyph] ++ u.operand.operandWire
  rw [Path.wire_written, hgap, Element.operandWire_written]

/-! ### Sending on -/

open Sendable

/-- A value is sent as some bytes, these are read back as `back`, and this is sent in the same
    way. -/
structure ReadsBackAs {α ε : Type} [Sendable α] (read : Bytes → Except ε α) (a back : α)
    (bytes : Bytes) : Prop where
  /-- The value is sent as the bytes. -/
  toBytes : toBytes a = some bytes
  /-- The bytes are read. -/
  read_bytes : read bytes = .ok back
  /-- What is read is sent as the same bytes. -/
  toBytes_back : Sendable.toBytes back = some bytes
  /-- The sizes computed for the two are the same. -/
  wireSize_back : wireSize back = wireSize a

/-- Values that are rendered as the same bytes have the same size. -/
theorem ReadsBackAs.of_rendersExactly {α ε : Type} [Sendable α] {read : Bytes → Except ε α}
    {a back : α} {bytes : Bytes} (ha : RendersExactly a bytes) (hback : RendersExactly back bytes)
    (hread : read bytes = .ok back) : ReadsBackAs read a back bytes where
  toBytes := ha.toBytes
  read_bytes := hread
  toBytes_back := hback.toBytes
  wireSize_back := by rw [← hback.length, ha.length]

/-- A list that was read is sent in a form that is read back. -/
theorem ListValue.readsBackAs_of_parse {l : ListValue} {text : Bytes} (h : parse text = .ok l)
    (hsize : l.wireSize < Decimal.bound) : ReadsBackAs parse l l.written l.wire := by
  have hread : parse l.wire = .ok l.written := by
    cases parse_eq_ok_iff.1 h with
    | mk htype hseries =>
      have hitems := hseries.forall_mem fun {e line} (hline : ItemSpelled e line) =>
        show (e.type = [] ∨ isKeyword e.type) ∧ e.IsSafe (some Byte.pipe) by
          cases hline with
          | mk helement => exact ⟨helement.type_isKeyword, helement.isSafe⟩
      exact parse_eq_ok_iff.2 (.mk htype (series_wire (fun e he => (hitems e he).1)
        (fun e he => Nat.lt_of_le_of_lt (length_value_le he) hsize) fun e he => (hitems e he).2))
  exact .of_rendersExactly l.renders_wire (wire_written ▸ l.written.renders_wire) hread

/-- A dict that was read is sent in a form that is read back. -/
theorem DictValue.readsBackAs_of_parse {d : DictValue} {text : Bytes} (h : parse text = .ok d)
    (hsize : d.wireSize < Decimal.bound) : ReadsBackAs parse d d.written d.wire := by
  have hread : parse d.wire = .ok d.written := by
    cases parse_eq_ok_iff.1 h with
    | @mk type _ entries htype hseries =>
      have hentries := hseries.forall_mem fun {_ _} hline => hline.isSafe
      have hwritten : Series EntrySpelled (entries.map Entry.written)
          (entries.flatMap Entry.wire) := Series.flatMap fun e he =>
        Entry.spelled_wire (hentries e he).1 (Nat.lt_of_le_of_lt (length_le he).1 hsize)
          (Nat.lt_of_le_of_lt (length_le he).2 hsize) (hentries e he).2
      exact parse_eq_ok_iff.2 (.mk htype hwritten)
  exact .of_rendersExactly d.renders_wire (wire_written ▸ d.written.renders_wire) hread

/-- A path that was read is sent in a form that is read back. -/
theorem Path.readsBackAs_of_parse {p : Path} {text : Bytes} (h : parse text = .ok p)
    (hsize : p.wireSize < Decimal.bound) : ReadsBackAs parse p p.written p.wire := by
  obtain ⟨hvalid, hsafe⟩ := (parse_eq_ok_iff.1 h).isValid_and_isSafe hsize
  exact .of_rendersExactly p.renders_wire (wire_written ▸ p.written.renders_wire)
    (parse_wire hvalid hsafe)

/-- An update that was read is sent in a form that is read back. -/
theorem Update.readsBackAs_of_parse {u : Update} {text : Bytes} (h : parse text = .ok u)
    (hsize : u.wireSize < Decimal.bound) : ReadsBackAs parse u u.written u.wire := by
  have hread : parse u.wire = .ok u.written := by
    have hsizes := @size_le u
    cases parse_eq_ok_iff.1 h with
    | mk hpath _ hoperand =>
      obtain ⟨hvalid, hsafe⟩ := hpath.isValid_and_isSafe (Nat.lt_of_le_of_lt hsizes.1 hsize)
      exact parse_wire hvalid hoperand.type_isKeyword (Nat.lt_of_le_of_lt hsizes.2 hsize) hsafe
  exact .of_rendersExactly u.renders_wire (wire_written ▸ u.written.renders_wire) hread

/-- However a list, a dict, a path or an update was written, if it was read, it is sent in a form
    that is read back: as the same value, in which only empty values are no longer said to have come
    with their length. What is read back is sent as the same bytes. -/
theorem read_is_sent_in_one_form :
    (∀ text l, ListValue.parse text = .ok l → l.wireSize < Decimal.bound →
      ∃ bytes, ReadsBackAs ListValue.parse l l.written bytes) ∧
    (∀ text d, DictValue.parse text = .ok d → d.wireSize < Decimal.bound →
      ∃ bytes, ReadsBackAs DictValue.parse d d.written bytes) ∧
    (∀ text p, Path.parse text = .ok p → p.wireSize < Decimal.bound →
      ∃ bytes, ReadsBackAs Path.parse p p.written bytes) ∧
    ∀ text u, Update.parse text = .ok u → u.wireSize < Decimal.bound →
      ∃ bytes, ReadsBackAs Update.parse u u.written bytes :=
  ⟨fun _ _ hread hsize => ⟨_, ListValue.readsBackAs_of_parse hread hsize⟩,
    fun _ _ hread hsize => ⟨_, DictValue.readsBackAs_of_parse hread hsize⟩,
    fun _ _ hread hsize => ⟨_, Path.readsBackAs_of_parse hread hsize⟩,
    fun _ _ hread hsize => ⟨_, Update.readsBackAs_of_parse hread hsize⟩⟩

/-- A list with a length of zero and one with zeros in front, a dict with the length of an empty
    key, a path with a bare field and an update without a space are sent in other spellings than
    they came in, and these are read back. -/
theorem read_is_sent_in_one_form_of_spellings :
    ∃ l d p u,
      (ListValue.parse (Bytes.ofText "|:0|=_a:003 x|y") = .ok l ∧
        toBytes l = some (Bytes.ofText "||=_a:3 x|y") ∧
        ListValue.parse (Bytes.ofText "||=_a:3 x|y") = .ok l.written) ∧
      (DictValue.parse (Bytes.ofText "_t\x7b0 \x7d\x7b01 1\x7d:00") = .ok d ∧
        toBytes d = some (Bytes.ofText "_t\x7b\x7d\x7b1 1\x7d") ∧
        DictValue.parse (Bytes.ofText "_t\x7b\x7d\x7b1 1\x7d") = .ok d.written) ∧
      (Path.parse (Bytes.ofText ".a#007") = .ok p ∧
        toBytes p = some (Bytes.ofText "._a#7") ∧
        Path.parse (Bytes.ofText "._a#7") = .ok p.written) ∧
      (Update.parse (Bytes.ofText ".a=:0") = .ok u ∧
        toBytes u = some (Bytes.ofText "._a =") ∧
        Update.parse (Bytes.ofText "._a =") = .ok u.written) := by
  let l : ListValue := ⟨[], [⟨[], [], true⟩, ⟨Bytes.ofText "_a", Bytes.ofText "x|y", true⟩]⟩
  let d : DictValue := ⟨Bytes.ofText "_t",
    [⟨⟨[], true⟩, ⟨[], [], false⟩⟩, ⟨⟨Bytes.ofText "1", true⟩, ⟨[], [], true⟩⟩]⟩
  let p : Path := ⟨[.field (Bytes.ofText "a"), .index 7]⟩
  let u : Update := ⟨⟨[.field (Bytes.ofText "a")]⟩, .assign, ⟨[], [], true⟩⟩
  have hl : ListValue.parse (Bytes.ofText "|:0|=_a:003 x|y") = .ok l := rfl
  have hd : DictValue.parse (Bytes.ofText "_t\x7b0 \x7d\x7b01 1\x7d:00") = .ok d := rfl
  have hp : Path.parse (Bytes.ofText ".a#007") = .ok p := rfl
  have hu : Update.parse (Bytes.ofText ".a=:0") = .ok u := rfl
  obtain ⟨hlist, hdict, hpath, hupdate⟩ := read_is_sent_in_one_form
  obtain ⟨lBytes, hl'⟩ := hlist _ l hl (by decide +kernel)
  obtain ⟨dBytes, hd'⟩ := hdict _ d hd (by decide +kernel)
  obtain ⟨pBytes, hp'⟩ := hpath _ p hp (by decide +kernel)
  obtain ⟨uBytes, hu'⟩ := hupdate _ u hu (by decide +kernel)
  -- the bytes that are sent are told by rendering the values
  have hlSent : toBytes l = some (Bytes.ofText "||=_a:3 x|y") := by decide +kernel
  have hdSent : toBytes d = some (Bytes.ofText "_t\x7b\x7d\x7b1 1\x7d") := by decide +kernel
  have hpSent : toBytes p = some (Bytes.ofText "._a#7") := by decide +kernel
  have huSent : toBytes u = some (Bytes.ofText "._a =") := by decide +kernel
  obtain rfl := Option.some.inj (hl'.toBytes.symm.trans hlSent)
  obtain rfl := Option.some.inj (hd'.toBytes.symm.trans hdSent)
  obtain rfl := Option.some.inj (hp'.toBytes.symm.trans hpSent)
  obtain rfl := Option.some.inj (hu'.toBytes.symm.trans huSent)
  exact ⟨l, d, p, u, ⟨hl, hlSent, hl'.read_bytes⟩, ⟨hd, hdSent, hd'.read_bytes⟩,
    ⟨hp, hpSent, hp'.read_bytes⟩, hu, huSent, hu'.read_bytes⟩

end PacketWire
