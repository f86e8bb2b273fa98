import PacketWire.Proofs.Checks
import PacketWire.Proofs.DictValue.Accepts
import PacketWire.Proofs.Element.Wire
import PacketWire.Proofs.Key.Wire
import PacketWire.Proofs.Rendering.Values
import PacketWire.Proofs.Series

namespace PacketWire.DictValue

/-!
# Sending and reading dicts

A dict that is built and sent is read back with all its keys, types and values if and only if each
of its keys and values that does not have its length told can do without (`reads_back_iff`). What is
read back then tells the lengths as they were written, which is everywhere but for empty keys and
values.
-/

variable {d d' : DictValue} {e e' : Entry} {es es' : List Entry} {type text rest rest' : Bytes}
  {drafts : List Entry.Draft} {t : Thresholds}

/-- The entry as its wire form tells it. -/
def Entry.written (e : Entry) : Entry := ⟨e.key.written, e.value.written⟩

/-- The key, and the type and the value, whether or not the lengths are told. -/
def Entry.content (e : Entry) : Bytes × Bytes × Bytes := (e.key.value, e.value.content)

/-- Marks of what is empty are no part of what an entry says. -/
theorem Entry.content_written : e.written.content = e.content := rfl

/-- The dict as its wire form tells it. -/
def written (d : DictValue) : DictValue := { d with entries := d.entries.map Entry.written }

/-- The dicts are the same but for the lengths that are told. -/
def SameContent (d d' : DictValue) : Prop :=
  d.type = d'.type ∧ d.entries.map Entry.content = d'.entries.map Entry.content

/-- Nor of what a dict says. -/
theorem sameContent_written : d.written.SameContent d := by
  refine ⟨rfl, ?_⟩
  rw [written, List.map_map]
  exact List.map_congr_left fun e _ => e.content_written

/-- Key and value have their lengths told, if they need them. -/
def Entry.IsSafe (e : Entry) : Prop := e.key.IsSafe ∧ e.value.IsSafe (some Byte.openBrace)

/-- The next entry ends a value, as it starts with a brace. -/
theorem endsBefore_flatMap :
    Element.EndsBefore (some Byte.openBrace) (es.flatMap Entry.wire) := by
  cases es with
  | nil => exact Element.endsBefore_nil
  | cons e es => exact Element.endsBefore_cons_iff.2 rfl

/-! ### Built dicts -/

/-- The type of an entry that is built is a keyword, or there is none. -/
theorem Entry.type_of_build {draft : Entry.Draft} (h : draft.build t = .ok e) :
    e.value.type = [] ∨ isKeyword e.value.type := by
  obtain ⟨value, hvalue, hmade⟩ := Except.bind_eq_ok_iff.1 h
  cases hmade
  exact Element.type_of_build hvalue

/-- All types in a dict that is built are keywords, where there are any. -/
theorem build_eq_ok (h : build type drafts t = .ok d) :
    (d.type = [] ∨ isKeyword d.type) ∧
      ∀ e ∈ d.entries, e.value.type = [] ∨ isKeyword e.value.type := by
  obtain ⟨_, hcheck, hmore⟩ := Except.bind_eq_ok_iff.1 h
  obtain ⟨entries, hentries, hmade⟩ := Except.bind_eq_ok_iff.1 hmore
  cases hmade
  refine ⟨checkOptionalKeyword_eq_ok_iff.1 hcheck, fun e he => ?_⟩
  obtain ⟨_, -, hbuilt⟩ := Except.exists_of_mem_mapM hentries he
  exact Entry.type_of_build hbuilt

/-- Every key and every value of a dict is shorter than the dict. -/
theorem length_le (he : e ∈ d.entries) :
    e.key.value.length ≤ d.wireSize ∧ e.value.value.length ≤ d.wireSize := by
  have hone : e.wireSize ≤ totalSize Entry.wireSize d.entries := le_totalSize he
  have hkey := e.key.length_value_le
  have hvalue := e.value.length_value_le
  rw [Entry.wireSize] at hone
  rw [wireSize]
  constructor
  · omega
  · omega

/-! ### Reading back -/

/-- A safe entry is written in one of the ways to write it. -/
theorem Entry.spelled_wire (htype : e.value.type = [] ∨ isKeyword e.value.type)
    (hkey : e.key.value.length < Decimal.bound) (hvalue : e.value.value.length < Decimal.bound)
    (hsafe : e.IsSafe) : EntrySpelled e.written e.wire :=
  .mk (Key.spelled_wire hkey hsafe.1) (Element.spelled_wire htype hvalue hsafe.2)

/-- An entry of the same content at the start of a wire form is all of it, if both end in front of
    another entry or with the dict. -/
theorem Entry.eq_of_spelled (htype : e.value.type = [] ∨ isKeyword e.value.type)
    (hkey : e.key.value.length < Decimal.bound) (hvalue : e.value.value.length < Decimal.bound)
    (h : EntrySpelled e' text) (hcontent : e'.content = e.content)
    (hends : Element.EndsBefore (some Byte.openBrace) rest)
    (hends' : Element.EndsBefore (some Byte.openBrace) rest')
    (hi : text ++ rest = e.wire ++ rest') : e.IsSafe ∧ e' = e.written ∧ rest = rest' := by
  obtain ⟨hkeySame, hvalueSame⟩ := Prod.mk.inj hcontent
  cases h with
  | mk hkeySpelled hvalueSpelled =>
    rw [wire, List.append_assoc, List.append_assoc] at hi
    obtain ⟨hkeySafe, rfl, hbehind⟩ := Key.eq_of_spelled hkey hkeySpelled hkeySame hi
    obtain ⟨hvalueSafe, rfl, hrest⟩ := Element.eq_of_spelled slot.separates_form rfl htype hvalue
      hvalueSpelled hvalueSame hends hends' hbehind
    exact ⟨⟨hkeySafe, hvalueSafe⟩, rfl, hrest⟩

/-- A dict is safe if its keys and its values are. -/
theorem forall_isSafe_iff : (∀ e ∈ es, e.IsSafe) ↔ ∀ e ∈ es,
    (e.key.counted = false → Byte.closeBrace ∉ e.key.value ∧ ¬ e.key.value.head?.any Byte.isDigit) ∧
      (e.value.counted = false → Byte.openBrace ∉ e.value.value) :=
  forall₂_congr fun _ _ => and_congr Iff.rfl Element.isSafe_some_iff

/-- A dict that is rendered is read back if and only if no key holds a `}` or starts with a digit,
    and no value holds a `{`, without having its length told. What is read back then is the dict as
    it was written. -/
theorem reads_back_iff (hbuild : build type drafts t = .ok d) (hsize : d.wireSize < Decimal.bound) :
    ∃ bytes, Sendable.toBytes d = some bytes ∧
      ((∃ d', parse bytes = .ok d' ∧ d'.SameContent d) ↔
        ∀ e ∈ d.entries,
          (e.key.counted = false →
            Byte.closeBrace ∉ e.key.value ∧ ¬ e.key.value.head?.any Byte.isDigit) ∧
          (e.value.counted = false → Byte.openBrace ∉ e.value.value)) ∧
      ∀ d', parse bytes = .ok d' → d'.SameContent d → d' = d.written := by
  refine ⟨d.wire, d.renders_wire.toBytes, ?_⟩
  obtain ⟨htype, htypes⟩ := build_eq_ok hbuild
  have hlengths (e : Entry) (he : e ∈ d.entries) :
      e.key.value.length < Decimal.bound ∧ e.value.value.length < Decimal.bound :=
    ⟨Nat.lt_of_le_of_lt (length_le he).1 hsize, Nat.lt_of_le_of_lt (length_le he).2 hsize⟩
  rw [← forall_isSafe_iff]
  apply Except.exists_ok_iff
  -- What is sent and what is read are series of entries with the same content in the same text:
  -- they go together one by one, and so every entry is told as it must be.
  · rintro ⟨type', entries'⟩ hparse ⟨rfl, hcontent⟩
    generalize hw : d.wire = text at hparse
    cases parse_eq_ok_iff.1 hparse with
    | mk _ hseries =>
      obtain ⟨hsafe, rfl⟩ := Series.eq_map_of_content_of_eq
        (fun e he => Entry.eq_of_spelled (htypes e he) (hlengths e he).1 (hlengths e he).2)
        endsBefore_of_series (fun _ => endsBefore_flatMap) hseries hcontent
        (List.append_cancel_left hw).symm
      exact ⟨hsafe, rfl⟩
  · intro hsafe
    have hentries : Series EntrySpelled d.written.entries (d.entries.flatMap Entry.wire) :=
      Series.flatMap fun e he =>
        Entry.spelled_wire (htypes e he) (hlengths e he).1 (hlengths e he).2 (hsafe e he)
    exact ⟨parse_eq_ok_iff.2 (.mk htype hentries), sameContent_written⟩

/-- A key that starts with a digit is read back with its length and not without it; the length that
    an empty value was to have is gone. -/
theorem reads_back_of_digit :
    (∃ d, build [] [⟨⟨Bytes.ofText "1 1", .delimited⟩, ⟨[], Bytes.ofText "x", .automatic⟩⟩] {} =
        .ok d ∧
      Sendable.toBytes d = some (Bytes.ofText "\x7b1 1\x7d x") ∧
      ¬ ∃ d', parse (Bytes.ofText "\x7b1 1\x7d x") = .ok d' ∧ d'.SameContent d) ∧
    ∃ d, build [] [⟨⟨Bytes.ofText "1", .automatic⟩, ⟨Bytes.ofText "_x", [], .counted⟩⟩,
        ⟨⟨Bytes.ofText "1", .automatic⟩, ⟨[], Bytes.ofText "\x7b", .counted⟩⟩] {} = .ok d ∧
      Sendable.toBytes d = some (Bytes.ofText "\x7b1 1\x7d=_x\x7b1 1\x7d:1 \x7b") ∧
      parse (Bytes.ofText "\x7b1 1\x7d=_x\x7b1 1\x7d:1 \x7b") =
        .ok ⟨[], [⟨⟨Bytes.ofText "1", true⟩, ⟨Bytes.ofText "_x", [], false⟩⟩,
          ⟨⟨Bytes.ofText "1", true⟩, ⟨[], Bytes.ofText "\x7b", true⟩⟩]⟩ := by
  constructor
  · let d : DictValue := ⟨[], [⟨⟨Bytes.ofText "1 1", false⟩, ⟨[], Bytes.ofText "x", false⟩⟩]⟩
    have hbuild : build [] [⟨⟨Bytes.ofText "1 1", .delimited⟩,
        ⟨[], Bytes.ofText "x", .automatic⟩⟩] {} = .ok d := rfl
    have hbytes : Sendable.toBytes d = some (Bytes.ofText "\x7b1 1\x7d x") := by decide +kernel
    obtain ⟨bytes, hsent, hread, -⟩ := reads_back_iff hbuild (by decide +kernel)
    obtain rfl := Option.some.inj (hsent.symm.trans hbytes)
    refine ⟨d, hbuild, hbytes, fun hback => ?_⟩
    exact ((hread.1 hback _ List.mem_cons_self).1 rfl).2 (by decide +kernel)
  · let d : DictValue := ⟨[], [⟨⟨Bytes.ofText "1", true⟩, ⟨Bytes.ofText "_x", [], true⟩⟩,
      ⟨⟨Bytes.ofText "1", true⟩, ⟨[], Bytes.ofText "\x7b", true⟩⟩]⟩
    have hbuild : build [] [⟨⟨Bytes.ofText "1", .automatic⟩, ⟨Bytes.ofText "_x", [], .counted⟩⟩,
        ⟨⟨Bytes.ofText "1", .automatic⟩, ⟨[], Bytes.ofText "\x7b", .counted⟩⟩] {} = .ok d := rfl
    have hbytes : Sendable.toBytes d =
        some (Bytes.ofText "\x7b1 1\x7d=_x\x7b1 1\x7d:1 \x7b") := by decide +kernel
    obtain ⟨bytes, hsent, hread, hwritten⟩ := reads_back_iff hbuild (by decide +kernel)
    obtain rfl := Option.some.inj (hsent.symm.trans hbytes)
    obtain ⟨d', hparse, hsame⟩ := hread.2 (by decide +kernel)
    obtain rfl := hwritten d' hparse hsame
    exact ⟨d, hbuild, hbytes, hparse⟩

end PacketWire.DictValue
