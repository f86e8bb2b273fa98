import PacketWire.Proofs.Checks
import PacketWire.Proofs.Element.Wire
import PacketWire.Proofs.ListValue.Accepts
import PacketWire.Proofs.Rendering.Values
import PacketWire.Proofs.Series

namespace PacketWire.ListValue

/-!
# Sending and reading lists

A list that is built and sent is read back with all its types and values if and only if no element
holds a `|` without having its length told (`parse_toBytes_iff`). What is read back then tells the
lengths as they were written, which is everywhere but for empty values.
-/

variable {l l' : ListValue} {e e' : Element} {es es' : List Element} {type text : Bytes}
  {drafts : List Element.Draft} {t : Thresholds}

/-- The list as its wire form tells it. -/
def written (l : ListValue) : ListValue := { l with elements := l.elements.map Element.written }

/-- The lists are the same but for the lengths that are told. -/
def SameContent (l l' : ListValue) : Prop :=
  l.type = l'.type ∧ l.elements.map Element.content = l'.elements.map Element.content

theorem sameContent_written : l.written.SameContent l := by
  refine ⟨rfl, ?_⟩
  rw [written, List.map_map]
  exact List.map_congr_left fun e _ => e.content_written

/-- An element in its place in a list. -/
def itemWire (e : Element) : Bytes := Byte.pipe :: e.wire

theorem endsBefore_flatMap : Element.EndsBefore (some Byte.pipe) (es.flatMap itemWire) := by
  cases es with
  | nil => exact Element.endsBefore_nil
  | cons e es => exact Element.endsBefore_cons_iff.2 rfl

/-! ### Built lists -/

theorem build_eq_ok (h : build type drafts t = .ok l) :
    (l.type = [] ∨ isKeyword l.type) ∧ ∀ e ∈ l.elements, e.type = [] ∨ isKeyword e.type := by
  obtain ⟨_, hcheck, hmore⟩ := Except.bind_eq_ok_iff.1 h
  obtain ⟨elements, helements, hmade⟩ := Except.bind_eq_ok_iff.1 hmore
  cases hmade
  refine ⟨checkOptionalKeyword_eq_ok_iff.1 hcheck, fun e he => ?_⟩
  obtain ⟨_, -, hbuilt⟩ := Except.exists_of_mem_mapM helements he
  exact Element.type_of_build hbuilt

/-- Every value of a list is shorter than the list. -/
theorem length_value_le (he : e ∈ l.elements) : e.value.length ≤ l.wireSize := by
  have hone : 1 + e.wireSize ≤ totalSize (fun e : Element => 1 + e.wireSize) l.elements :=
    @le_totalSize _ (fun e : Element => 1 + e.wireSize) _ _ he
  have hvalue := e.length_value_le
  rw [wireSize]
  omega

/-! ### Reading back -/

/-- Safe elements are written in one of the ways to write them. -/
theorem series_wire (htypes : ∀ e ∈ es, e.type = [] ∨ isKeyword e.type)
    (hlengths : ∀ e ∈ es, e.value.length < Decimal.bound)
    (hsafe : ∀ e ∈ es, e.IsSafe (some Byte.pipe)) :
    Series ItemSpelled (es.map Element.written) (es.flatMap itemWire) :=
  Series.flatMap fun e he => .mk (Element.spelled_wire (htypes e he) (hlengths e he) (hsafe e he))

/-- Elements of the same content are read from the wire forms only if these are safe. -/
theorem eq_of_series (htypes : ∀ e ∈ es, e.type = [] ∨ isKeyword e.type)
    (hlengths : ∀ e ∈ es, e.value.length < Decimal.bound) (h : Series ItemSpelled es' text)
    (hcontent : es'.map Element.content = es.map Element.content)
    (hi : text = es.flatMap itemWire) :
    (∀ e ∈ es, e.IsSafe (some Byte.pipe)) ∧ es' = es.map Element.written := by
  have hone : ∀ e ∈ es, ∀ {e' line rest rest'}, ItemSpelled e' line → e'.content = e.content →
      Element.EndsBefore (some Byte.pipe) rest → Element.EndsBefore (some Byte.pipe) rest' →
      line ++ rest = itemWire e ++ rest' →
        e.IsSafe (some Byte.pipe) ∧ e' = e.written ∧ rest = rest' := by
    intro e he e' line rest rest' hline hsame hends hends' hi
    cases hline with
    | mk hline =>
      exact Element.eq_of_spelled slot.separates_form rfl (htypes e he) (hlengths e he) hline hsame
        hends hends' (List.cons.inj hi).2
  exact Series.eq_map_of_content_of_eq hone endsBefore_of_series (fun _ => endsBefore_flatMap) h
    hcontent hi

/-- A list that is rendered is read back if and only if no element holds a `|` without having its
    length told. What is read back then is the list as it was written. -/
theorem parse_toBytes_iff (hbuild : build type drafts t = .ok l)
    (hsize : l.wireSize < Decimal.bound) :
    ∃ bytes, Sendable.toBytes l = some bytes ∧
      ((∃ l', parse bytes = .ok l' ∧ l'.SameContent l) ↔
        ∀ e ∈ l.elements, e.counted = false → Byte.pipe ∉ e.value) ∧
      ∀ l', parse bytes = .ok l' → l'.SameContent l → l' = l.written := by
  refine ⟨l.wire, l.renders_wire.toBytes, ?_⟩
  obtain ⟨htype, htypes⟩ := build_eq_ok hbuild
  have hlengths : ∀ e ∈ l.elements, e.value.length < Decimal.bound := fun e he =>
    Nat.lt_of_le_of_lt (length_value_le he) hsize
  have hsafe : (∀ e ∈ l.elements, e.IsSafe (some Byte.pipe)) ↔
      ∀ e ∈ l.elements, e.counted = false → Byte.pipe ∉ e.value :=
    forall₂_congr fun _ _ => Element.isSafe_some_iff
  rw [← hsafe]
  apply Except.exists_ok_iff
  -- The text spells what was sent and what is read, with the same content; so it does element by
  -- element.
  · rintro ⟨type', elements'⟩ hparse ⟨rfl, hcontent⟩
    generalize hw : l.wire = text at hparse
    cases parse_eq_ok_iff.1 hparse with
    | mk _ hseries =>
      obtain ⟨hsafe, rfl⟩ :=
        eq_of_series htypes hlengths hseries hcontent (List.append_cancel_left hw).symm
      exact ⟨hsafe, rfl⟩
  · intro hsafe
    exact ⟨parse_eq_ok_iff.2 (.mk htype (series_wire htypes hlengths hsafe)), sameContent_written⟩

/-- A value with a `|` is read back with its length and not without it; the length that an empty
    value was to have is gone. -/
theorem parse_toBytes_of_pipe :
    (∃ l, build [] [⟨[], Bytes.ofText "a|b", .delimited⟩] {} = .ok l ∧
      Sendable.toBytes l = some (Bytes.ofText "| a|b") ∧
      ¬ ∃ l', parse (Bytes.ofText "| a|b") = .ok l' ∧ l'.SameContent l) ∧
    ∃ l, build [] [⟨[], Bytes.ofText "a|b", .automatic⟩, ⟨Bytes.ofText "_x", [], .counted⟩] {} =
        .ok l ∧
      Sendable.toBytes l = some (Bytes.ofText "|:3 a|b|=_x") ∧
      parse (Bytes.ofText "|:3 a|b|=_x") =
        .ok ⟨[], [⟨[], Bytes.ofText "a|b", true⟩, ⟨Bytes.ofText "_x", [], false⟩]⟩ := by
  constructor
  · let l : ListValue := ⟨[], [⟨[], Bytes.ofText "a|b", false⟩]⟩
    have hbuild : build [] [⟨[], Bytes.ofText "a|b", .delimited⟩] {} = .ok l := rfl
    have hbytes : Sendable.toBytes l = some (Bytes.ofText "| a|b") := by decide +kernel
    obtain ⟨bytes, hsent, hread, -⟩ := parse_toBytes_iff hbuild (by decide +kernel)
    obtain rfl := Option.some.inj (hsent.symm.trans hbytes)
    refine ⟨l, hbuild, hbytes, fun hback => ?_⟩
    exact hread.1 hback _ List.mem_cons_self rfl (by decide +kernel)
  · let l : ListValue := ⟨[], [⟨[], Bytes.ofText "a|b", true⟩, ⟨Bytes.ofText "_x", [], true⟩]⟩
    have hbuild : build [] [⟨[], Bytes.ofText "a|b", .automatic⟩,
        ⟨Bytes.ofText "_x", [], .counted⟩] {} = .ok l := rfl
    have hbytes : Sendable.toBytes l = some (Bytes.ofText "|:3 a|b|=_x") := by decide +kernel
    obtain ⟨bytes, hsent, hread, hwritten⟩ := parse_toBytes_iff hbuild (by decide +kernel)
    obtain rfl := Option.some.inj (hsent.symm.trans hbytes)
    obtain ⟨l', hparse, hsame⟩ := hread.2 (by decide +kernel)
    obtain rfl := hwritten l' hparse hsame
    exact ⟨l, hbuild, hbytes, hparse⟩

end PacketWire.ListValue
