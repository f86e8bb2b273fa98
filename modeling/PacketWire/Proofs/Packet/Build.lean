import PacketWire.Proofs.Checks
import PacketWire.Proofs.Packet.Found
import PacketWire.Proofs.Packet.Wire

namespace PacketWire

/-!
# Packets that are built

A packet that is built is valid (`Packet.isValid_of_build`). Where the sender leaves out no length
on its own choice, the lengths are told so that the packet can be read
(`Packet.isReadable_of_build`).
-/

/-- Where it is not forbidden to tell a length, there is no need for one that is not told. -/
theorem Framing.eq_false_of_isCounted {framing : Framing} {need : Bool} (h : framing ≠ .delimited)
    (hc : framing.isCounted need = false) : need = false := by
  cases framing with
  | automatic => exact hc
  | counted => cases hc
  | delimited => exact absurd rfl h

/-- A value without need of its length does not hold what ends it. -/
theorem notMem_of_wantsLength {value : Bytes} {threshold : Nat} {b : UInt8}
    (h : wantsLength value threshold (some b) = false) : b ∉ value := by
  have hhas : value.contains b = false := (Bool.or_eq_false_iff.1 h).2
  simpa using hhas

/-! ### Modifiers -/

namespace Modifier

variable {d : Draft} {m : Modifier} {e : Framed} {t : Thresholds}

/-- A name that passes the check is a keyword. -/
theorem isKeyword_of_checkName {u : Unit} (h : m.checkName = .ok u) : isKeyword m.name := by
  rw [checkName] at h
  split at h
  · cases h
  · exact checkKeyword_eq_ok_iff.1 h

/-- A routing modifier that is built has a keyword for its name, and a value on one line. -/
theorem buildRouting_eq_ok (h : d.buildRouting = .ok m) :
    m = d.modifier ∧ isKeyword m.name ∧ Byte.lineFeed ∉ m.value := by
  obtain ⟨_, hname, hvalue⟩ := Except.bind_eq_ok_iff.1 h
  split at hvalue
  · cases hvalue
  · next hline =>
    cases hvalue
    exact ⟨rfl, isKeyword_of_checkName hname, by simpa using hline⟩

/-- A keyword passes the check. -/
theorem checkName_of_isKeyword (hname : isKeyword m.name) : m.checkName = .ok () := by
  rw [checkName, if_neg (by simpa using (isKeyword_iff.1 hname).1)]
  exact checkKeyword_eq_ok_iff.2 hname

/-- And such a one is always built. -/
theorem buildRouting_of_isKeyword (hname : isKeyword d.modifier.name)
    (hvalue : Byte.lineFeed ∉ d.modifier.value) : d.buildRouting = .ok d.modifier := by
  have hcheck : d.modifier.checkName = .ok () := checkName_of_isKeyword hname
  refine Except.bind_eq_ok_iff.2 ⟨(), hcheck, ?_⟩
  rw [if_neg (by simpa using hvalue)]
  rfl

/-- An entity modifier that is built has a keyword for its name, and its length told as was asked.
    -/
theorem buildEntity_eq_ok (h : d.buildEntity t = .ok e) :
    isKeyword e.modifier.name ∧ e = ⟨d.modifier, d.kind.framing.isCounted
      (wantsLength d.modifier.value t.modifier (some Byte.lineFeed))⟩ := by
  obtain ⟨_, hname, hmade⟩ := Except.bind_eq_ok_iff.1 h
  cases hmade
  exact ⟨isKeyword_of_checkName hname, rfl⟩

/-- And such a one is always built, whatever its value is. -/
theorem buildEntity_of_isKeyword (hname : isKeyword d.modifier.name) :
    d.buildEntity t = .ok ⟨d.modifier, d.kind.framing.isCounted
      (wantsLength d.modifier.value t.modifier (some Byte.lineFeed))⟩ := by
  have hcheck : d.modifier.checkName = .ok () := checkName_of_isKeyword hname
  exact Except.bind_eq_ok_iff.2 ⟨(), hcheck, rfl⟩

/-- A value that may hold a line feed has its length told, unless this is forbidden. -/
theorem notMem_of_buildEntity (h : d.buildEntity t = .ok e) (hframing : d.kind.framing ≠ .delimited)
    (hc : e.counted = false) : Byte.lineFeed ∉ e.modifier.value := by
  obtain ⟨-, rfl⟩ := buildEntity_eq_ok h
  exact notMem_of_wantsLength (Framing.eq_false_of_isCounted hframing hc)

end Modifier

/-! ### Data and the closing line -/

namespace Packet

variable {d : Draft} {p : Packet} {t : Thresholds} {data : Bytes}

/-- Data with a line that is just `|` is told to mimic the closing line. -/
theorem mimicsClosingLine_of_mem (h : [Byte.pipe] ∈ Bytes.split Byte.lineFeed data) :
    mimicsClosingLine data = true := by
  have hclosed : ¬ Unclosed (data ++ [Byte.lineFeed]) := fun hu => unclosed_lineFeed_iff.1 hu h
  obtain ⟨lines, -, hlines, behind, hb⟩ := @scanLines_of_closed _ [] hclosed
  rw [mimicsClosingLine, Bool.or_eq_true, Bool.or_eq_true]
  by_cases hbehind : behind = []
  · -- the line is the last one: it is all of the data, or a line feed is in front of it
    subst hbehind
    have hdata : data = lines ++ [Byte.pipe] := by
      rw [List.append_nil] at hb
      have hb' : lines ++ [Byte.pipe] ++ [Byte.lineFeed] = data ++ [Byte.lineFeed] := by
        rw [← hb]
        simp [closingLine]
      exact (List.append_cancel_right hb').symm
    refine .inl ?_
    by_cases hne : lines = []
    · subst hne
      exact .inl (by rw [hdata]; rfl)
    · obtain ⟨front, rfl⟩ := hlines.eq_append hne
      refine .inr (List.isSuffixOf_iff_suffix.2 ⟨front, ?_⟩)
      rw [hdata]
      simp
  · -- the line is followed by others
    refine .inr ?_
    -- the closing line then is a part of the data, the last line feed apart
    have hinfix : closingLine <:+: data := by
      refine ⟨lines, behind.dropLast, ?_⟩
      rw [← List.dropLast_append_of_ne_nil hbehind, hb, List.dropLast_concat]
    exact Bytes.holds_eq_true_iff.2 hinfix

/-! ### Packets -/

/-- A packet that is built has passed all checks, and is made of what was built of its parts. -/
theorem build_eq_ok (h : d.build t = .ok p) :
    d.checkBody = .ok () ∧ ∃ routing entity,
      d.routing.mapM Modifier.Draft.buildRouting = .ok routing ∧
      d.entity.mapM (fun m => m.buildEntity t) = .ok entity ∧
      p = ⟨routing, d.buildContent entity,
        d.framing.isCounted ((d.buildContent entity).wantsLength t)⟩ := by
  obtain ⟨_, -, hbody⟩ := Except.bind_eq_ok_iff.1 h
  obtain ⟨_, hcheck, hrouting⟩ := Except.bind_eq_ok_iff.1 hbody
  obtain ⟨routing, hms, hentity⟩ := Except.bind_eq_ok_iff.1 hrouting
  obtain ⟨entity, hes, hpure⟩ := Except.bind_eq_ok_iff.1 hentity
  cases hpure
  exact ⟨hcheck, routing, entity, hms, hes, rfl⟩

/-- A draft that passes all checks is built. -/
theorem build_of_eq_ok {routing : List Modifier} {entity : List Modifier.Framed}
    (hcontent : d.checkContent = .ok ()) (hbody : d.checkBody = .ok ())
    (hrouting : d.routing.mapM Modifier.Draft.buildRouting = .ok routing)
    (hentity : d.entity.mapM (fun m => m.buildEntity t) = .ok entity) :
    d.build t = .ok ⟨routing, d.buildContent entity,
      d.framing.isCounted ((d.buildContent entity).wantsLength t)⟩ := by
  refine Except.bind_eq_ok_iff.2 ⟨(), hcontent, Except.bind_eq_ok_iff.2 ⟨(), hbody, ?_⟩⟩
  refine Except.bind_eq_ok_iff.2 ⟨routing, hrouting, Except.bind_eq_ok_iff.2 ⟨entity, hentity, ?_⟩⟩
  rfl

/-- The content is that of a draft with fields, or is raw. -/
theorem buildContent_cases (d : Draft) (entity : List Modifier.Framed) :
    d.buildContent entity =
        .fields { state := d.state, entity, method := d.method, data := d.data } ∨
      ∃ bytes, d.content = some bytes ∧ d.buildContent entity = .raw bytes := by
  unfold Draft.buildContent
  split
  · next hraw => exact .inr ⟨_, hraw, rfl⟩
  · exact .inl rfl

/-- Content that is not raw is built from its fields. -/
theorem content_of_build (hraw : d.content = none) (h : d.build t = .ok p) :
    ∃ f, p.content = .fields f := by
  obtain ⟨-, routing, entity, -, -, rfl⟩ := build_eq_ok h
  obtain hfields | ⟨bytes, hsome, -⟩ := buildContent_cases d entity
  · exact ⟨_, hfields⟩
  · rw [hraw] at hsome
    cases hsome

/-- A body that passes the check has a keyword for its method, and data only with a method. -/
theorem checkBody_eq_ok {u : Unit} (h : d.checkBody = .ok u) :
    (d.method ≠ [] → isKeyword d.method) ∧ (d.method = [] → d.data = []) := by
  rw [Draft.checkBody] at h
  by_cases hm : d.method = []
  · refine ⟨fun hne => absurd hm hne, fun _ => ?_⟩
    by_cases hd : d.data = []
    · exact hd
    · rw [if_pos (by simp [hm, hd])] at h
      cases h
  · rw [if_neg (by simp [hm]), checkOptionalKeyword_eq_ok_iff] at h
    exact ⟨fun _ => h.resolve_left hm, fun he => absurd he hm⟩

/-- And such a body passes the check. -/
theorem checkBody_of_isKeyword (hmethod : d.method ≠ [] → isKeyword d.method)
    (hdata : d.method = [] → d.data = []) : d.checkBody = .ok () := by
  rw [Draft.checkBody]
  by_cases hm : d.method = []
  · rw [if_neg (by simp [hdata hm])]
    exact checkOptionalKeyword_eq_ok_iff.2 (.inl hm)
  · rw [if_neg (by simp [hm])]
    exact checkOptionalKeyword_eq_ok_iff.2 (.inr (hmethod hm))

/-- What is built is valid. -/
theorem isValid_of_build (h : d.build t = .ok p) : p.IsValid := by
  obtain ⟨hcheck, routing, entity, hms, hes, rfl⟩ := build_eq_ok h
  have hrouting : ∀ m ∈ routing, isKeyword m.name ∧ Byte.lineFeed ∉ m.value := fun m hm => by
    obtain ⟨_, -, hbuilt⟩ := Except.exists_of_mem_mapM hms hm
    exact (Modifier.buildRouting_eq_ok hbuilt).2
  have hentity : ∀ e ∈ entity, isKeyword e.modifier.name := fun e he => by
    obtain ⟨_, -, hbuilt⟩ := Except.exists_of_mem_mapM hes he
    exact (Modifier.buildEntity_eq_ok hbuilt).1
  obtain hfields | ⟨bytes, -, hraw⟩ := buildContent_cases d entity
  · rw [hfields]
    exact ⟨hrouting, hentity, (checkBody_eq_ok hcheck).1, (checkBody_eq_ok hcheck).2⟩
  · rw [hraw]
    exact ⟨hrouting, nofun, fun hne => absurd rfl hne, fun _ => rfl⟩

/-- No length may be left out on the choice of the sender. -/
structure Draft.LeavesNoneOut (d : Draft) : Prop where
  /-- The length of the content is told, or it is decided whether it is. -/
  framing : d.framing ≠ .delimited
  /-- So are the lengths of the values. -/
  entity : ∀ m ∈ d.entity, m.kind.framing ≠ .delimited

/-- Where all decisions are left open, none is to leave a length out. -/
theorem Draft.leavesNoneOut_of_automatic (hframing : d.framing = .automatic)
    (hentity : ∀ m ∈ d.entity, m.kind.framing = .automatic) : d.LeavesNoneOut where
  framing := by
    rw [hframing]
    nofun
  entity m hm := by
    rw [hentity m hm]
    nofun

/-- Where the sender leaves no length out, every value that needs its length is sent with it. -/
theorem isReadable_of_build (h : d.build t = .ok p) (hleaves : d.LeavesNoneOut) :
    p.IsReadable := by
  obtain ⟨-, routing, entity, -, hes, rfl⟩ := build_eq_ok h
  obtain hfields | ⟨bytes, -, hraw⟩ := buildContent_cases d entity
  · rw [hfields]
    refine ⟨fun e he hc => ?_, Decidable.or_iff_not_imp_left.2 fun hc hmem => ?_⟩
    · obtain ⟨m, hm, hbuilt⟩ := Except.exists_of_mem_mapM hes he
      exact Modifier.notMem_of_buildEntity hbuilt (hleaves.entity m hm) hc
    · -- such data has the length of the content told
      have hneed := Framing.eq_false_of_isCounted hleaves.framing (Bool.eq_false_iff.2 hc)
      have hmimics : mimicsClosingLine d.data = true := mimicsClosingLine_of_mem hmem
      rw [(Bool.or_eq_false_iff.1 hneed).2] at hmimics
      cases hmimics
  · rw [hraw]
    exact ⟨nofun, .inr (show [Byte.pipe] ∉ Bytes.split Byte.lineFeed [] by decide)⟩

/-- Where all decisions are left open, every value that needs its length is sent with it. -/
theorem isReadable_of_automatic (h : d.build t = .ok p) (hframing : d.framing = .automatic)
    (hentity : ∀ m ∈ d.entity, m.kind.framing = .automatic) : p.IsReadable :=
  isReadable_of_build h (Draft.leavesNoneOut_of_automatic hframing hentity)

end Packet

end PacketWire
