import PacketWire.Proofs.Packet.Relay
import PacketWire.Proofs.Packet.RoundTrip

namespace PacketWire

/-!
# Packets that are sent on

A relay sends a packet on with the content as it came, and decides anew whether the length of the
content is told. The length can be left out only where no line of the content is just `|`, and then
the data has no such line either; so the new wire form is another way to write the same packet
(`Packet.exists_forward`).
-/

/-! ### Building what was relayed -/

/-- Modifiers that were built once can be built again. -/
theorem Modifier.mapM_buildRouting {ms : List Modifier}
    (h : ∀ m ∈ ms, isKeyword m.name ∧ Byte.lineFeed ∉ m.value) :
    (ms.map fun m => (⟨m, .routing⟩ : Draft)).mapM Draft.buildRouting = .ok ms := by
  induction ms with
  | nil => rfl
  | cons m ms ih =>
    obtain ⟨⟨hname, hvalue⟩, hms⟩ := List.forall_mem_cons.1 h
    have hone : Draft.buildRouting ⟨m, .routing⟩ = .ok m :=
      buildRouting_of_isKeyword hname hvalue
    rw [List.map_cons, List.mapM_cons, hone, ih hms]
    rfl

namespace Packet

variable {d : Draft} {p q : Packet} {r : Received} {t : Thresholds} {content : Bytes}

/-- What a relay receives of a packet: the routing modifiers, and the content as it comes. -/
def relayed (p : Packet) : Received where
  routing := p.routing
  content := p.content.wire

/-- A relay reads the wire form to its end, if the length of the content is told or no line of the
    content is just `|`. -/
theorem IsValid.rawSpelled_wire (h : p.IsValid) (hsize : p.content.wire.length < Decimal.bound)
    (hlines : p.counted = false → Unclosed p.content.wire) :
    RawSpelled p.routing p.content.wire p.wire := by
  obtain ⟨-, hw⟩ | ⟨hc, hw⟩ | ⟨-, hnil, hw⟩ := h.wire_cases
  · have hcounted := RawSpelled.counted h.header (Decimal.numeral_digits hsize)
    rw [hw]
    simpa using hcounted
  · have hdelimited := RawSpelled.delimited h.header (hlines hc)
    rw [hw]
    simpa using hdelimited
  · rw [hnil, hw]
    exact .empty h.header

/-- Raw content that has no need of its length is made of lines, none of which is just `|`. -/
theorem unclosed_of_wantsLength (h : Content.wantsLength t (.raw content) = false) :
    Unclosed content := by
  obtain ⟨hmimics, hlast⟩ := Bool.or_eq_false_iff.1 h
  have hholds := (Bool.or_eq_false_iff.1 (Bool.or_eq_false_iff.1 hmimics).2).2
  obtain ⟨front, rfl⟩ : ∃ front, content = front ++ [Byte.lineFeed] :=
    List.getLast?_eq_some_iff.1 (by simpa using hlast)
  refine unclosed_lineFeed_iff.2 fun hmem => ?_
  rw [Bytes.holds_eq_true_iff.2 (closingLine_infix_of_mem hmem)] at hholds
  cases hholds

/-- What a relay received of a valid packet can be built. The content is as it was, and its length
    is told unless it is made of lines, none of which is just `|`. -/
theorem IsValid.exists_rebuild (h : p.IsValid) (t : Thresholds) :
    ∃ q, p.relayed.rebuild t = .ok q ∧ q.routing = p.routing ∧
      q.content.wire = p.content.wire ∧ (q.counted = false → Unclosed p.content.wire) := by
  have hrouting := Modifier.mapM_buildRouting h.routing
  have hcontent : p.relayed.toDraft.checkContent = .ok () := by
    simp [Draft.checkContent, Draft.hasFields, Received.toDraft, relayed]
  have hentity : p.relayed.toDraft.entity.mapM (fun m => m.buildEntity t) = .ok [] := rfl
  refine ⟨_, build_of_eq_ok hcontent (by rfl) hrouting hentity, rfl, ?_⟩
  show (Draft.buildContent _ []).wire = _ ∧ (Content.wantsLength t _ = false → _)
  -- No content is built as a packet without fields, and any other content as the bytes that it is.
  cases hw : p.content.wire with
  | nil =>
    have hbuild : p.relayed.toDraft.buildContent [] = .fields {} := by
      simp [Draft.buildContent, Received.toDraft, relayed, hw]
    rw [hbuild]
    exact ⟨by rfl, fun _ => .nil⟩
  | cons b bytes =>
    have hbuild : p.relayed.toDraft.buildContent [] = .raw (b :: bytes) := by
      simp [Draft.buildContent, Received.toDraft, relayed, hw]
    rw [hbuild]
    exact ⟨rfl, unclosed_of_wantsLength⟩

/-! ### Content without its length -/

/-- No line of the data is just `|` if no line of the content is. -/
theorem ContentSpelled.notMem_of_unclosed (h : ContentSpelled r content) (hu : Unclosed content) :
    [Byte.pipe] ∉ Bytes.split Byte.lineFeed r.data := by
  cases h with
  | @mk action modifiers _ _ _ hbody _ =>
    generalize r.method = method at hbody
    generalize r.data = data at hbody
    cases hbody with
    | absent => decide
    | method => decide
    | data =>
      -- the lines of the data are the last ones of the content
      have hsplit : action ++ modifiers ++ (method ++ Byte.lineFeed :: data ++ [Byte.lineFeed]) =
          action ++ modifiers ++ method ++ Byte.lineFeed :: (data ++ [Byte.lineFeed]) := by simp
      rw [hsplit] at hu
      exact unclosed_lineFeed_iff.1 (unclosed_append_lineFeed_iff.1 hu).2

/-- The values of a packet that was built without its length end with their lines. -/
theorem holdsNoEnd_of_build (hraw : d.content = none) (hp : d.build t = .ok p)
    (hleaves : d.LeavesNoneOut) (hc : p.counted = false) : HoldsNoEnd p.received.entity := by
  have hread := isReadable_of_build hp hleaves
  obtain ⟨f, hf⟩ := content_of_build hraw hp
  obtain ⟨-, routing, entity, -, -, rfl⟩ := build_eq_ok hp
  obtain hf : d.buildContent entity = .fields f := hf
  rw [hf] at hread hc ⊢
  -- a value with its length would have the length of the content told
  have hneed := Framing.eq_false_of_isCounted hleaves.framing hc
  have hall : f.entity.any Modifier.Framed.counted = false :=
    (Bool.or_eq_false_iff.1 (Bool.or_eq_false_iff.1 hneed).1).1
  intro m hm
  obtain ⟨e, he, rfl⟩ := List.mem_map.1 hm
  have hline := hread.entity e he (by simpa using List.any_eq_false.1 hall e he)
  rw [Bytes.split_of_notMem hline]
  exact List.not_mem_nil

theorem contentSpelled_of_build (hraw : d.content = none) (hp : d.build t = .ok p)
    (hleaves : d.LeavesNoneOut) (hsize : p.contentSize < Decimal.bound) :
    ContentSpelled p.received p.content.wire := by
  have hvalid := isValid_of_build hp
  have hread := isReadable_of_build hp hleaves
  obtain ⟨f, hf⟩ := content_of_build hraw hp
  obtain ⟨routing, content, counted⟩ := p
  obtain rfl : content = .fields f := hf
  exact contentSpelled_wire hvalid hread hsize

/-! ### Sending on -/

/-- What is sent on, and how it can be read. -/
structure Forwards (t : Thresholds) (p q : Packet) : Prop where
  /-- The relay builds the packet that it sends on. -/
  rebuild : p.relayed.rebuild t = .ok q
  /-- An end point reads the packet that was built first. -/
  sent : Spelled p.received p.wire
  /-- The relay reads the content as it comes. -/
  raw : RawSpelled p.routing p.content.wire p.wire
  /-- An end point behind the relay reads the same packet. -/
  forwarded : Spelled p.received q.wire

/-- A packet that was built from its fields, and leaves out no length on the choice of its sender,
    is sent on so that it can be read again. -/
theorem exists_forward (hraw : d.content = none) (hp : d.build t = .ok p)
    (hleaves : d.LeavesNoneOut) (hsize : p.wire.length < Decimal.bound) (t' : Thresholds) :
    ∃ q, Forwards t' p q := by
  have hvalid := isValid_of_build hp
  have hread := isReadable_of_build hp hleaves
  have hcontent : p.contentSize < Decimal.bound := by
    rw [hvalid.length_wire, wireSize] at hsize
    omega
  have hspelled := contentSpelled_of_build hraw hp hleaves hcontent
  have hrouting : p.received.routing = p.routing := by
    rw [received]
    split <;> rfl
  rw [← hvalid.length_content] at hcontent
  have hdata : p.counted = false → [Byte.pipe] ∉ Bytes.split Byte.lineFeed p.received.data :=
    fun hc => hread.data.resolve_left (by rw [hc]; exact Bool.false_ne_true)
  obtain ⟨q, hq, hqrouting, hqcontent, hqlines⟩ := hvalid.exists_rebuild t'
  refine ⟨q, hq, hvalid.spelled_wire hrouting hcontent hspelled hdata,
    hvalid.rawSpelled_wire hcontent fun hc => ?_, ?_⟩
  · exact unclosed_content hspelled (hdata hc) (holdsNoEnd_of_build hraw hp hleaves hc)
  · -- the length may be left out now, but then no line of the data is just `|`
    rw [← hqcontent] at hcontent hspelled hqlines
    exact (isValid_of_build hq).spelled_wire (hrouting.trans hqrouting.symm) hcontent hspelled
      fun hc => hspelled.notMem_of_unclosed (hqlines hc)

end Packet

end PacketWire
