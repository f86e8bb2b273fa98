import PacketWire.Packet.Spelling
import PacketWire.Proofs.Decimal
import PacketWire.Proofs.Packet.Lines
import PacketWire.Proofs.Series
import PacketWire.WireForm

namespace PacketWire

/-!
# Wire forms among the spellings

The wire form of a packet is one of the ways to write it, if no value that is sent without its
length holds what would end it: no line feed stands in the value of a modifier, and no line of the
data is just `|` (`Packet.IsReadable`). Otherwise the wire form is no way to write the packet, but
something else or nothing (`Packet.spelled_wire_iff`).
-/

variable {text rest rest' : Bytes}

/-! ### Modifiers -/

namespace Modifier

variable {m : Modifier} {e : Framed}

/-- The wire form of a modifier has the size that is told of it. -/
theorem length_wire (m : Modifier) (counted : Bool) :
    (m.wire counted).length = m.wireSize counted := by
  cases counted with
  | false =>
    simp [wire, wireSize]
    omega
  | true =>
    simp [wire, wireSize, Decimal.length_digits]
    omega

/-- A modifier without a length is written on one line, if its value is. -/
theorem plainSpelled_wire (hname : isKeyword m.name) (hvalue : Byte.lineFeed ∉ m.value) :
    Packet.PlainSpelled m (m.wire false) := by
  have hline := @Packet.PlainSpelled.valued m.oper _ _ hname hvalue
  simpa [wire] using hline

/-- A modifier without a length that starts like its wire form is its wire form. -/
theorem eq_wire_of_plainSpelled (h : Packet.PlainSpelled m text)
    (hi : text ++ rest = m.wire false ++ rest') :
    text = m.wire false ∧ Byte.lineFeed ∉ m.value := by
  cases h with
  | bare =>
    simp [wire] at hi
    exact absurd hi.1 (by decide)
  | valued _ hvalue => exact ⟨by simp [wire], hvalue⟩

/-- An entity modifier is written in one of the ways to write it, with its length if it needs one.
    -/
theorem Framed.entitySpelled_wire (hname : isKeyword e.modifier.name)
    (hsize : e.modifier.value.length < Decimal.bound)
    (hvalue : e.counted = false → Byte.lineFeed ∉ e.modifier.value) :
    Packet.EntitySpelled e.modifier e.wire := by
  obtain ⟨m, counted⟩ := e
  cases counted with
  | false => exact .plain (plainSpelled_wire hname (hvalue rfl))
  | true =>
    have hline := @Packet.EntitySpelled.counted m.oper _ _ _ hname (Decimal.numeral_digits hsize)
    simpa [Framed.wire, Modifier.wire] using hline

/-- A modifier that starts like its wire form is its wire form. -/
theorem Framed.eq_wire_of_entitySpelled (h : Packet.EntitySpelled e.modifier text)
    (hi : text ++ rest = e.wire ++ rest') :
    text = e.wire ∧ (e.counted = false → Byte.lineFeed ∉ e.modifier.value) := by
  obtain ⟨m, counted⟩ := e
  cases counted with
  | false =>
    cases h with
    | plain h =>
      obtain ⟨htext, hvalue⟩ := eq_wire_of_plainSpelled h hi
      exact ⟨htext, fun _ => hvalue⟩
    | counted =>
      simp [Framed.wire, Modifier.wire] at hi
      exact absurd hi.1 (by decide)
  | true =>
    refine ⟨?_, nofun⟩
    cases h with
    | plain h =>
      cases h with
      | bare =>
        simp [Framed.wire, Modifier.wire] at hi
        exact absurd hi.1 (by decide)
      | valued =>
        simp [Framed.wire, Modifier.wire] at hi
        exact absurd hi.1 (by decide)
    | @counted oper name value digits _ hnum =>
      -- the tab behind the length shows where the digits end
      have hwire := Decimal.numeral_digits hnum.lt_bound
      have hdigits : digits = Decimal.digits value.length := by
        simp only [Framed.wire, Modifier.wire, List.append_assoc, List.cons_append, if_true,
          List.cons.injEq, true_and, List.append_cancel_left_eq] at hi
        exact (Bytes.append_cons_inj_of_notMem (Decimal.notMem_of_numeral hnum (by decide))
          (Decimal.notMem_of_numeral hwire (by decide)) hi).1
      subst hdigits
      simp [Framed.wire, Modifier.wire]

end Modifier

/-! ### Content -/

namespace Packet

/-- The entity modifiers that content is made of. -/
def Content.entity : Content → List Modifier.Framed
  | .fields f => f.entity
  | .raw _ => []

/-- The names of a packet are keywords, and so is the method, which data does not go without. -/
structure IsValid (p : Packet) : Prop where
  /-- Routing modifiers have names, and values of one line. -/
  routing : ∀ m ∈ p.routing, isKeyword m.name ∧ Byte.lineFeed ∉ m.value
  /-- Entity modifiers have names. -/
  entity : ∀ e ∈ p.content.entity, isKeyword e.modifier.name
  /-- The method is a keyword, if there is one. -/
  method : p.received.method ≠ [] → isKeyword p.received.method
  /-- There is no data without a method. -/
  data : p.received.method = [] → p.received.data = []

/-- No value that is sent without its length holds what would end it. -/
structure IsReadable (p : Packet) : Prop where
  /-- A value without its length ends with the line. -/
  entity : ∀ e ∈ p.content.entity, e.counted = false → Byte.lineFeed ∉ e.modifier.value
  /-- Content without its length ends with the first line that is just `|`. -/
  data : p.counted = true ∨ [Byte.pipe] ∉ Bytes.split Byte.lineFeed p.received.data

variable {p : Packet} {routing : List Modifier} {f : Fields} {counted : Bool}
  {method data content : Bytes}

/-- A state action is written in the one way there is. -/
theorem stateSpelled_wire (state : StateAction) : StateSpelled state (stateWire state) := by
  cases state with
  | none => exact .none
  | reset => exact .reset
  | resync => exact .resync

/-- There is only one way to write a state action. -/
theorem eq_stateWire_of_stateSpelled {state : StateAction} (h : StateSpelled state text) :
    text = stateWire state := by
  cases h <;> rfl

/-- A method and its data are written in the one way there is. -/
theorem bodySpelled_wire (hmethod : method ≠ [] → isKeyword method)
    (hdata : method = [] → data = []) : BodySpelled method data (bodyWire method data) := by
  by_cases hm : method = []
  · obtain rfl := hdata hm
    subst hm
    exact .absent
  · rw [bodyWire, if_neg (by simpa using hm)]
    by_cases hd : data = []
    · subst hd
      exact .method (hmethod hm)
    · rw [if_neg (by simpa using hd)]
      have hbody := @BodySpelled.data _ data (hmethod hm)
      rwa [List.append_assoc] at hbody

/-- A method and its data take a line feed each. -/
theorem length_bodyWire (hdata : method = [] → data = []) :
    (bodyWire method data).length =
      (if method.isEmpty then 0 else method.length + 1) +
        if data.isEmpty then 0 else data.length + 1 := by
  by_cases hm : method = []
  · obtain rfl := hdata hm
    subst hm
    rfl
  · by_cases hd : data = []
    · subst hd
      simp [bodyWire, hm]
    · simp [bodyWire, hm, hd]
      omega

/-- A state action takes two bytes. -/
theorem length_stateWire (state : StateAction) :
    (stateWire state).length = if state = .none then 0 else 2 := by
  cases state <;> rfl

/-- The content of a valid packet has the size that is told of it. -/
theorem IsValid.length_content (h : p.IsValid) : p.content.wire.length = p.contentSize := by
  obtain ⟨routing, content, counted⟩ := p
  cases content with
  | raw bytes => rfl
  | fields f =>
    show f.wire.length = Content.wireSize (.fields f)
    have hentity : (f.entity.flatMap Modifier.Framed.wire).length =
        totalSize Modifier.Framed.wireSize f.entity :=
      length_flatMap_eq_totalSize fun e _ => Modifier.length_wire e.modifier e.counted
    have hdata : f.method = [] → f.data = [] := h.data
    rw [Fields.wire, List.length_append, List.length_append, length_stateWire, hentity,
      length_bodyWire hdata, Content.wireSize]
    omega

/-- A packet has the size that is told for it. -/
theorem IsValid.length_wire (h : p.IsValid) : p.wire.length = p.wireSize := by
  have hheader : (p.routing.flatMap fun m => m.wire false).length = p.routingSize :=
    length_flatMap_eq_totalSize fun m _ => Modifier.length_wire m false
  have hcount : (if p.counted then Decimal.digits p.contentSize else []).length =
      if p.counted then Decimal.width p.contentSize else 0 := by
    split
    · exact Decimal.length_digits _
    · rfl
  have hline : (if p.hasLengthLine then [Byte.lineFeed] else []).length =
      if p.hasLengthLine then 1 else 0 := by
    split <;> rfl
  have hclosing : closingLine.length = 2 := rfl
  rw [wire, List.length_append, List.length_append, List.length_append, List.length_append, hheader,
    hcount, hline, hclosing, h.length_content, wireSize]
  omega

/-! ### Packets -/

/-- The wire form, by how the length of the content is told. -/
theorem IsValid.wire_cases (h : p.IsValid) :
    (p.counted = true ∧ p.wire = p.routing.flatMap (fun m => m.wire false) ++
        (Decimal.digits p.content.wire.length ++
          Byte.lineFeed :: (p.content.wire ++ closingLine))) ∨
      (p.counted = false ∧ p.wire = p.routing.flatMap (fun m => m.wire false) ++
        Byte.lineFeed :: (p.content.wire ++ closingLine)) ∨
      (p.counted = false ∧ p.content.wire = [] ∧
        p.wire = p.routing.flatMap (fun m => m.wire false) ++ closingLine) := by
  have hlength := h.length_content
  cases hc : p.counted with
  | true =>
    refine .inl ⟨rfl, ?_⟩
    simp [wire, hasLengthLine, hc, hlength]
  | false =>
    -- Without a length an empty line is there only if there is content behind it.
    by_cases hw : p.content.wire = []
    · refine .inr (.inr ⟨rfl, hw, ?_⟩)
      have hsize : p.contentSize = 0 := by rw [← hlength, hw]; rfl
      simp [wire, hasLengthLine, hc, hw, hsize]
    · refine .inr (.inl ⟨rfl, ?_⟩)
      have hsize : 0 < p.contentSize := by rw [← hlength]; exact List.length_pos_iff.2 hw
      simp [wire, hasLengthLine, hc, hsize]

/-- What is written as a method is a keyword, and data needs a method. -/
theorem BodySpelled.isKeyword (h : BodySpelled method data content) :
    (method ≠ [] → PacketWire.isKeyword method) ∧ (method = [] → data = []) := by
  cases h with
  | absent => exact ⟨fun hne => absurd rfl hne, fun _ => rfl⟩
  | method hkey => exact ⟨fun _ => hkey, fun _ => rfl⟩
  | data hkey => exact ⟨fun _ => hkey, fun he => absurd he (isKeyword_iff.1 hkey).1⟩

/-- Nothing is written only for no method and no data. -/
theorem BodySpelled.eq_nil (h : BodySpelled method data []) : method = [] ∧ data = [] := by
  generalize hw : ([] : Bytes) = text at h
  cases h with
  | absent => exact ⟨rfl, rfl⟩
  | method => simp at hw
  | data => simp at hw

/-- No content is written as no bytes but that of a packet without content. -/
theorem ContentSpelled.eq_of_nil {r : Received} (h : ContentSpelled r []) :
    r = { routing := r.routing } := by
  obtain ⟨routing, state, entity, method, data, raw⟩ := r
  generalize hw : ([] : Bytes) = text at h
  cases h with
  | mk hstate hentity hbody hraw =>
    obtain ⟨hfront, rfl⟩ := List.append_eq_nil_iff.1 hw.symm
    obtain ⟨rfl, rfl⟩ := List.append_eq_nil_iff.1 hfront
    obtain rfl : state = .none := by cases hstate; rfl
    obtain rfl : entity = [] := hentity.eq_nil EntitySpelled.ne_nil
    obtain ⟨rfl, rfl⟩ : method = [] ∧ data = [] := hbody.eq_nil
    obtain rfl : raw = [] := hraw
    rfl

/-- The content of a packet that can be read is written in one of the ways to write it. -/
theorem contentSpelled_wire (h : IsValid ⟨routing, .fields f, counted⟩)
    (hread : IsReadable ⟨routing, .fields f, counted⟩)
    (hsize : Content.wireSize (.fields f) < Decimal.bound) :
    ContentSpelled (received ⟨routing, .fields f, counted⟩) f.wire := by
  -- a value is no longer than the content that it is a part of
  have hvalue : ∀ e ∈ f.entity, e.modifier.value.length < Decimal.bound := fun e he => by
    have hle : e.wireSize ≤ totalSize Modifier.Framed.wireSize f.entity := le_totalSize he
    simp only [Modifier.Framed.wireSize, Modifier.wireSize] at hle
    simp only [Content.wireSize] at hsize
    omega
  refine .mk (stateSpelled_wire f.state) (.flatMap fun e he => ?_)
    (bodySpelled_wire h.method h.data) rfl
  exact e.entitySpelled_wire (h.entity e he) (hvalue e he) (hread.entity e he)

/-- The values of content that starts like its wire form end with the line. -/
theorem entity_of_contentSpelled
    (h : ContentSpelled (received ⟨routing, .fields f, counted⟩) content)
    (hi : content ++ rest = f.wire ++ rest') :
    ∀ e ∈ f.entity, e.counted = false → Byte.lineFeed ∉ e.modifier.value := by
  cases h with
  | mk hstate hentity hbody =>
    obtain rfl := eq_stateWire_of_stateSpelled hstate
    unfold Fields.wire at hi
    simp only [List.append_assoc] at hi
    exact (hentity.eq_flatMap (fun e _ {_ _ _} he hi => e.eq_wire_of_entitySpelled he hi)
      (List.append_cancel_left hi)).2

/-- What comes behind the header does not depend on how it is written. -/
theorem eq_behind_header {ms : List Modifier} {header : Bytes} (h : Series PlainSpelled ms header)
    (hi : header ++ rest = ms.flatMap (fun m => m.wire false) ++ rest') : rest = rest' := by
  have hms : Series PlainSpelled (ms.map id) header := by rwa [List.map_id]
  have hone : ∀ m ∈ ms, ∀ {line rest rest' : Bytes}, PlainSpelled (id m) line →
      line ++ rest = m.wire false ++ rest' → line = m.wire false ∧ Byte.lineFeed ∉ m.value :=
    fun m _ {_ _ _} => Modifier.eq_wire_of_plainSpelled
  obtain ⟨rfl, -⟩ := hms.eq_flatMap hone hi
  exact List.append_cancel_left hi

/-- The content fits into the packet. -/
theorem contentSize_lt (hsize : wireSize ⟨routing, .fields f, counted⟩ < Decimal.bound) :
    Content.wireSize (.fields f) < Decimal.bound := by
  have hsum : routingSize ⟨routing, .fields f, counted⟩ + Content.wireSize (.fields f) + 2 ≤
      wireSize ⟨routing, .fields f, counted⟩ := by
    simp only [wireSize, contentSize]
    omega
  omega

/-- The value of a modifier is shorter than the packet. -/
theorem length_value_le {m : Modifier} (hm : m ∈ p.received.entity) :
    m.value.length ≤ p.wireSize := by
  obtain ⟨routing, content, counted⟩ := p
  cases content with
  | raw bytes => cases hm
  | fields f =>
    obtain ⟨e, he, rfl⟩ := List.mem_map.1 hm
    have hone : e.wireSize ≤ totalSize Modifier.Framed.wireSize f.entity := le_totalSize he
    rw [Modifier.Framed.wireSize, Modifier.wireSize] at hone
    rw [wireSize, contentSize, Content.wireSize]
    omega

/-- The length of the content is written as a numeral for it. -/
theorem IsValid.numeral_content (h : IsValid ⟨routing, .fields f, counted⟩)
    (hsize : Content.wireSize (.fields f) < Decimal.bound) :
    Numeral f.wire.length (Decimal.digits f.wire.length) := by
  have hlength : f.wire.length = Content.wireSize (.fields f) := h.length_content
  exact Decimal.numeral_digits (hlength ▸ hsize)

/-- Where the wire form is a way to write the packet, its values end as they should. -/
theorem isReadable_of_spelled (h : IsValid ⟨routing, .fields f, counted⟩)
    (hsize : Content.wireSize (.fields f) < Decimal.bound)
    (hspelled : Spelled (received ⟨routing, .fields f, counted⟩)
      (wire ⟨routing, .fields f, counted⟩)) :
    IsReadable ⟨routing, .fields f, counted⟩ := by
  have hwire := h.numeral_content hsize
  generalize hq : received ⟨routing, .fields f, counted⟩ = q at hspelled
  generalize hw : wire ⟨routing, .fields f, counted⟩ = text at hspelled
  -- the wire form and the way to write the packet have the same header, and so the same bytes
  -- behind it
  have hbehind : ∀ {header front tail : Bytes}, Series PlainSpelled routing header →
      header ++ front = text → wire ⟨routing, .fields f, counted⟩ =
        routing.flatMap (fun m => m.wire false) ++ tail → front = tail :=
    fun hheader htext htail => eq_behind_header hheader (by rw [← htail, hw, htext])
  cases hspelled with
  | empty =>
    have hentity : f.entity = [] := List.map_eq_nil_iff.1 (congrArg Received.entity hq)
    have hdata : f.data = [] := congrArg Received.data hq
    refine ⟨fun e he => ?_, .inr ?_⟩
    · rw [show Content.entity (.fields f) = [] from hentity] at he
      cases he
    · rw [show (received ⟨routing, .fields f, counted⟩).data = [] from hdata]
      decide
  | @counted _ header digits content hheader hnum hspelled =>
    subst hq
    have hi : ∀ {tail}, wire ⟨routing, .fields f, counted⟩ =
        routing.flatMap (fun m => m.wire false) ++ tail →
        digits ++ Byte.lineFeed :: (content ++ closingLine) = tail :=
      hbehind hheader (by simp)
    obtain ⟨hc, htail⟩ | ⟨-, htail⟩ | ⟨-, -, htail⟩ := h.wire_cases
    · -- both tell the length, up to the first line feed
      obtain ⟨-, hrest⟩ := Bytes.append_cons_inj_of_notMem
        (Decimal.notMem_of_numeral hnum (by decide))
        (Decimal.notMem_of_numeral hwire (by decide)) (hi htail)
      exact ⟨entity_of_contentSpelled hspelled hrest, .inl hc⟩
    · exact absurd (hi htail) (Decimal.append_ne_cons_of_numeral hnum (by decide))
    · exact absurd (hi htail) (Decimal.append_ne_cons_of_numeral hnum (by decide))
  | @delimited _ header content hheader hspelled hlines =>
    subst hq
    have hi : ∀ {tail}, wire ⟨routing, .fields f, counted⟩ =
        routing.flatMap (fun m => m.wire false) ++ tail →
        Byte.lineFeed :: (content ++ closingLine) = tail :=
      hbehind hheader (by simp)
    obtain ⟨-, htail⟩ | ⟨-, htail⟩ | ⟨-, -, htail⟩ := h.wire_cases
    · exact absurd (hi htail).symm (Decimal.append_ne_cons_of_numeral hwire (by decide))
    · -- neither tells the length, and the data reaches up to the closing line
      exact ⟨entity_of_contentSpelled hspelled (List.cons.inj (hi htail)).2, .inr hlines⟩
    · exact absurd (List.cons.inj (hi htail)).1 (by decide)

/-- The routing modifiers of a valid packet are written one to a line. -/
theorem IsValid.header (h : p.IsValid) :
    Series PlainSpelled p.routing (p.routing.flatMap fun m => m.wire false) := by
  have hseries : Series PlainSpelled (p.routing.map id)
      (p.routing.flatMap fun m => m.wire false) :=
    .flatMap fun m hm => Modifier.plainSpelled_wire (h.routing m hm).1 (h.routing m hm).2
  rwa [List.map_id] at hseries

/-- The wire form is a way to write any packet with these routing modifiers that the content may be
    written for, if the data of one without its length has no line that is just `|`. -/
theorem IsValid.spelled_wire {r : Received} (h : p.IsValid) (hrouting : r.routing = p.routing)
    (hsize : p.content.wire.length < Decimal.bound) (hcontent : ContentSpelled r p.content.wire)
    (hdata : p.counted = false → [Byte.pipe] ∉ Bytes.split Byte.lineFeed r.data) :
    Spelled r p.wire := by
  have hheader := h.header
  rw [← hrouting] at hheader
  obtain ⟨-, hw⟩ | ⟨hc, hw⟩ | ⟨-, hnil, hw⟩ := h.wire_cases
  · have hcounted := Spelled.counted hheader (Decimal.numeral_digits hsize) hcontent
    rw [hw, ← hrouting]
    simpa using hcounted
  · have hdelimited := Spelled.delimited hheader hcontent (hdata hc)
    rw [hw, ← hrouting]
    simpa using hdelimited
  · rw [hnil] at hcontent
    rw [hcontent.eq_of_nil, hw, ← hrouting]
    exact .empty hheader

/-- The wire form of a packet whose values end as they should is a way to write it. -/
theorem spelled_of_isReadable (h : IsValid ⟨routing, .fields f, counted⟩)
    (hsize : Content.wireSize (.fields f) < Decimal.bound)
    (hread : IsReadable ⟨routing, .fields f, counted⟩) :
    Spelled (received ⟨routing, .fields f, counted⟩) (wire ⟨routing, .fields f, counted⟩) := by
  refine h.spelled_wire rfl ?_ (contentSpelled_wire h hread hsize) fun hc => ?_
  · rw [h.length_content]
    exact hsize
  · exact hread.data.resolve_left (by rw [hc]; nofun)

/-- The wire form is a way to write the packet just where its values end as they should. -/
theorem spelled_wire_iff (h : IsValid ⟨routing, .fields f, counted⟩)
    (hsize : wireSize ⟨routing, .fields f, counted⟩ < Decimal.bound) :
    Spelled (received ⟨routing, .fields f, counted⟩) (wire ⟨routing, .fields f, counted⟩) ↔
      IsReadable ⟨routing, .fields f, counted⟩ :=
  ⟨isReadable_of_spelled h (contentSize_lt hsize), spelled_of_isReadable h (contentSize_lt hsize)⟩

end Packet

end PacketWire
