import PacketWire.Proofs.Reader.Reachable
import PacketWire.Proofs.Reader.Relayed

namespace PacketWire

/-!
# Received packets that are sent on

What a reader gives can be sent on: the packet is built without a complaint, with all lengths
decided anew, and a reader in the same mode gives it again and has taken just its bytes
(`Reader.received_is_resendable`). The reader guarantees all that is checked when a packet is built
(`Received.IsValid`), and the lengths are told wherever they are needed.
-/

/-! ### Building what was received -/

/-- What is checked when a received packet is built again. -/
structure Received.IsValid (p : Received) : Prop where
  /-- Routing modifiers have names, and values of one line. -/
  routing : ∀ m ∈ p.routing, isKeyword m.name ∧ Byte.lineFeed ∉ m.value
  /-- Entity modifiers have names. -/
  entity : ∀ m ∈ p.entity, isKeyword m.name
  /-- The method is a keyword, if there is one. -/
  method : p.method ≠ [] → isKeyword p.method
  /-- There is no data without a method. -/
  data : p.method = [] → p.data = []

/-- Entity modifiers with keywords for names are all built. -/
theorem Modifier.exists_mapM_buildEntity {ms : List Modifier} (t : Thresholds)
    (h : ∀ m ∈ ms, isKeyword m.name) :
    ∃ es, (ms.map fun m => (⟨m, .entity .automatic⟩ : Draft)).mapM (fun d => d.buildEntity t) =
        .ok es ∧ es.map Framed.modifier = ms := by
  induction ms with
  | nil => exact ⟨[], rfl, rfl⟩
  | cons m ms ih =>
    obtain ⟨hname, hms⟩ := List.forall_mem_cons.1 h
    obtain ⟨es, hes, rfl⟩ := ih hms
    obtain ⟨e, he, hm⟩ : ∃ e, Draft.buildEntity ⟨m, .entity .automatic⟩ t = .ok e ∧
        e.modifier = m := ⟨_, buildEntity_of_isKeyword hname, rfl⟩
    refine ⟨e :: es, ?_, by rw [List.map_cons, hm]⟩
    rw [List.map_cons, List.mapM_cons, he, hes]
    rfl

namespace Packet

variable {p : Received} {m : Modifier} {text content method data : Bytes}

/-- A packet without raw content is built from its fields. -/
theorem exists_rebuild_fields (h : p.IsValid) (hraw : p.content = []) (t : Thresholds) :
    ∃ f counted, p.rebuild t = .ok ⟨p.routing, .fields f, counted⟩ ∧
      received ⟨p.routing, .fields f, counted⟩ = p ∧
      IsReadable ⟨p.routing, .fields f, counted⟩ := by
  obtain ⟨routing, state, entity, method, data, content⟩ := p
  obtain rfl : content = [] := hraw
  have hrouting := Modifier.mapM_buildRouting h.routing
  obtain ⟨es, hentity, rfl⟩ := Modifier.exists_mapM_buildEntity t h.entity
  have hbuild := @build_of_eq_ok (Received.toDraft
    { routing, state, entity := es.map Modifier.Framed.modifier, method, data }) t routing es rfl
    (checkBody_of_isKeyword h.method h.data) hrouting hentity
  refine ⟨_, _, hbuild, rfl, isReadable_of_automatic hbuild rfl ?_⟩
  simp [Received.toDraft, Modifier.Kind.framing]

/-! ### What a reader guarantees -/

/-- A routing modifier that was read passes the check of the builder. -/
theorem PlainSpelled.isKeyword (h : PlainSpelled m text) :
    PacketWire.isKeyword m.name ∧ Byte.lineFeed ∉ m.value := by
  cases h with
  | bare hname => exact ⟨hname, List.not_mem_nil⟩
  | valued hname hvalue => exact ⟨hname, hvalue⟩

/-- An entity modifier that was read passes it too. -/
theorem EntitySpelled.isKeyword (h : EntitySpelled m text) : PacketWire.isKeyword m.name := by
  cases h with
  | plain h => exact h.isKeyword.1
  | counted hname => exact hname

/-- A packet that was read is valid, and holds no raw content. -/
theorem ContentSpelled.isValid {header : Bytes} (h : ContentSpelled p content)
    (hheader : Series PlainSpelled p.routing header) : p.IsValid ∧ p.content = [] := by
  cases h with
  | mk _ hentity hbody hraw =>
    refine ⟨⟨?_, ?_, hbody.isKeyword.1, hbody.isKeyword.2⟩, hraw⟩
    · exact hheader.forall_mem PlainSpelled.isKeyword
    · exact hentity.forall_mem EntitySpelled.isKeyword

/-- A packet that may be written can be built. -/
theorem Spelled.isValid (h : Spelled p text) : p.IsValid ∧ p.content = [] := by
  cases h with
  | empty hheader =>
    exact ⟨⟨hheader.forall_mem PlainSpelled.isKeyword, nofun, fun hne => absurd rfl hne,
      fun _ => rfl⟩, rfl⟩
  | counted hheader _ hcontent => exact hcontent.isValid hheader
  | delimited hheader hcontent _ => exact hcontent.isValid hheader

/-- The routing modifiers in front of raw content pass the check as well. -/
theorem RawSpelled.isKeyword {routing : List Modifier} (h : RawSpelled routing content text) :
    ∀ m ∈ routing, PacketWire.isKeyword m.name ∧ Byte.lineFeed ∉ m.value := by
  cases h with
  | empty hheader => exact hheader.forall_mem PlainSpelled.isKeyword
  | counted hheader _ => exact hheader.forall_mem PlainSpelled.isKeyword
  | delimited hheader _ => exact hheader.forall_mem PlainSpelled.isKeyword

end Packet

namespace Reader

open Packet

variable {mode : ModeBits} {max : Nat} {s : State} {a : Incoming} {text rest buffer : Bytes}
  {es : List Event} {p : Received} {r r' : Reader} {spelling : Spelling Received}

/-- The packets that are written by a spelling are what a parser for a mode reads, and can be sent
    on by the same spelling. -/
structure Resendable (mode : Mode) (spelling : Spelling Received) : Prop
    extends Parsable mode spelling where
  /-- What is parsed is a packet. -/
  exists_spelling : ∀ {text rest es}, (State.initial mode).Parses text rest es →
    ∃ p, spelling p text ∧ es = p.units
  /-- A packet is built again, and its wire form is a way to write it. -/
  exists_rebuild : ∀ {p text}, spelling p text → ∀ t, ∃ q, p.rebuild t = .ok q ∧
    (q.wireSize < Decimal.bound → spelling p q.wire)

/-- What is read in full can be sent on. -/
theorem resendable_whole : Resendable .whole Spelled where
  toParsable := parsable_whole
  exists_spelling h := State.parses_whole_iff.1 h
  exists_rebuild := by
    intro p text hp t
    obtain ⟨hvalid, hraw⟩ := hp.isValid
    obtain ⟨f, counted, hq, hreceived, hread⟩ := exists_rebuild_fields hvalid hraw t
    refine ⟨_, hq, fun hsize => ?_⟩
    rw [← hreceived]
    exact (spelled_wire_iff (isValid_of_build hq) hsize).2 hread

/-- What is read with raw content can be sent on. -/
theorem resendable_routingOnly : Resendable .routingOnly RawReceived where
  toParsable := parsable_routingOnly
  exists_spelling h := by
    obtain ⟨routing, content, hraw, rfl⟩ := parses_relay_iff.1 h
    exact ⟨{ routing, content }, ⟨hraw, rfl⟩, rfl⟩
  exists_rebuild := by
    rintro ⟨routing, state, entity, method, data, content⟩ text ⟨hraw, hp⟩ t
    cases hp
    -- the packet is what a relay receives of one that was built from the same raw content
    have hvalid : Packet.IsValid ⟨routing, .raw content, false⟩ :=
      ⟨hraw.isKeyword, nofun, fun hne => absurd rfl hne, fun _ => rfl⟩
    obtain ⟨q, hq, hrouting, hcontent, hlines⟩ := hvalid.exists_rebuild t
    refine ⟨q, hq, fun hsize => ⟨?_, rfl⟩⟩
    have hbuilt := isValid_of_build hq
    have hlength : q.content.wire.length < Decimal.bound := by
      rw [hbuilt.length_content]
      rw [wireSize] at hsize
      omega
    rw [← hcontent] at hlines
    have hwire := hbuilt.rawSpelled_wire hlength hlines
    rw [hrouting, hcontent] at hwire
    exact hwire

/-- In every mode of a reader what is read can be sent on. -/
theorem exists_resendable (mode : ModeBits) :
    ∃ spelling, Resendable (.ofBits mode) spelling := by
  unfold Mode.ofBits
  split
  · exact ⟨_, resendable_routingOnly⟩
  · exact ⟨_, resendable_whole⟩

/-! ### Reading what is sent on -/

/-- Calls give a packet that is in front of a buffer, and leave what is behind it. -/
theorem nextWithin_of_parses {c calls : Nat} (hs : s.IsValid) (h : s.Parses text rest es)
    (hbuffer : buffer.drop c = text ++ rest) (hc : c ≤ buffer.length)
    (hcalls : text.length < calls) :
    nextWithin ⟨⟨s, c⟩, buffer, a, max⟩ calls =
      (.ok (some (es.foldl Incoming.apply a).packet),
        waiting max (.initial s.mode) {} rest) := by
  induction es generalizing s c a text calls with
  | nil =>
    obtain ⟨t, hstep⟩ := State.parses_nil_iff.1 h
    rw [← hbuffer] at hstep
    obtain ⟨calls, rfl⟩ := Nat.exists_eq_succ_of_ne_zero (Nat.ne_zero_of_lt hcalls)
    have hparse : (⟨s, c⟩ : Parser machine).parse buffer =
        (.event .complete, ⟨t, c + text.length⟩) :=
      (Parser.parse_eq_event_iff hc).2 ⟨t, text.length, hstep, rfl⟩
    have hkeeps := State.keepsTo_step s (buffer.drop c)
    rw [hstep] at hkeeps
    obtain rfl := hkeeps.2 rfl
    have hnext : nextWithin ⟨⟨s, c⟩, buffer, a, max⟩ (calls + 1) =
        (.ok (some a.packet),
          waiting max (.initial s.mode) {} (buffer.drop (c + text.length))) := by
      rw [nextWithin_of_inl (turn_of_complete hparse)]
      rfl
    rw [hnext, ← List.drop_drop, hbuffer, List.drop_left]
    rfl
  | cons e es ih =>
    obtain ⟨hne, t, front, behind, rfl, hstep, hbehind⟩ := State.parses_cons_iff.1 h
    obtain ⟨calls, rfl⟩ := Nat.exists_eq_succ_of_ne_zero (Nat.ne_zero_of_lt hcalls)
    rw [List.append_assoc] at hstep hbuffer
    have hann := hs.announces?_eq_none hstep hbehind
    rw [← hbuffer] at hstep
    have hparse : (⟨s, c⟩ : Parser machine).parse buffer = (.event e, ⟨t, c + front.length⟩) :=
      (Parser.parse_eq_event_iff hc).2 ⟨t, front.length, hstep, rfl⟩
    have hfits : ∀ length, e.announces? = some length → length ≤ max := by
      rw [hann]
      exact fun _ => nofun
    have hnext : nextWithin ⟨⟨s, c⟩, buffer, a, max⟩ (calls + 1) =
        nextWithin ⟨⟨t, c + front.length⟩, buffer, a.apply e, max⟩ calls :=
      nextWithin_of_inr (turn_of_unit hparse hne hfits) calls
    -- the unit takes a byte and a call, so the calls that are left are enough
    have hsends := hs.sends_of_step hstep
    have hpos := hsends.pos
    have hused := (continues_step s _).used_le hstep
    have hkeeps := State.keepsTo_step s (buffer.drop c)
    rw [hstep] at hkeeps
    rw [List.length_drop] at hused
    rw [List.length_append] at hcalls
    have hdrop : buffer.drop (c + front.length) = behind ++ rest := by
      rw [← List.drop_drop, hbuffer, List.drop_left]
    rw [hnext, ih hsends.isValid hbehind hdrop (by omega) (by omega), hkeeps.1]
    rfl

/-- A reader that is fed a packet gives it, and keeps what comes behind. -/
theorem next_of_parses (h : (State.initial (.ofBits mode)).Parses text rest es) :
    ((start mode max).feed (text ++ rest)).next =
      (.ok (some (es.foldl Incoming.apply {}).packet), (start mode max).feed rest) :=
  nextWithin_of_parses (idle_initial mode).isValid h rfl (Nat.zero_le _)
    (Nat.lt_succ_of_le (by simp [start, feed]))

/-- A packet that a reader gives, whatever it has been fed and asked for, can be built again under
    any thresholds and rendered, with the size that is told for it. A reader in the same mode gives
    the same packet first, whatever comes behind these bytes, and has taken just them for it; so it
    does if they come in chunks. -/
theorem received_is_resendable (h : Reachable mode max r) (hnext : r.next = (.ok (some p), r'))
    (t : Thresholds) :
    ∃ q bytes, p.rebuild t = .ok q ∧ Sendable.toBytes q = some bytes ∧ bytes.length = q.wireSize ∧
      ∀ {max' : Nat}, q.wireSize ≤ max' → max' < Decimal.bound →
        (∀ rest, ((start mode max').feed (bytes ++ rest)).next =
          (.ok (some p), (start mode max').feed rest)) ∧
        ∀ {chunks : List Bytes}, chunks.flatten = bytes →
          (start mode max').receive chunks = ⟨[p], .ok (start mode max')⟩ := by
  obtain ⟨text, rest, es, hparses, rfl⟩ := h.exists_parses hnext
  -- What has been read is a way to write some packet, and what is built of it is another way to
  -- write the same one.
  obtain ⟨spelling, hspelling⟩ := exists_resendable mode
  obtain ⟨p, hp, rfl⟩ := hspelling.exists_spelling hparses
  obtain ⟨q, hq, hsent⟩ := hspelling.exists_rebuild hp t
  rw [hspelling.units hp]
  have hrenders := renders_wire_of_build hq
  refine ⟨q, q.wire, hq, hrenders.toBytes, hrenders.length, fun {max'} hmax hbound => ?_⟩
  have hwire := hsent (Nat.lt_of_le_of_lt hmax hbound)
  refine ⟨fun rest => ?_, fun {chunks} hchunks => ?_⟩
  · rw [next_of_parses (hspelling.parses hwire rest), hspelling.units hwire]
  · refine receive_of_series hspelling.toParsable ?_ (by rw [hchunks, hrenders.length]; exact hmax)
    have hseries := Series.cons hwire (.nil : Series spelling [] [])
    rwa [List.append_nil, ← hchunks] at hseries

/-- A packet without the length of its content, whose value holds the closing line of a packet and
    has zeros in front of its length, is given in the second call. It is sent on with the length of
    its content. -/
theorem received_is_resendable_on_value :
    ∃ (p : Received) (r r' : Reader), p.entity = [⟨.set, Bytes.ofText "_a", Bytes.ofText "|\n"⟩] ∧
      Reachable {} 24 r ∧ r.next = (.ok (some p), r') ∧
      ∃ q, p.rebuild {} = .ok q ∧
        Sendable.toBytes q = some (Bytes.ofText "11\n:_a 2\t|\n\nm\n|\n") ∧
        ((start {} 24).feed (Bytes.ofText "11\n:_a 2\t|\n\nm\n|\n" ++ Bytes.ofText ":")).next =
          (.ok (some p), (start {} 24).feed (Bytes.ofText ":")) := by
  let p : Received :=
    { entity := [⟨.set, Bytes.ofText "_a", Bytes.ofText "|\n"⟩], method := Bytes.ofText "m" }
  let r := ((start {} 24).feed (Bytes.ofText "\n:_a 002\t|")).next.2.feed
    (Bytes.ofText "\n\nm\n|\n")
  have hreach : Reachable {} 24 r := .feed _ (.next (.feed _ .start))
  have hnext : r.next = (.ok (some p), r.next.2) := by
    have hgiven : r.next.1.toOption = some (some p) := by decide +kernel
    generalize r.next = answer at hgiven
    obtain ⟨result, r'⟩ := answer
    cases result with
    | error e => cases hgiven
    | ok found =>
      cases hgiven
      rfl
  obtain ⟨q, bytes, hq, hsent, hlength, hread⟩ := received_is_resendable hreach hnext {}
  let built : Packet := ⟨[], .fields
    { entity := [⟨⟨.set, Bytes.ofText "_a", Bytes.ofText "|\n"⟩, true⟩],
      method := Bytes.ofText "m" }, true⟩
  obtain rfl : q = built := Except.ok.inj (hq.symm.trans (by rfl))
  have hbytes : Sendable.toBytes built = some (Bytes.ofText "11\n:_a 2\t|\n\nm\n|\n") := by
    decide +kernel
  obtain rfl := Option.some.inj (hsent.symm.trans hbytes)
  have hsize : built.wireSize ≤ 24 := by decide +kernel
  exact ⟨p, r, r.next.2, rfl, hreach, hnext, built, hq, hbytes,
    (hread hsize (by decide)).1 (Bytes.ofText ":")⟩

end Reader

end PacketWire
