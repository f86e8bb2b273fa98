import PacketWire.Proofs.Packet.Accepts
import PacketWire.Proofs.Packet.Forward
import PacketWire.Proofs.Reader.Streams
import PacketWire.Proofs.Rendering

namespace PacketWire.Reader

open Packet

/-!
# Streams that are relayed

Between two end points a relay reads only the routing headers, and sends the packets on with the
content as it came, with its own decision on their lengths. The second end point gets what it would
have got without the relay (`relay_is_transparent`).
-/

variable {max : Nat} {ps : List Packet} {chunks : List Bytes} {t : Thresholds}

/-- A way to write what a relay receives. -/
def RawReceived (r : Received) (text : Bytes) : Prop :=
  RawSpelled r.routing r.content text ∧ r = { routing := r.routing, content := r.content }

/-- An end point reads packets as they are spelled. -/
theorem parsable_whole : Parsable .whole Spelled where
  parses hp _ := State.parses_whole_iff.2 ⟨_, hp, rfl⟩
  units hp := by rw [Incoming.foldl_units hp.data_eq_nil]

/-- A relay reads packets with their content raw. -/
theorem parsable_routingOnly : Parsable .routingOnly RawReceived where
  parses := by
    rintro ⟨routing, state, entity, method, data, content⟩ text ⟨hraw, hr⟩ rest
    rw [hr]
    exact parses_relay_iff.2 ⟨_, _, hraw, rfl⟩
  units := by
    rintro p text ⟨-, hp⟩
    rw [Incoming.foldl_units fun _ => by rw [hp]]

/-- What a relay does with a stream of packets. The streams are told by the wire forms of the
    packets in them. -/
structure Relays (t : Thresholds) (ps qs : List Packet) : Prop where
  /-- The relay builds the packets that it sends on. -/
  rebuild : (ps.map relayed).mapM (fun p => p.rebuild t) = .ok qs
  /-- The stream is that of the packets that were built first. -/
  sent : Series Spelled (ps.map received) (ps.flatMap wire)
  /-- The relay reads the contents as they come. -/
  raw : Series RawReceived (ps.map relayed) (ps.flatMap wire)
  /-- The stream behind the relay is one of the same packets. -/
  forwarded : Series Spelled (ps.map received) (qs.flatMap wire)

/-- No packets are relayed as none. -/
theorem Relays.nil : Relays t [] [] := ⟨rfl, .nil, .nil, .nil⟩

/-- Packets are relayed one by one. -/
theorem Relays.cons {p q : Packet} {qs : List Packet} (h : Forwards t p q) (hs : Relays t ps qs) :
    Relays t (p :: ps) (q :: qs) where
  rebuild := by
    rw [List.map_cons, List.mapM_cons, h.rebuild, hs.rebuild]
    rfl
  sent := .cons h.sent hs.sent
  raw := .cons ⟨h.raw, rfl⟩ hs.raw
  forwarded := .cons h.forwarded hs.forwarded

/-- A packet that was built from its fields, and leaves out no length on the choice of its
    sender. -/
def IsBuilt (p : Packet) : Prop :=
  ∃ (d : Draft) (t : Thresholds), d.content = none ∧ d.LeavesNoneOut ∧ d.build t = .ok p

/-- The packets that a relay sends on were built by it, and so they are rendered. -/
theorem Relays.mapM_toBytes {qs : List Packet} (h : Relays t ps qs) :
    qs.mapM Sendable.toBytes = some (qs.map wire) :=
  mapM_toBytes_of_build fun _ hq =>
    have ⟨r, _, hbuilt⟩ := Except.exists_of_mem_mapM h.rebuild hq
    ⟨r.toDraft, t, hbuilt⟩

/-- Packets that leave out no length on the choice of their senders are relayed, if their stream is
    not longer than a length can tell. -/
theorem exists_relays (t : Thresholds) (hbuilt : ∀ p ∈ ps, IsBuilt p)
    (hsize : (ps.flatMap wire).length < Decimal.bound) : ∃ qs, Relays t ps qs := by
  induction ps with
  | nil => exact ⟨[], .nil⟩
  | cons p ps ih =>
    obtain ⟨⟨d, t₀, hraw, hleaves, hp⟩, hps⟩ := List.forall_mem_cons.1 hbuilt
    rw [List.flatMap_cons, List.length_append] at hsize
    obtain ⟨q, hq⟩ := exists_forward hraw hp hleaves (by omega) t
    obtain ⟨qs, hqs⟩ := ih hps (by omega)
    exact ⟨q :: qs, .cons hq hqs⟩

/-- Packets are relayed without a trace. Whatever the limits on values and the chunks are, as long
    as no value can be beyond a limit: a relay reads the stream of the packets to its end, can build
    and render all that it has received, and the stream that it sends on gives an end point the same
    packets as the first stream does. -/
theorem relay_is_transparent (hbuilt : ∀ p ∈ ps, IsBuilt p) (t : Thresholds) :
    ∃ segments, ps.mapM Sendable.toBytes = some segments ∧
      ∀ {max : Nat} {chunks : List Bytes}, chunks.flatten = segments.flatten →
        segments.flatten.length ≤ max → max < Decimal.bound →
        ∃ qs forwarded,
          ((start ⟨ModeBits.routingOnlyBit⟩ max).receive chunks).last =
            .ok (start ⟨ModeBits.routingOnlyBit⟩ max) ∧
          ((start ⟨ModeBits.routingOnlyBit⟩ max).receive chunks).packets.mapM
            (fun p => p.rebuild t) = .ok qs ∧
          qs.mapM Sendable.toBytes = some forwarded ∧
          (∀ {max' : Nat} {chunks' : List Bytes}, chunks'.flatten = forwarded.flatten →
            forwarded.flatten.length ≤ max' →
              (start {} max').receive chunks' = ⟨ps.map received, .ok (start {} max')⟩) ∧
          ∀ {max' : Nat} {chunks' : List Bytes}, chunks'.flatten = segments.flatten →
            segments.flatten.length ≤ max' →
              (start {} max').receive chunks' = ⟨ps.map received, .ok (start {} max')⟩ := by
  have hsegments : ps.mapM Sendable.toBytes = some (ps.map wire) :=
    mapM_toBytes_of_build fun p hp =>
      have ⟨d, t, _, _, hbuild⟩ := hbuilt p hp
      ⟨d, t, hbuild⟩
  refine ⟨_, hsegments, fun {max chunks} hchunks hmax hbound => ?_⟩
  rw [← List.flatMap_def] at hchunks hmax
  obtain ⟨qs, hqs⟩ := exists_relays t hbuilt (Nat.lt_of_le_of_lt hmax hbound)
  have hrelay : (start ⟨ModeBits.routingOnlyBit⟩ max).receive chunks =
      ⟨ps.map relayed, .ok (start ⟨ModeBits.routingOnlyBit⟩ max)⟩ :=
    receive_of_series parsable_routingOnly (hchunks ▸ hqs.raw) (hchunks ▸ hmax)
  rw [hrelay]
  refine ⟨qs, _, rfl, hqs.rebuild, hqs.mapM_toBytes, fun hchunks' hmax' => ?_,
    fun hchunks' hmax' => ?_⟩
  · rw [← List.flatMap_def] at hchunks' hmax'
    exact receive_of_series parsable_whole (hchunks' ▸ hqs.forwarded) (hchunks' ▸ hmax')
  · rw [← List.flatMap_def] at hchunks' hmax'
    exact receive_of_series parsable_whole (hchunks' ▸ hqs.sent) (hchunks' ▸ hmax')

/-- Two packets are relayed in two chunks. The value of the first holds the closing line of a packet
    and is cut behind it; the length of its content is told again. The second was sent with the
    length of its content, and goes on without it. -/
theorem relay_is_transparent_on_two_packets :
    ∃ p q, IsBuilt p ∧ IsBuilt q ∧
      [p, q].mapM Sendable.toBytes = some
        [Bytes.ofText "13\n:_a 4\tx\n|\n\nm\n|\n", Bytes.ofText "=_b\tc\n2\nn\n|\n"] ∧
      ∃ qs,
        ((start ⟨ModeBits.routingOnlyBit⟩ 30).receive [Bytes.ofText "13\n:_a 4\tx\n|\n",
          Bytes.ofText "\nm\n|\n=_b\tc\n2\nn\n|\n"]).packets.mapM (fun p => p.rebuild {}) =
            .ok qs ∧
        qs.mapM Sendable.toBytes = some
          [Bytes.ofText "13\n:_a 4\tx\n|\n\nm\n|\n", Bytes.ofText "=_b\tc\n\nn\n|\n"] ∧
        ∀ {max : Nat} {chunks : List Bytes},
          chunks.flatten = Bytes.ofText "13\n:_a 4\tx\n|\n\nm\n|\n=_b\tc\n\nn\n|\n" → 29 ≤ max →
            (start {} max).receive chunks =
              ⟨[{ entity := [⟨.set, Bytes.ofText "_a", Bytes.ofText "x\n|\n"⟩],
                  method := Bytes.ofText "m" },
                { routing := [⟨.assign, Bytes.ofText "_b", Bytes.ofText "c"⟩],
                  method := Bytes.ofText "n" }], .ok (start {} max)⟩ := by
  let m : Modifier := ⟨.set, Bytes.ofText "_a", Bytes.ofText "x\n|\n"⟩
  let m' : Modifier := ⟨.assign, Bytes.ofText "_b", Bytes.ofText "c"⟩
  let p : Packet := ⟨[], .fields { entity := [⟨m, true⟩], method := Bytes.ofText "m" }, true⟩
  let q : Packet := ⟨[m'], .fields { method := Bytes.ofText "n" }, true⟩
  have hp : IsBuilt p :=
    ⟨{ entity := [⟨m, .entity .automatic⟩], method := Bytes.ofText "m" }, {}, rfl,
      ⟨by decide, by decide⟩, rfl⟩
  have hq : IsBuilt q :=
    ⟨{ routing := [⟨m', .routing⟩], method := Bytes.ofText "n", framing := .counted }, {}, rfl,
      ⟨by decide, nofun⟩, rfl⟩
  have hbytes : [p, q].mapM Sendable.toBytes = some
      [Bytes.ofText "13\n:_a 4\tx\n|\n\nm\n|\n", Bytes.ofText "=_b\tc\n2\nn\n|\n"] := by
    decide +kernel
  obtain ⟨segments, hsegments, hrelay⟩ := relay_is_transparent
    (List.forall_mem_cons.2 ⟨hp, List.forall_mem_singleton.2 hq⟩) {}
  obtain rfl := Option.some.inj (hsegments.symm.trans hbytes)
  obtain ⟨qs, forwarded, -, hqs, hforwarded, hread, -⟩ := @hrelay 30
    [Bytes.ofText "13\n:_a 4\tx\n|\n", Bytes.ofText "\nm\n|\n=_b\tc\n2\nn\n|\n"]
    (by decide +kernel) (by decide +kernel) (by decide)
  -- what the relay builds is told by running it
  have hrebuilt : qs = [⟨[], .raw (Bytes.ofText ":_a 4\tx\n|\n\nm\n"), true⟩,
      ⟨[m'], .raw (Bytes.ofText "n\n"), false⟩] := by
    have hpackets : ((start ⟨ModeBits.routingOnlyBit⟩ 30).receive
        [Bytes.ofText "13\n:_a 4\tx\n|\n", Bytes.ofText "\nm\n|\n=_b\tc\n2\nn\n|\n"]).packets =
        [{ content := Bytes.ofText ":_a 4\tx\n|\n\nm\n" },
          { routing := [m'], content := Bytes.ofText "n\n" }] := by decide +kernel
    rw [hpackets] at hqs
    cases hqs
    rfl
  have hsent : qs.mapM Sendable.toBytes = some
      [Bytes.ofText "13\n:_a 4\tx\n|\n\nm\n|\n", Bytes.ofText "=_b\tc\n\nn\n|\n"] := by
    rw [hrebuilt]
    decide +kernel
  obtain rfl := Option.some.inj (hforwarded.symm.trans hsent)
  exact ⟨p, q, hp, hq, hbytes, qs, hqs, hsent, fun hchunks hmax =>
    hread (hchunks.trans (by decide +kernel)) (Nat.le_trans (by decide +kernel) hmax)⟩

end PacketWire.Reader
