import PacketWire.Proofs.Reader.Resent

namespace PacketWire

/-!
# One packet after the other

Nothing of a packet is left in the reader when it has given the packet: it is as a reader that was
made anew and fed what is left in the buffer. So a stream in which a packet ends gives the packets
up to this one, and then what the rest of the stream gives by itself
(`Reader.packets_are_separate`). Behind an error nothing is left at all.

What a reader has been fed and has given is told by `Reader.Served`. The bytes ahead of such a
reader yield what is yet to come of its stream, whatever is fed later (`Reader.Resumes`).
-/

namespace Packet.State

variable {s : State} {text rest : Bytes} {es : List Event}

/-- The text of a packet is read in the same way if more bytes come behind what follows it. -/
theorem Parses.append (hs : s.IsValid) (h : s.Parses text rest es) (more : Bytes) :
    s.Parses text (rest ++ more) es := by
  induction es generalizing s text with
  | nil =>
    obtain ⟨t, hstep⟩ := parses_nil_iff.1 h
    have hclosed := (hs.sends_of_step hstep).not_hasOpen
    have hg : growth (.complete, t) = none :=
      Option.eq_none_iff_forall_ne_some.2 fun go hgo => hclosed (growth_eq_some_iff.1 ⟨go, hgo⟩)
    refine parses_nil_iff.2 ⟨t, ?_⟩
    rw [← List.append_assoc]
    exact (continues_step s _).complete hstep hg more
  | cons e es ih =>
    obtain ⟨hne, t, front, behind, rfl, hstep, hbehind⟩ := parses_cons_iff.1 h
    have hc := continues_step s (front ++ behind ++ rest)
    have hg : growth (e, t) = none := by
      refine Option.eq_none_iff_forall_ne_some.2 fun go hgo => ?_
      -- a unit that was cut has taken all bytes, so nothing is left to complete the packet
      obtain ⟨hall, -⟩ := hc.cut hstep hgo
      obtain ⟨rfl, rfl⟩ : behind = [] ∧ rest = [] := by simpa using hall
      exact not_parses_of_open (growth_eq_some_iff.1 ⟨go, hgo⟩) hbehind
    refine parses_cons_iff.2 ⟨hne, t, front, behind, rfl, ?_,
      ih (hs.sends_of_step hstep).isValid hbehind⟩
    rw [← List.append_assoc]
    exact hc.complete hstep hg more

end Packet.State

namespace Reader

open Packet

/-- What a reader has been fed, and which packets it has given, if no call has given an error. -/
inductive Served (mode : ModeBits) (max : Nat) : Bytes → List Received → Reader → Prop where
  /-- Nothing yet. -/
  | start : Served mode max [] [] (start mode max)
  /-- More bytes. -/
  | feed {stream : Bytes} {packets : List Received} {r : Reader} (bytes : Bytes) :
      Served mode max stream packets r → Served mode max (stream ++ bytes) packets (r.feed bytes)
  /-- A call that gives nothing. -/
  | nothing {stream : Bytes} {packets : List Received} {r r' : Reader} :
      Served mode max stream packets r → r.next = (.ok none, r') → Served mode max stream packets r'
  /-- A call that gives a packet. -/
  | packet {stream : Bytes} {packets : List Received} {p : Received} {r r' : Reader} :
      Served mode max stream packets r → r.next = (.ok (some p), r') →
        Served mode max stream (packets ++ [p]) r'

variable {mode : ModeBits} {max : Nat} {s t : State} {a a' : Incoming} {p : Received}
  {stream buffer rest more : Bytes} {packets : List Received} {chunks chunks' : List Bytes}
  {r r' : Reader} {e : ReaderError}

/-- The reader behind a call is reachable. -/
theorem Reachable.of_next_eq {result : Result} (h : Reachable mode max r)
    (hnext : r.next = (result, r')) : Reachable mode max r' := by
  have hreach := h.next
  rw [hnext] at hreach
  exact hreach

/-- A reader that has been fed and has given packets is reachable. -/
theorem Served.reachable (h : Served mode max stream packets r) : Reachable mode max r := by
  induction h with
  | start => exact .start
  | feed bytes _ ih => exact ih.feed bytes
  | nothing _ hnext ih => exact ih.of_next_eq hnext
  | packet _ hnext ih => exact ih.of_next_eq hnext

/-! ### One call -/

/-- A call that gives nothing leaves what the bytes do not yield yet. -/
theorem yields_of_next_eq_none (hs : s.IsValid)
    (hnext : (waiting max s a buffer).next = (.ok none, r')) :
    ∃ t a' rest, r' = waiting max t a' rest ∧ Yields max s a buffer [] (.more t a' rest) := by
  obtain ⟨packets, ending, hyields⟩ := @exists_yields _ buffer max a hs
  have hgives : Gives max buffer.length ((waiting max s a buffer).next) packets ending :=
    nextWithin_of_yields hs hyields List.drop_zero (Nat.zero_le _) (Nat.lt_succ_self _)
  rw [hnext] at hgives
  cases hgives with
  | ends hends =>
    cases hends
    exact ⟨_, _, _, rfl, hyields⟩

/-- A call that gives a packet has read the text of it, and leaves what is behind. -/
theorem parses_of_next_eq_some (hs : s.IsValid)
    (hnext : (waiting max s a buffer).next = (.ok (some p), r')) :
    ∃ text rest es, buffer = text ++ rest ∧ s.Parses text rest es ∧
      p = (es.foldl Incoming.apply a).packet ∧ r' = waiting max (.initial s.mode) {} rest := by
  obtain ⟨packets, ending, hyields⟩ := @exists_yields _ buffer max a hs
  have hgives : Gives max buffer.length ((waiting max s a buffer).next) packets ending :=
    nextWithin_of_yields hs hyields List.drop_zero (Nat.zero_le _) (Nat.lt_succ_self _)
  rw [hnext] at hgives
  cases hgives with
  | ends hends => cases hends
  | packet =>
    obtain ⟨text, rest, es, rfl, hparses, hp⟩ := hyields.exists_parses
    have hgiven : (waiting max s a (text ++ rest)).next =
        (.ok (some (es.foldl Incoming.apply a).packet), waiting max (.initial s.mode) {} rest) :=
      nextWithin_of_parses hs hparses rfl (Nat.zero_le _) (Nat.lt_succ_of_le (by simp))
    rw [hnext] at hgiven
    exact ⟨text, rest, es, rfl, hparses, hp, (Prod.mk.inj hgiven).2⟩

/-! ### What is yet to come of a stream -/

/-- A reader goes on with a stream of which it has given some packets: in a state, with a packet
    that is coming in and some bytes. -/
structure Resumes (mode : ModeBits) (max : Nat) (stream : Bytes) (packets : List Received)
    (s : State) (a : Incoming) (buffer : Bytes) : Prop where
  /-- The state is one of a parser for whole packets. -/
  isValid : s.IsValid
  /-- It is one of a parser for the mode. -/
  mode_eq : s.mode = .ofBits mode
  /-- A value is open only if the parser has one. -/
  follows : a.Follows s
  /-- The bytes are some of the stream. -/
  length_le : buffer.length ≤ stream.length
  /-- Whatever is fed later, the stream yields the packets that were given and those that are
      yielded by the bytes ahead. -/
  yields : ∀ {more packets' ending}, Yields max s a (buffer ++ more) packets' ending →
    Yields max (.initial (.ofBits mode)) {} (stream ++ more) (packets ++ packets') ending

/-- A new reader resumes from nothing. -/
theorem Resumes.start : Resumes mode max [] [] (.initial (.ofBits mode)) {} [] where
  isValid := (idle_initial mode).isValid
  mode_eq := rfl
  follows := Incoming.follows_empty
  length_le := Nat.le_refl 0
  yields := fun h => h

/-- A reader that is fed resumes with the bytes behind what it has. -/
theorem Resumes.feed (h : Resumes mode max stream packets s a buffer) (bytes : Bytes) :
    Resumes mode max (stream ++ bytes) packets s a (buffer ++ bytes) where
  isValid := h.isValid
  mode_eq := h.mode_eq
  follows := h.follows
  length_le := by
    rw [List.length_append, List.length_append]
    exact Nat.add_le_add_right h.length_le _
  yields := fun hyields => by
    rw [List.append_assoc] at hyields ⊢
    exact h.yields hyields

/-- What was read of a packet that is not complete is kept. -/
theorem Resumes.nothing (h : Resumes mode max stream packets s a buffer)
    (hyields : Yields max s a buffer [] (.more t a' rest)) :
    Resumes mode max stream packets t a' rest := by
  obtain ⟨hidle, hle⟩ := hyields.idle h.isValid h.follows
  exact
    { isValid := hidle.isValid
      mode_eq := hyields.mode_eq.trans h.mode_eq
      follows := hidle.follows
      length_le := Nat.le_trans hle h.length_le
      yields := fun hmore => h.yields (hyields.append h.isValid h.follows hmore) }

/-- Nothing is kept of a packet that is complete. -/
theorem Resumes.packet {text : Bytes} {es : List Event}
    (h : Resumes mode max stream packets s a (text ++ rest)) (hparses : s.Parses text rest es) :
    Resumes mode max stream (packets ++ [(es.foldl Incoming.apply a).packet])
      (.initial (.ofBits mode)) {} rest where
  isValid := (idle_initial mode).isValid
  mode_eq := rfl
  follows := Incoming.follows_empty
  length_le := by
    have hle := h.length_le
    rw [List.length_append] at hle
    omega
  yields := fun {more packets' ending} hmore => by
    rw [← h.mode_eq] at hmore
    have hone := Yields.of_parses (a := a) h.isValid (hparses.append h.isValid more) hmore
    rw [← List.append_assoc] at hone
    rw [List.append_assoc]
    exact h.yields hone

/-- Whatever has been fed and given, the reader resumes from there. -/
theorem Served.exists_resumes (h : Served mode max stream packets r) :
    ∃ s a buffer, r = waiting max s a buffer ∧ Resumes mode max stream packets s a buffer := by
  induction h with
  | start => exact ⟨_, _, [], rfl, .start⟩
  | feed bytes _ ih =>
    obtain ⟨s, a, buffer, rfl, hresumes⟩ := ih
    exact ⟨s, a, _, rfl, hresumes.feed bytes⟩
  | nothing _ hnext ih =>
    obtain ⟨s, a, buffer, rfl, hresumes⟩ := ih
    obtain ⟨t, a', rest, rfl, hyields⟩ := yields_of_next_eq_none hresumes.isValid hnext
    exact ⟨t, a', rest, rfl, hresumes.nothing hyields⟩
  | packet _ hnext ih =>
    obtain ⟨s, a, buffer, rfl, hresumes⟩ := ih
    obtain ⟨text, rest, es, rfl, hparses, rfl, rfl⟩ :=
      parses_of_next_eq_some hresumes.isValid hnext
    rw [hresumes.mode_eq]
    exact ⟨_, _, rest, rfl, hresumes.packet hparses⟩

/-! ### Starting over -/

/-- A call that gives a packet or an error leaves nothing of it behind. -/
theorem startsOver_next (h : Reachable mode max r) : StartsOver (.ofBits mode) max r.next := by
  obtain ⟨s, a, buffer, rfl, htracks⟩ := h.tracks
  rw [← htracks.mode_eq]
  exact startsOver_nextWithin _ _

/-- Behind a packet a reader is as a new one that was fed what is left. -/
theorem Reachable.eq_feed_of_packet (h : Reachable mode max r)
    (hnext : r.next = (.ok (some p), r')) : r' = (Reader.start mode max).feed r'.buffer := by
  have hstarts := startsOver_next h
  rw [hnext] at hstarts
  obtain ⟨rest, rfl⟩ := hstarts
  rfl

/-- Behind an error a reader is as a new one. -/
theorem Reachable.eq_start_of_error (h : Reachable mode max r)
    (hnext : r.next = (.error e, r')) : r' = Reader.start mode max := by
  have hstarts := startsOver_next h
  rw [hnext] at hstarts
  exact hstarts

/-- A stream gives the packets up to one that ends in it, and then what a new reader gives for what
    is left behind this one. -/
theorem Served.receive_agrees (h : Served mode max stream packets r)
    (hnext : r.next = (.ok (some p), r')) (hchunks : chunks.flatten = stream ++ more)
    (hchunks' : chunks'.flatten = r'.buffer ++ more) (hmax : chunks.flatten.length ≤ max) :
    ((Reader.start mode max).receive chunks).Agrees
      ⟨packets ++ p :: ((Reader.start mode max).receive chunks').packets,
        ((Reader.start mode max).receive chunks').last⟩ := by
  have hstart := h.reachable.eq_feed_of_packet hnext
  obtain ⟨s, a, buffer, hr, hresumes⟩ := (h.packet hnext).exists_resumes
  rw [hstart] at hr
  obtain ⟨rfl, rfl, rfl⟩ : .initial (.ofBits mode) = s ∧ {} = a ∧ r'.buffer = buffer := by
    injection hr with hparser hbuffer hincoming
    exact ⟨congrArg Parser.state hparser, hincoming, hbuffer⟩
  have hmax' : chunks'.flatten.length ≤ max := by
    have hle := hresumes.length_le
    rw [hchunks, List.length_append] at hmax
    rw [hchunks', List.length_append]
    omega
  -- what the chunks yield is the packets up to this one, and what the other chunks yield
  obtain ⟨ending, hyields, hshows⟩ :=
    @receive_yields max _ _ [] chunks (idle_initial mode) (.inl hmax)
  obtain ⟨ending', hyields', hshows'⟩ :=
    @receive_yields max _ _ [] chunks' (idle_initial mode) (.inl hmax')
  rw [List.nil_append, hchunks'] at hyields'
  rw [List.nil_append, hchunks] at hyields
  obtain ⟨hpackets, rfl⟩ := yields_unique hyields (hresumes.yields hyields')
  rw [List.append_assoc] at hpackets
  exact ⟨hpackets, hshows.sameEnd hshows'⟩

/-- No packet leaks into the next one. Behind a packet a reader is as a new one that was fed what is
    left in its buffer. However the bytes of a stream came and were asked for packets, the stream
    gives in any chunks the packets up to one that has ended in it, and then what a new reader gives
    for what is left behind that one and is still to come; where nothing is left, this is what is
    still to come. Behind an error a reader is as a new one. -/
theorem packets_are_separate (mode : ModeBits) (max : Nat) :
    (∀ {r r' : Reader} {p : Received}, Reachable mode max r → r.next = (.ok (some p), r') →
      r' = (start mode max).feed r'.buffer) ∧
    (∀ {stream more : Bytes} {packets : List Received} {r r' : Reader} {p : Received}
        {chunks chunks' : List Bytes},
      Served mode max stream packets r → r.next = (.ok (some p), r') →
      chunks.flatten = stream ++ more → chunks'.flatten = r'.buffer ++ more →
      chunks.flatten.length ≤ max →
      ((start mode max).receive chunks).Agrees
        ⟨packets ++ p :: ((start mode max).receive chunks').packets,
          ((start mode max).receive chunks').last⟩) ∧
    ∀ {r r' : Reader} {e : ReaderError}, Reachable mode max r → r.next = (.error e, r') →
      r' = start mode max :=
  ⟨Reachable.eq_feed_of_packet, Served.receive_agrees, Reachable.eq_start_of_error⟩

/-- A result that holds a packet is what the call gave. -/
theorem next_eq_of_toOption {found : Option Received} (h : r.next.1.toOption = some found) :
    r.next = (.ok found, r.next.2) := by
  generalize r.next = answer at h
  obtain ⟨result, r'⟩ := answer
  cases result with
  | error => cases h
  | ok => cases h; rfl

/-- A result that holds an error is what the call gave. -/
theorem next_eq_of_fault? (h : fault? [r.next.1] = some e) : r.next = (.error e, r.next.2) := by
  generalize r.next = answer at h
  obtain ⟨result, r'⟩ := answer
  cases result with
  | error => cases h; rfl
  | ok => cases h

/-- A packet whose value comes in two parts leaves nothing for the packet behind it, of which the
    value is not complete, and a value that is too large leaves nothing of its packet. -/
theorem packets_are_separate_on_parts :
    ∃ r r' : Reader, ∃ p : Received,
      Served {} 21 (Bytes.ofText "\n:_a 3\tab" ++ Bytes.ofText "c\n|\n") [] r ∧
      r.next = (.ok (some p), r') ∧ r'.buffer = [] ∧ r' = start {} 21 ∧
      ((start {} 21).receive [Bytes.ofText "\n:_a 3\tabc\n|\n\n:_", Bytes.ofText "b 2\tx"]).Agrees
        ⟨p :: ((start {} 21).receive [Bytes.ofText "\n:_b 2\tx"]).packets,
          ((start {} 21).receive [Bytes.ofText "\n:_b 2\tx"]).last⟩ ∧
      ∃ q q' : Reader, Reachable {} 3 q ∧ q.next = (.error (.valueTooLarge 5 3), q') ∧
        q' = start {} 3 := by
  let waits := (start {} 21).feed (Bytes.ofText "\n:_a 3\tab")
  let r := waits.next.2.feed (Bytes.ofText "c\n|\n")
  let p : Received := { entity := [⟨.set, Bytes.ofText "_a", Bytes.ofText "abc"⟩] }
  let q := (start {} 3).feed (Bytes.ofText "\n:_a 5\tab")
  -- The first call has taken a part of the value, the second one is to give the packet.
  have hnothing : waits.next = (.ok none, waits.next.2) :=
    next_eq_of_toOption (by decide +kernel)
  have hserved : Served {} 21 (Bytes.ofText "\n:_a 3\tab" ++ Bytes.ofText "c\n|\n") [] r :=
    .feed _ (.nothing (.feed _ .start) hnothing)
  have hnext : r.next = (.ok (some p), r.next.2) := next_eq_of_toOption (by decide +kernel)
  have hleft : r.next.2.buffer = [] := by decide +kernel
  have hreach : Reachable {} 3 q := .feed _ .start
  have herror : q.next = (.error (.valueTooLarge 5 3), q.next.2) :=
    next_eq_of_fault? (by decide +kernel)
  obtain ⟨hpacket, hagrees, -⟩ := packets_are_separate {} 21
  obtain ⟨-, -, hstart⟩ := packets_are_separate {} 3
  have hanew := hpacket hserved.reachable hnext
  rw [hleft] at hanew
  have hreceived := @hagrees _ (Bytes.ofText "\n:_b 2\tx") _ _ _ _
    [Bytes.ofText "\n:_a 3\tabc\n|\n\n:_", Bytes.ofText "b 2\tx"] [Bytes.ofText "\n:_b 2\tx"]
    hserved hnext (by decide +kernel) (by decide +kernel) (by decide +kernel)
  exact ⟨r, r.next.2, p, hserved, hnext, hleft, hanew, hreceived, q, q.next.2, hreach, herror,
    hstart hreach herror⟩

end Reader

end PacketWire
