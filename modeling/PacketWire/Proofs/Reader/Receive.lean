import PacketWire.Proofs.Reader.Turns
import PacketWire.Proofs.Reader.Yields
import PacketWire.Proofs.Resumable.Calls
import PacketWire.Reader.Basic

namespace PacketWire.Reader

open Packet

/-!
# What a reader gives

The calls of a reader give what its bytes yield: `next` the first packet (`nextWithin_of_yields`),
`drain` all of them (`drain_of_yields`). The bounds on the number of calls are never met, for every
unit takes a byte.
-/

variable {max : Nat} {s t : State} {a a' : Incoming} {input buffer rest : Bytes}
  {packets : List Received} {ending : Ending}

/-- How a reader ends a call with the last bytes of its buffer. -/
inductive Ends (max : Nat) : Ending → Result × Reader → Prop where
  /-- It waits for more input, and has dropped what it has read. -/
  | more {t : State} {a : Incoming} {rest : Bytes} :
      Ends max (.more t a rest) (.ok none, ⟨⟨t, 0⟩, rest, a, max⟩)
  /-- It gives the fault of the parser. -/
  | malformed {f : Fault Cause} {r : Reader} :
      Ends max (.malformed f.cause) (.error (.malformed f), r)
  /-- It gives the length of the value. -/
  | tooLarge {length : Nat} {r : Reader} :
      Ends max (.tooLarge length) (.error (.valueTooLarge length max), r)

/-- What a call of `next` gives of what the bytes ahead yield; fewer than `bound` bytes are left
    behind a packet. -/
inductive Gives (max bound : Nat) : Result × Reader → List Received → Ending → Prop where
  /-- No packet is complete. -/
  | ends {answer : Result × Reader} {ending : Ending} :
      Ends max ending answer → Gives max bound answer [] ending
  /-- A packet, and a reader at the start of the next one. -/
  | packet {t : State} {rest : Bytes} {p : Received} {packets : List Received} {ending : Ending} :
      t.IsValid → Yields max t {} rest packets ending → rest.length < bound →
        Gives max bound (.ok (some p), ⟨⟨t, 0⟩, rest, {}, max⟩) (p :: packets) ending

/-- More calls than needed do no harm. -/
theorem Gives.mono {bound bound' : Nat} {answer : Result × Reader} (hle : bound ≤ bound')
    (h : Gives max bound answer packets ending) : Gives max bound' answer packets ending := by
  cases h with
  | ends h => exact .ends h
  | packet ht hyields hlt => exact .packet ht hyields (Nat.lt_of_lt_of_le hlt hle)

/-- A call is a step from the bytes behind the cursor. -/
theorem parse_eq {c : Nat} (hc : c ≤ buffer.length) :
    (⟨s, c⟩ : Parser machine).parse buffer =
      Parser.answer ⟨s, c⟩ ((step s (buffer.drop c)).shift c) :=
  Parser.parse_of_le hc

/-- Calls give the first packet that the bytes ahead yield. -/
theorem nextWithin_of_yields {c calls : Nat} (hs : s.IsValid)
    (h : Yields max s a input packets ending) (hinput : buffer.drop c = input)
    (hc : c ≤ buffer.length) (hcalls : input.length < calls) :
    Gives max input.length (nextWithin ⟨⟨s, c⟩, buffer, a, max⟩ calls) packets ending := by
  induction h generalizing c calls with
  | @more s t a input n hstep =>
    subst hinput
    obtain ⟨calls, rfl⟩ := Nat.exists_eq_succ_of_ne_zero (Nat.ne_zero_of_lt hcalls)
    have hparse : (⟨s, c⟩ : Parser machine).parse buffer = (.more, ⟨t, c + n⟩) := by
      rw [parse_eq hc, hstep]
      rfl
    have hnext : nextWithin ⟨⟨s, c⟩, buffer, a, max⟩ (calls + 1) =
        (.ok none, ⟨⟨t, 0⟩, buffer.drop (c + n), a, max⟩) := by
      rw [nextWithin_of_inl (turn_of_more hparse)]
      rfl
    rw [hnext, List.drop_drop]
    exact .ends .more
  | @malformed s a input f hstep =>
    subst hinput
    obtain ⟨calls, rfl⟩ := Nat.exists_eq_succ_of_ne_zero (Nat.ne_zero_of_lt hcalls)
    have hparse : (⟨s, c⟩ : Parser machine).parse buffer =
        (.fault (f.shift c), (⟨s, c⟩ : Parser machine).reset) := by
      rw [parse_eq hc, hstep]
      rfl
    rw [nextWithin_of_inl (turn_of_fault hparse)]
    exact .ends (@Ends.malformed max (f.shift c) _)
  | @tooLarge s t a input e n length hstep ha hlt =>
    subst hinput
    obtain ⟨calls, rfl⟩ := Nat.exists_eq_succ_of_ne_zero (Nat.ne_zero_of_lt hcalls)
    have hparse : (⟨s, c⟩ : Parser machine).parse buffer = (.event e, ⟨t, c + n⟩) :=
      (Parser.parse_eq_event_iff hc).2 ⟨t, n, hstep, rfl⟩
    rw [nextWithin_of_inl (turn_of_tooLarge hparse ha hlt)]
    exact .ends .tooLarge
  | @complete s t a input n packets _ hstep h ih =>
    subst hinput
    obtain ⟨calls, rfl⟩ := Nat.exists_eq_succ_of_ne_zero (Nat.ne_zero_of_lt hcalls)
    have hparse : (⟨s, c⟩ : Parser machine).parse buffer = (.event .complete, ⟨t, c + n⟩) :=
      (Parser.parse_eq_event_iff hc).2 ⟨t, n, hstep, rfl⟩
    have hnext : nextWithin ⟨⟨s, c⟩, buffer, a, max⟩ (calls + 1) =
        (.ok (some a.packet), ⟨⟨t, 0⟩, buffer.drop (c + n), {}, max⟩) := by
      rw [nextWithin_of_inl (turn_of_complete hparse)]
      rfl
    -- the packet takes a byte, so fewer are left behind it
    have hsends := hs.sends_of_step hstep
    have hpos := hsends.pos
    have hle := (continues_step s _).used_le hstep
    rw [List.drop_drop] at h
    rw [hnext]
    refine .packet hsends.isValid h ?_
    simp only [List.length_drop] at hle ⊢
    omega
  | @unit s t a input e n packets ending hstep hne hle h ih =>
    subst hinput
    obtain ⟨calls, rfl⟩ := Nat.exists_eq_succ_of_ne_zero (Nat.ne_zero_of_lt hcalls)
    have hparse : (⟨s, c⟩ : Parser machine).parse buffer = (.event e, ⟨t, c + n⟩) :=
      (Parser.parse_eq_event_iff hc).2 ⟨t, n, hstep, rfl⟩
    have hnext : nextWithin ⟨⟨s, c⟩, buffer, a, max⟩ (calls + 1) =
        nextWithin ⟨⟨t, c + n⟩, buffer, a.apply e, max⟩ calls :=
      nextWithin_of_inr (turn_of_unit hparse hne hle) calls
    -- the unit takes a byte and a call, so the calls that are left are enough
    have hsends := hs.sends_of_step hstep
    have hpos := hsends.pos
    have hused := (continues_step s _).used_le hstep
    rw [List.length_drop] at hused hcalls
    rw [hnext]
    refine Gives.mono ?_ (ih hsends.isValid (List.drop_drop ..).symm (by omega) ?_)
    · simp only [List.length_drop]
      omega
    · simp only [List.length_drop]
      omega

/-- The results of a reader are the packets that its bytes yield, and how it ends with them. -/
theorem drainWithin_of_yields {n : Nat} (hs : s.IsValid) (h : Yields max s a buffer packets ending)
    (hn : buffer.length ≤ n) :
    ∃ answer, Ends max ending answer ∧ drainWithin ⟨⟨s, 0⟩, buffer, a, max⟩ n =
      (packets.map (fun p => .ok (some p)) ++ [answer.1], answer.2) := by
  induction n generalizing s a buffer packets with
  | zero =>
    have hgives := nextWithin_of_yields hs h List.drop_zero (Nat.zero_le _) (Nat.lt_succ_self _)
    rw [drainWithin, next]
    generalize nextWithin ⟨⟨s, 0⟩, buffer, a, max⟩ (buffer.length + 1) = answer at hgives
    cases hgives with
    | ends hends => exact ⟨answer, hends, rfl⟩
    | packet _ _ hlt =>
      -- no packet is read where there is nothing
      omega
  | succ n ih =>
    have hgives := nextWithin_of_yields hs h List.drop_zero (Nat.zero_le _) (Nat.lt_succ_self _)
    rw [drainWithin, next]
    generalize nextWithin ⟨⟨s, 0⟩, buffer, a, max⟩ (buffer.length + 1) = answer at hgives
    cases hgives with
    | ends hends =>
      refine ⟨answer, hends, ?_⟩
      cases hends <;> rfl
    | packet ht hyields hlt =>
      obtain ⟨answer, hends, hdrain⟩ := ih ht hyields (by omega)
      exact ⟨answer, hends, by simp [hdrain]⟩

/-- All packets that the bytes yield are given, and then how they end. -/
theorem drain_of_yields (hs : s.IsValid) (h : Yields max s a buffer packets ending) :
    ∃ answer, Ends max ending answer ∧ drain ⟨⟨s, 0⟩, buffer, a, max⟩ =
      (packets.map (fun p => .ok (some p)) ++ [answer.1], answer.2) :=
  drainWithin_of_yields hs h (Nat.le_refl _)

/-- The reader that waits, in a state, with a packet that is coming in and some bytes. -/
abbrev waiting (max : Nat) (s : State) (a : Incoming) (buffer : Bytes) : Reader :=
  ⟨⟨s, 0⟩, buffer, a, max⟩

/-- The packets of results are those of their parts. -/
theorem packets_map_ok (results : List Received) (r : Result) :
    Reader.packets (results.map (fun p => .ok (some p)) ++ [r]) =
      results ++ Reader.packets [r] := by
  induction results with
  | nil => rfl
  | cons p results ih => exact congrArg (p :: ·) ih

/-- Packets are no faults. -/
theorem fault?_map_ok (results : List Received) (r : Result) :
    fault? (results.map (fun p => .ok (some p)) ++ [r]) = fault? [r] := by
  induction results with
  | nil => rfl
  | cons p results ih => exact ih

/-- A chunk behind which more input is needed. -/
theorem receive_cons_more {chunk : Bytes} {chunks : List Bytes} (hs : s.IsValid)
    (h : Yields max s a (buffer ++ chunk) packets (.more t a' rest)) :
    (waiting max s a buffer).receive (chunk :: chunks) =
      ⟨packets ++ ((waiting max t a' rest).receive chunks).packets,
        ((waiting max t a' rest).receive chunks).last⟩ := by
  obtain ⟨answer, hends, hdrain⟩ := drain_of_yields hs h
  cases hends
  have hfeed : (waiting max s a buffer).feed chunk = waiting max s a (buffer ++ chunk) := rfl
  rw [receive, hfeed, hdrain]
  simp only [fault?_map_ok, packets_map_ok]
  simp [fault?, Reader.packets]

/-- A fault in a chunk ends the stream. -/
theorem receive_cons_malformed {chunk : Bytes} {chunks : List Bytes} {cause : Cause}
    (hs : s.IsValid) (h : Yields max s a (buffer ++ chunk) packets (.malformed cause)) :
    ∃ f, f.cause = cause ∧ (waiting max s a buffer).receive (chunk :: chunks) =
      ⟨packets, .error (.malformed f)⟩ := by
  obtain ⟨answer, hends, hdrain⟩ := drain_of_yields hs h
  cases hends with
  | @malformed f r =>
    have hfeed : (waiting max s a buffer).feed chunk = waiting max s a (buffer ++ chunk) := rfl
    refine ⟨f, rfl, ?_⟩
    rw [receive, hfeed, hdrain]
    simp only [fault?_map_ok, packets_map_ok]
    simp [fault?, Reader.packets]

/-- A value in a chunk that is too large ends the stream. -/
theorem receive_cons_tooLarge {chunk : Bytes} {chunks : List Bytes} {length : Nat}
    (hs : s.IsValid) (h : Yields max s a (buffer ++ chunk) packets (.tooLarge length)) :
    (waiting max s a buffer).receive (chunk :: chunks) =
      ⟨packets, .error (.valueTooLarge length max)⟩ := by
  obtain ⟨answer, hends, hdrain⟩ := drain_of_yields hs h
  cases hends with
  | @tooLarge length r =>
    have hfeed : (waiting max s a buffer).feed chunk = waiting max s a (buffer ++ chunk) := rfl
    rw [receive, hfeed, hdrain]
    simp only [fault?_map_ok, packets_map_ok]
    simp [fault?, Reader.packets]

end PacketWire.Reader
