import PacketWire.Proofs.Reader.Assembly
import PacketWire.Proofs.Reader.Reachable

namespace PacketWire.Reader

open Packet PacketWire.Parser

/-!
# Reader and parser in step

A reader knows of a value in parts where it belongs and which bytes have come; the parser knows
which value it is and how many bytes are missing. Both go by the units of the packet (`Collecting`),
and so they always agree, whatever is fed and whenever, and behind faults and packets, too: what is
collected is for the value that the parser has open, the parts add up to the announced length, and a
part never comes for another value or for none (`stays_in_step`).
-/

variable {mode : ModeBits} {max : Nat} {r r' : Reader} {a : Assembly} {es : List Event} {e : Event}
  {q : Parser machine}

/-! ### The units that have come -/

/-- A reader between two turns of a call, or two calls, with the packet that is coming in as it is
    put together, and the units of the packet that have come. -/
inductive Collecting (mode : ModeBits) (max : Nat) : Reader → Assembly → List Event → Prop where
  /-- A reader at the start of a stream. -/
  | start : Collecting mode max (start mode max) {} []
  /-- More bytes. -/
  | feed {r : Reader} {a : Assembly} {es : List Event} (bytes : Bytes) :
      Collecting mode max r a es → Collecting mode max (r.feed bytes) a es
  /-- A turn that the loop goes on behind: a unit has been noted. -/
  | unit {r r' : Reader} {a : Assembly} {es : List Event} {e : Event} {q : Parser machine} :
      Collecting mode max r a es → r.parser.parse r.buffer = (.event e, q) → r.turn = .inr r' →
        Collecting mode max r' (a.apply e) (es ++ [e])
  /-- A turn that ends the call with nothing: more bytes are needed. -/
  | waits {r r' : Reader} {a : Assembly} {es : List Event} :
      Collecting mode max r a es → r.turn = .inl (.ok none, r') → Collecting mode max r' a es
  /-- A turn that ends the call with a packet or a fault: the next packet starts. -/
  | ends {r r' : Reader} {a : Assembly} {es : List Event} {result : Result} :
      Collecting mode max r a es → r.turn = .inl (result, r') → result ≠ .ok none →
        Collecting mode max r' {} []

/-- A turn that the loop goes on behind leads from a reader of this kind to another one. -/
theorem Collecting.exists_unit (h : Collecting mode max r a es) (hturn : r.turn = .inr r') :
    ∃ e, Collecting mode max r' (a.apply e) (es ++ [e]) := by
  obtain ⟨e, q, hparse, -⟩ := exists_event_of_turn hturn
  exact ⟨e, .unit h hparse hturn⟩

/-- Whatever turns a call makes, it comes to a reader of this kind. -/
theorem Collecting.nextWithin (h : Collecting mode max r a es) (calls : Nat) :
    ∃ a' es', Collecting mode max (r.nextWithin calls).2 a' es' := by
  induction calls generalizing r a es with
  | zero => exact ⟨a, es, h⟩
  | succ calls ih =>
    rw [nextWithin_succ]
    cases hturn : r.turn with
    | inr r' =>
      obtain ⟨e, h'⟩ := h.exists_unit hturn
      exact ih h'
    | inl given =>
      obtain ⟨result, r'⟩ := given
      by_cases hnone : result = .ok none
      · subst hnone
        exact ⟨a, es, .waits h hturn⟩
      · exact ⟨_, _, .ends h hturn hnone⟩

/-- Between the calls all readers are of this kind, whatever they were fed and asked for. -/
theorem Reachable.exists_collecting (h : Reachable mode max r) :
    ∃ a es, Collecting mode max r a es := by
  induction h with
  | start => exact ⟨_, _, .start⟩
  | feed bytes _ ih =>
    obtain ⟨a, es, h⟩ := ih
    exact ⟨a, es, .feed bytes h⟩
  | next _ ih =>
    obtain ⟨a, es, h⟩ := ih
    exact h.nextWithin _

/-! ### What the units tell -/

variable {m : Mode} {p : Parser machine} {buffer taken : Bytes}

/-- Units come in order: a further part is for the value that is open, and nothing else comes
    before it is complete. -/
theorem followsInOrder_of_parse (h : History m p buffer taken es)
    (hparse : p.parse buffer = (.event e, q)) : FollowsInOrder es e := by
  intro slot
  constructor
  · rintro ⟨length, value, hbrings⟩
    obtain ⟨isLast, he⟩ := h.keeps.goesOn hbrings hparse
    exact ⟨_, isLast, he⟩
  · rintro ⟨bytes, isLast, rfl⟩
    obtain ⟨length, value, hbrings⟩ := (h.unit hparse nofun).keeps.accounts.piece rfl
    obtain hbegins | ⟨front, _, he, -, hfront⟩ := brings_concat_iff.1 hbrings
    · cases hbegins
    · exact ⟨length, front, hfront⟩

/-- What holds of a reader, the packet that is coming in, and the units that have come of it. -/
structure Collected (mode : ModeBits) (max : Nat) (r : Reader) (a : Assembly) (es : List Event) :
    Prop where
  /-- The limit stays. -/
  maxValue_eq : r.maxValue = max
  /-- The parser has given the units. -/
  history : ∃ taken, History (.ofBits mode) r.parser r.buffer taken es
  /-- The reader keeps the packet in this way. -/
  assembly_eq : r.incoming.assembly = a
  /-- The packet goes with the units. -/
  collects : a.Collects es
  /-- Announced lengths are within the limit. -/
  announced_le : ∀ e ∈ es, ∀ length, e.announces? = some length → length ≤ max

/-- A reader that has nothing of a packet has collected nothing. -/
theorem collected_of_history (hmax : r.maxValue = max)
    (h : History (.ofBits mode) r.parser r.buffer taken []) (hincoming : r.incoming = {}) :
    Collected mode max r {} [] where
  maxValue_eq := hmax
  history := ⟨taken, h⟩
  assembly_eq := by rw [hincoming]; rfl
  collects := Assembly.collects_nil
  announced_le := nofun

/-- A unit is taken up by both reader and parser. -/
theorem Collected.unit (h : Collected mode max r a es)
    (hparse : r.parser.parse r.buffer = (.event e, q)) (hne : e ≠ .complete)
    (hfits : ∀ length, e.announces? = some length → length ≤ r.maxValue) :
    Collected mode max { r with parser := q, incoming := r.incoming.apply e } (a.apply e)
      (es ++ [e]) := by
  obtain ⟨taken, hhistory⟩ := h.history
  have horder := followsInOrder_of_parse hhistory hparse
  refine ⟨h.maxValue_eq, ⟨_, hhistory.unit hparse hne⟩, ?_, h.collects.apply horder, ?_⟩
  · have hassembly := h.assembly_eq
    subst hassembly
    refine Incoming.assembly_apply fun slot bytes isLast he => ?_
    obtain ⟨length, value, hbrings⟩ := (horder slot).2 ⟨bytes, isLast, he⟩
    rw [(h.collects.pending hbrings).1]
    exact Option.some_ne_none _
  · intro e' he' length hlength
    obtain he' | he' := List.mem_append.1 he'
    · exact h.announced_le e' he' length hlength
    · rw [List.mem_singleton.1 he'] at hlength
      exact h.maxValue_eq ▸ hfits length hlength

/-- Whatever units have come, both know the same of them. -/
theorem Collecting.collected (h : Collecting mode max r a es) : Collected mode max r a es := by
  -- Each turn is a call of the parser, and goes on with the history of the parser.
  induction h with
  | start => exact collected_of_history rfl (.start []) rfl
  | feed bytes _ ih =>
    obtain ⟨taken, hhistory⟩ := ih.history
    exact { ih with history := ⟨taken, hhistory.grow bytes⟩ }
  | @unit r r' a es e q _ hparse hturn ih =>
    have hturns := turns_turn r
    rw [hturn] at hturns
    cases hturns with
    | unit hparse' hne hfits =>
      rw [hparse] at hparse'
      cases hparse'
      exact ih.unit hparse hne hfits
  | @waits r r' a es _ hturn ih =>
    have hturns := turns_turn r
    rw [hturn] at hturns
    obtain ⟨taken, hhistory⟩ := ih.history
    cases hturns with
    | more hparse => exact { ih with history := ⟨_, (hhistory.more hparse).discard⟩ }
  | @ends r r' a es result _ hturn hresult ih =>
    have hturns := turns_turn r
    rw [hturn] at hturns
    obtain ⟨taken, hhistory⟩ := ih.history
    cases hturns with
    | more => exact absurd rfl hresult
    | malformed hparse =>
      exact collected_of_history ih.maxValue_eq (hhistory.fault [] hparse) rfl
    | complete hparse =>
      exact collected_of_history ih.maxValue_eq (hhistory.complete hparse).discard rfl
    | tooLarge hparse hne =>
      exact collected_of_history ih.maxValue_eq ((hhistory.unit hparse hne).reset []) rfl

/-! ### In step -/

/-- What a reader has collected goes with what its parser has open. -/
structure InStep (max : Nat) (r : Reader) (a : Assembly) (es : List Event) : Prop where
  /-- The reader keeps the packet in this way. -/
  assembly_eq : r.incoming.assembly = a
  /-- A place is kept for the value that the parser has open, and for no other. -/
  target_iff : ∀ slot, a.target = some slot ↔ ∃ missing, r.parser.state.owed = .value slot missing
  /-- Of an open value some bytes are missing, and the others have been collected: together they are
      as many as were announced when it began, which the limit allows. An entity modifier has been
      noted for it, without a value. -/
  pending : ∀ {slot missing}, r.parser.state.owed = .value slot missing →
    0 < missing ∧ Brings es slot (a.piece.length + missing) a.piece false ∧
      a.piece.length + missing ≤ max ∧ (slot = .entity → a.packet.Holds .entity [])
  /-- Where no place is kept there are no bytes. -/
  piece_eq : a.target = none → a.piece = []
  /-- The next unit is a part of the value for which a place is kept, if there is one, and of no
      value if there is none. -/
  next : ∀ {e q}, r.parser.parse r.buffer = (.event e, q) →
    ∀ slot, a.target = some slot ↔ ∃ bytes isLast, e = .piece slot bytes isLast
  /-- A value of which the last part has come has all bytes, and is in its place. -/
  placed : ∀ {slot length value}, Brings es slot length value true →
    value.length = length ∧ a.packet.Holds slot value

/-- A value is collected just while parts of it are missing. -/
theorem Collected.target_iff_brings (h : Collected mode max r a es) (slot : Slot) :
    a.target = some slot ↔ ∃ length value, Brings es slot length value false := by
  constructor
  · intro htarget
    by_cases hbrings : ∃ slot length value, Brings es slot length value false
    · obtain ⟨slot', length, value, hbrings⟩ := hbrings
      obtain ⟨htarget', -⟩ := h.collects.pending hbrings
      rw [htarget] at htarget'
      cases htarget'
      exact ⟨length, value, hbrings⟩
    · obtain ⟨hnone, -⟩ := h.collects.nothing fun slot length value hb =>
        hbrings ⟨slot, length, value, hb⟩
      rw [htarget] at hnone
      cases hnone
  · rintro ⟨length, value, hbrings⟩
    exact (h.collects.pending hbrings).1

/-- So the reader is in step with the parser. -/
theorem Collected.inStep (h : Collected mode max r a es) : InStep max r a es := by
  obtain ⟨taken, hhistory⟩ := h.history
  have haccounts := hhistory.keeps.accounts
  exact
    { assembly_eq := h.assembly_eq
      target_iff := fun slot => by
        rw [h.target_iff_brings]
        constructor
        · rintro ⟨length, value, hbrings⟩
          cases haccounts.follows hbrings with
          | cut howed => exact ⟨_, howed⟩
        · rintro ⟨missing, howed⟩
          exact haccounts.begun howed
      pending := fun {slot missing} howed => by
        -- What is owed tells that a value is open; which one it is, is told by the units that have
        -- come.
        obtain ⟨length, value, hbrings⟩ := haccounts.begun howed
        obtain ⟨-, hpiece, hentity⟩ := h.collects.pending hbrings
        obtain ⟨e, he, hlength⟩ := exists_announces_of_brings hbrings
        have hle := h.announced_le e he length hlength
        cases haccounts.follows hbrings with
        | cut howed' hpos =>
          rw [howed] at howed'
          cases howed'
          rw [hpiece]
          exact ⟨hpos, hbrings, hle, hentity⟩
      piece_eq := fun hnone => by
        refine (h.collects.nothing fun slot length value hbrings => ?_).2
        have htarget := (h.target_iff_brings slot).2 ⟨length, value, hbrings⟩
        rw [hnone] at htarget
        cases htarget
      next := fun hparse slot => by
        rw [h.target_iff_brings]
        exact followsInOrder_of_parse hhistory hparse slot
      placed := fun hbrings => by
        refine ⟨?_, h.collects.placed hbrings⟩
        cases haccounts.follows hbrings <;> rfl }

/-- Between two calls and between two turns of a call, whatever has been fed and has come of it, the
    reader and its parser agree on the value that is open. -/
theorem stays_in_step (mode : ModeBits) (max : Nat) :
    (∀ r, Reachable mode max r → ∃ a es, Collecting mode max r a es) ∧
      (∀ r r' a es, Collecting mode max r a es → r.turn = .inr r' →
        ∃ e, Collecting mode max r' (a.apply e) (es ++ [e])) ∧
      ∀ r a es, Collecting mode max r a es → InStep max r a es :=
  ⟨fun _ h => h.exists_collecting, fun _ _ _ _ h => h.exists_unit,
    fun _ _ _ h => h.collected.inStep⟩

/-- A value comes in two chunks: two bytes are collected when one is missing. -/
theorem stays_in_step_in_value :
    ∃ r a m, Collecting {} 5 r a [.entityOpening m 3] ∧ InStep 5 r a [.entityOpening m 3] ∧
      r.parser.state.owed = .value .entity 1 ∧ a.target = some .entity ∧
        a.piece = Bytes.ofText "ab" := by
  let m : Modifier := ⟨.set, Bytes.ofText "_a", Bytes.ofText "ab"⟩
  let r : Reader := (start {} 5).feed (Bytes.ofText "10\n:_a 3\tab")
  let q : Parser machine := ⟨⟨.whole, .content, some 10, 8, .value .entity 1⟩, 11⟩
  have hparse : r.parser.parse r.buffer = (.event (.entityOpening m 3), q) :=
    (parse_eq_event_iff (Nat.zero_le _)).2 ⟨_, 11, by decide +kernel, rfl⟩
  have hfits : ∀ length, (Event.entityOpening m 3).announces? = some length →
      length ≤ r.maxValue := by
    rintro _ ⟨rfl⟩
    decide
  have hcollecting := Collecting.unit (.feed _ .start) hparse (turn_of_unit hparse nofun hfits)
  exact ⟨_, _, m, hcollecting, (stays_in_step {} 5).2.2 _ _ _ hcollecting, rfl, rfl, rfl⟩

end PacketWire.Reader
