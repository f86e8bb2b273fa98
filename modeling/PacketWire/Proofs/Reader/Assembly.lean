import PacketWire.Proofs.Packet.Accounting
import PacketWire.Reader.Basic

namespace PacketWire

open Packet

/-!
# Values put together from their parts

A packet that is coming in may be kept with the bytes of a value in parts on their own, and the
place that they are for beside them (`Assembly`). Nothing but the order of the units makes the two
go together: without a place bytes are lost, and with a wrong one they come into another value.
Units that come in order are collected as they should be (`Assembly.Collects.apply`), and then this
is the packet as a reader keeps it (`Incoming.assembly_apply`).
-/

/-- The value at a place is this one; for an entity modifier it is the last that counts. -/
def Received.Holds (p : Received) (slot : Slot) (value : Bytes) : Prop :=
  match slot with
  | .entity => ∃ m, p.entity.getLast? = some m ∧ m.value = value
  | .body => p.data = value
  | .content => p.content = value

/-- A packet that is coming in. -/
structure Assembly where
  /-- What is known of it. -/
  packet : Received := {}
  /-- The bytes of a value in parts that have come. -/
  piece : Bytes := []
  /-- Where they belong. -/
  target : Option Slot := none
deriving DecidableEq, Repr

namespace Assembly

/-- A value begins; what has been collected before is forgotten. -/
def start (a : Assembly) (slot : Slot) (first : Bytes) : Assembly :=
  { a with piece := first, target := some slot }

/-- More bytes of a value. -/
def extend (a : Assembly) (bytes : Bytes) : Assembly := { a with piece := a.piece ++ bytes }

/-- Puts the bytes into their place; they are lost if there is none. -/
def finish (a : Assembly) : Assembly :=
  match a.target with
  | some slot => { packet := a.packet.fill slot a.piece }
  | none => { packet := a.packet }

/-- Notes a unit of the packet. -/
def apply (a : Assembly) : Event → Assembly
  | .routing m => { a with packet.routing := a.packet.routing ++ [m] }
  | .stateReset => { a with packet.state := .reset }
  | .stateResync => { a with packet.state := .resync }
  | .entity m => { a with packet.entity := a.packet.entity ++ [m] }
  | .entityOpening m _ =>
    { a with packet.entity := a.packet.entity ++ [{ m with value := [] }] }.start .entity m.value
  | .body method data => { a with packet.method := method, packet.data := data }
  | .bodyOpening method data _ => { a with packet.method := method }.start .body data
  | .content bytes => { a with packet.content := bytes }
  | .contentOpening bytes _ => a.start .content bytes
  | .piece _ bytes isLast => if isLast then (a.extend bytes).finish else a.extend bytes
  | .complete => a

end Assembly

/-- The packet as a reader keeps it, with the open value in two. -/
def Incoming.assembly (i : Incoming) : Assembly where
  packet := i.packet
  piece := i.value.elim [] OpenValue.bytes
  target := i.value.map OpenValue.slot

variable {p : Received} {slot : Slot} {length : Nat} {value : Bytes} {e : Event} {es : List Event}
  {a : Assembly} {i : Incoming}

/-- A reader puts packets together in this way, if further parts come only for a value that is
    open. -/
theorem Incoming.assembly_apply
    (h : ∀ slot bytes isLast, e = .piece slot bytes isLast → i.assembly.target ≠ none) :
    (i.apply e).assembly = i.assembly.apply e := by
  cases e with
  | piece slot bytes isLast =>
    obtain ⟨packet, value⟩ := i
    cases value with
    | none => exact absurd rfl (h slot bytes isLast rfl)
    | some v => cases isLast <;> rfl
  | _ => rfl

/-! ### Places -/

/-- An entity modifier that comes is the last. -/
theorem Received.holds_entity_append (ms : List Modifier) (m : Modifier) :
    { p with entity := ms ++ [m] }.Holds .entity m.value := ⟨m, List.getLast?_concat, rfl⟩

/-- A value that is put into its place is there; an entity modifier must have come before. -/
theorem Received.holds_fill {old : Bytes} (h : slot = .entity → p.Holds .entity old)
    (value : Bytes) : (p.fill slot value).Holds slot value := by
  cases slot with
  | body => rfl
  | content => rfl
  | entity =>
    obtain ⟨m, hm, -⟩ := h rfl
    rw [Received.fill, Received.setLastValue, hm]
    exact holds_entity_append _ { m with value }

/-! ### Units in order -/

/-- A unit comes in order behind others: further parts are for a value that has begun and is not
    complete, and nothing else comes behind it. -/
def FollowsInOrder (es : List Event) (e : Event) : Prop :=
  ∀ slot, (∃ length value, Brings es slot length value false) ↔
    ∃ bytes isLast, e = .piece slot bytes isLast

/-- What is put together goes with the units that have come. -/
structure Assembly.Collects (a : Assembly) (es : List Event) : Prop where
  /-- Of a value that is not complete all bytes are there, and its place is kept. -/
  pending : ∀ {slot length value}, Brings es slot length value false →
    a.target = some slot ∧ a.piece = value ∧ (slot = .entity → a.packet.Holds .entity [])
  /-- Otherwise there are no bytes. -/
  nothing : (∀ slot length value, ¬ Brings es slot length value false) →
    a.target = none ∧ a.piece = []
  /-- A value that is complete has come into its place. -/
  placed : ∀ {slot length value}, Brings es slot length value true → a.packet.Holds slot value

theorem not_brings_nil {isLast : Bool} : ¬ Brings [] slot length value isLast :=
  @not_brings_routing [] _ _ _ _

/-- A unit that is no further part brings the value that begins with it, and no other. -/
theorem brings_concat_iff_begins {isLast : Bool}
    (h : ∀ slot bytes isLast, e ≠ .piece slot bytes isLast) :
    Brings (es ++ [e]) slot length value isLast ↔ e.Begins slot length value isLast := by
  rw [brings_concat_iff, or_iff_left]
  rintro ⟨_, _, he, -⟩
  exact h _ _ _ he

/-- The length of a value that is not complete has been announced. -/
theorem exists_announces_of_brings (h : Brings es slot length value false) :
    ∃ e ∈ es, e.announces? = some length := by
  generalize hlast : false = isLast at h
  induction h with
  | begins hbegins =>
    subst hlast
    cases hbegins <;> exact ⟨_, List.mem_concat_self, rfl⟩
  | piece _ ih =>
    obtain ⟨e, he, hlength⟩ := ih rfl
    exact ⟨e, List.mem_append_left _ he, hlength⟩

namespace Assembly

theorem collects_nil : Collects {} [] where
  pending h := absurd h not_brings_nil
  nothing _ := ⟨rfl, rfl⟩
  placed h := absurd h not_brings_nil

/-- A further part comes to the others; the last one completes the value. -/
theorem Collects.apply_piece {bytes : Bytes} {isLast : Bool} (h : a.Collects es)
    (hes : Brings es slot length value false) :
    (a.apply (.piece slot bytes isLast)).Collects (es ++ [.piece slot bytes isLast]) := by
  obtain ⟨htarget, hpiece, hentity⟩ := h.pending hes
  -- what is brought now is what was brought before, and the part
  have hbrings : ∀ {slot' length' value' isLast'},
      Brings (es ++ [.piece slot bytes isLast]) slot' length' value' isLast' →
        slot' = slot ∧ value' = a.piece ++ bytes ∧ isLast' = isLast := by
    intro slot' length' value' isLast' hb
    obtain hbegins | ⟨front, _, he, rfl, hfront⟩ := brings_concat_iff.1 hb
    · cases hbegins
    · cases he
      exact ⟨rfl, by rw [(h.pending hfront).2.1], rfl⟩
  cases isLast with
  | false =>
    have happly : a.apply (.piece slot bytes false) = a.extend bytes := rfl
    rw [happly]
    refine ⟨fun hb => ?_, fun hnone => absurd (.piece hes) (hnone _ _ _), fun hb => ?_⟩
    · obtain ⟨rfl, rfl, -⟩ := hbrings hb
      exact ⟨htarget, rfl, hentity⟩
    · cases (hbrings hb).2.2
  | true =>
    have happly : a.apply (.piece slot bytes true) =
        { packet := a.packet.fill slot (a.piece ++ bytes) } := by
      rw [apply, if_pos rfl, finish, extend, htarget]
    rw [happly]
    refine ⟨fun hb => ?_, fun _ => ⟨rfl, rfl⟩, fun hb => ?_⟩
    · cases (hbrings hb).2.2
    · obtain ⟨rfl, rfl, -⟩ := hbrings hb
      exact Received.holds_fill hentity _

/-- A unit that is no further part comes where no bytes have been collected. -/
theorem Collects.apply_unit (hempty : a.target = none ∧ a.piece = [])
    (hpiece : ∀ slot bytes isLast, e ≠ .piece slot bytes isLast) :
    (a.apply e).Collects (es ++ [e]) where
  pending hb := by
    cases (brings_concat_iff_begins hpiece).1 hb with
    | entityOpening => exact ⟨rfl, rfl, fun _ => Received.holds_entity_append _ _⟩
    | bodyOpening => exact ⟨rfl, rfl, nofun⟩
    | contentOpening => exact ⟨rfl, rfl, nofun⟩
  nothing hnone := by
    cases e with
    | entityOpening => exact absurd (.begins .entityOpening) (hnone _ _ _)
    | bodyOpening => exact absurd (.begins .bodyOpening) (hnone _ _ _)
    | contentOpening => exact absurd (.begins .contentOpening) (hnone _ _ _)
    | piece slot bytes isLast => exact absurd rfl (hpiece slot bytes isLast)
    | _ => exact hempty
  placed hb := by
    cases (brings_concat_iff_begins hpiece).1 hb with
    | entity => exact Received.holds_entity_append _ _
    | body => rfl
    | content => rfl

/-- Units that come in order are collected. -/
theorem Collects.apply (h : a.Collects es) (horder : FollowsInOrder es e) :
    (a.apply e).Collects (es ++ [e]) := by
  by_cases hpiece : ∃ slot bytes isLast, e = .piece slot bytes isLast
  · obtain ⟨slot, bytes, isLast, rfl⟩ := hpiece
    obtain ⟨length, value, hes⟩ := (horder slot).2 ⟨bytes, isLast, rfl⟩
    exact h.apply_piece hes
  · refine .apply_unit (h.nothing fun slot length value hes => hpiece ?_)
      fun slot bytes isLast he => hpiece ⟨slot, bytes, isLast, he⟩
    exact ⟨slot, (horder slot).1 ⟨length, value, hes⟩⟩

end Assembly

end PacketWire
