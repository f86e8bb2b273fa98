import PacketWire.Proofs.Reader.Steps

namespace PacketWire

open Packet

/-!
# Values in parts

A unit that was cut and the part of its value behind it are the same to a reader as the one unit
that reports both (`Incoming.apply_join`), and the parser gives the one or the other from the same
bytes (`step_of_cut`).
-/

variable {e : Event} {owed : Owed} {bytes : Bytes} {isLast : Bool}

/-- A unit that leaves a value open is made of what is in front of its value, and of more and more
    of the value. -/
theorem Incoming.apply_join {a : Incoming} {slot slot' : Slot} {missing : Nat}
    (hleaves : e.Leaves (.value slot missing))
    (ha : a.value = none ∨ ∃ slot bytes isLast, e = .piece slot bytes isLast) :
    (a.apply e).apply (.piece slot' bytes isLast) = a.apply (e.join bytes isLast) := by
  cases hleaves with
  | whole howed => exact absurd rfl (howed slot missing)
  | piece =>
    obtain ⟨packet, value⟩ := a
    cases value with
    | none => rfl
    | some v => cases isLast <;> simp [Incoming.apply, Event.join, Incoming.extend]
  | opening hlength =>
    -- A value is opened only where none is being collected.
    have hnone : a.value = none := by
      rcases ha with ha | ⟨_, _, _, rfl⟩
      · exact ha
      · cases hlength
    cases e with
    | entityOpening m length =>
      cases isLast <;>
        simp [Incoming.apply, Event.join, Incoming.extend, Received.fill, Received.setLastValue,
          hnone]
    | bodyOpening method data length =>
      cases isLast <;>
        simp [Incoming.apply, Event.join, Incoming.extend, Received.fill, hnone]
    | contentOpening front length =>
      cases isLast <;>
        simp [Incoming.apply, Event.join, Incoming.extend, Received.fill, hnone]
    | _ => cases hlength

/-- The unit that reports more of a value announces no other length. -/
theorem announces?_join {length : Nat} (h : (e.join bytes isLast).announces? = some length) :
    e.announces? = some length := by
  cases e with
  | entityOpening m length => cases isLast <;> first | exact h | cases h
  | bodyOpening method data length => cases isLast <;> first | exact h | cases h
  | contentOpening front length => cases isLast <;> first | exact h | cases h
  | _ => exact h

/-- A unit announces the same with more of its value. -/
theorem announces?_join_false : (e.join bytes false).announces? = e.announces? := by
  cases e <;> rfl

/-- No unit becomes the end by more of its value. -/
theorem join_ne_complete (h : e ≠ .complete) : e.join bytes isLast ≠ .complete := by
  cases e with
  | complete => exact absurd rfl h
  | entityOpening m length => cases isLast <;> simp [Event.join]
  | bodyOpening method data length => cases isLast <;> simp [Event.join]
  | contentOpening front length => cases isLast <;> simp [Event.join]
  | _ => simp [Event.join]

/-- From the bytes that a unit goes on with the parser reads the next part of its value. -/
theorem step_of_cut {t : State} {go : Bytes → (Event × State) × Nat} {more : Bytes}
    (hgo : State.growth (e, t) = some go) (hne : more ≠ []) :
    ∃ slot bytes isLast, (go more).1.1 = e.join bytes isLast ∧
      step t more = .emit (.piece slot bytes isLast) (go more).1.2 (go more).2 := by
  cases ho : t.owed with
  | nothing => simp [State.growth, Owed.growth, ho] at hgo
  | lineFeed line => simp [State.growth, Owed.growth, ho] at hgo
  | value slot missing =>
    simp only [State.growth, Owed.growth, ho, Option.map_some, Option.some.injEq] at hgo
    subst hgo
    -- all that is missing is there, or all that is there is a part of it
    by_cases hm : missing ≤ more.length
    · have hunit : PieceUnit slot missing (more.take missing) (more.drop missing)
          (.piece slot (more.take missing) true) slot.behind :=
        .last (by simp [hm]) (by rw [List.take_append_drop]; exact hne)
      have hstep := step_of_reads (.piece ho hunit)
      rw [List.take_append_drop, List.length_take, Nat.min_eq_left hm] at hstep
      exact ⟨slot, more.take missing, true, by simp [hm], by simp [hm, hstep]⟩
    · have hunit : PieceUnit slot missing more [] (.piece slot more false)
          (.value slot (missing - more.length)) := .part hne (by omega)
      have hstep := step_of_reads (.piece ho hunit)
      rw [List.append_nil] at hstep
      exact ⟨slot, more, false, by simp [hm], by simp [hm, hstep]⟩

/-- A unit whose value does not end in the bytes behind it goes on with all of them. -/
theorem growth_of_lt {t : State} {go : Bytes → (Event × State) × Nat} {slot : Slot}
    {missing : Nat} {more : Bytes} (hgo : State.growth (e, t) = some go)
    (ho : t.owed = .value slot missing) (hlt : more.length < missing) :
    (go more).1.1 = e.join more false := by
  simp only [State.growth, Owed.growth, ho, Option.map_some, Option.some.injEq] at hgo
  subst hgo
  simp [Nat.not_le_of_lt hlt]

/-- Only a unit that leaves a value open has been cut. -/
theorem growth_eq_some_iff {t : State} :
    (∃ go, State.growth (e, t) = some go) ↔ t.HasOpen := by
  cases ho : t.owed <;> simp [State.growth, Owed.growth, State.HasOpen, ho]

/-! ### Open values on both sides -/

/-- Where the parser has no open value, the packet that is coming in has none. -/
def Incoming.Follows (a : Incoming) (s : State) : Prop := ¬ s.HasOpen → a.value = none

/-- Where there is no value, none has to be followed. -/
theorem Incoming.follows_empty {s : State} : Incoming.Follows {} s := fun _ => rfl

/-- A packet that is coming in follows the parser from unit to unit. -/
theorem Incoming.Follows.apply {a : Incoming} {s t : State} {n : Nat} (ha : a.Follows s)
    (h : s.Sends e t n) : (a.apply e).Follows t := by
  intro hopen
  obtain ⟨-, -, hleaves, -, hpiece⟩ := h
  generalize ho : t.owed = owed at hleaves
  cases hleaves with
  | opening => exact absurd ⟨_, _, ho⟩ hopen
  | piece => exact absurd ⟨_, _, ho⟩ hopen
  | whole _ hnone hpart =>
    -- Where a value is open, the unit is its last part and closes it.
    by_cases hs : s.HasOpen
    · obtain ⟨slot, bytes, isLast, rfl⟩ := hpiece.1 hs
      cases isLast with
      | false => exact absurd rfl (hpart slot bytes)
      | true =>
        obtain ⟨packet, value⟩ := a
        cases value <;> rfl
    · have hvalue := ha hs
      cases e with
      | entityOpening => cases hnone
      | bodyOpening => cases hnone
      | contentOpening => cases hnone
      | piece slot bytes isLast => exact absurd (hpiece.2 ⟨slot, bytes, isLast, rfl⟩) hs
      | _ => exact hvalue

/-- The value that is coming in, if there is one, is within the limit. -/
def Incoming.Fits (a : Incoming) (max : Nat) : Prop :=
  ∀ v, a.value = some v → v.length ≤ max

/-- Where there is no value, none is too large. -/
theorem Incoming.fits_empty {max : Nat} : Incoming.Fits {} max := nofun

/-- An announced length is the length of the value that is coming in then. -/
theorem Incoming.value_apply {a : Incoming} {length : Nat} (h : e.announces? = some length) :
    ∃ v, (a.apply e).value = some v ∧ v.length = length := by
  cases e with
  | entityOpening m length' => cases h; exact ⟨_, rfl, rfl⟩
  | bodyOpening method data length' => cases h; exact ⟨_, rfl, rfl⟩
  | contentOpening front length' => cases h; exact ⟨_, rfl, rfl⟩
  | _ => cases h

/-- A unit that announces no length leaves a value within the limit as it is, but for its bytes. -/
theorem Incoming.Fits.apply {a : Incoming} {max : Nat} (h : a.Fits max)
    (he : e.announces? = none) : (a.apply e).Fits max := by
  cases e with
  | entityOpening => cases he
  | bodyOpening => cases he
  | contentOpening => cases he
  | piece slot bytes isLast =>
    obtain ⟨packet, value⟩ := a
    cases value with
    | none => exact h
    | some v =>
      cases isLast with
      | true => nofun
      | false =>
        intro w hw
        cases hw
        exact h v rfl
  | _ => exact h

end PacketWire
