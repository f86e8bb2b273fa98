import PacketWire.Proofs.Packet.Advance
import PacketWire.Reader.Basic

namespace PacketWire.Packet

/-!
# Steps of a reader

What a reader relies on in the steps of its parser: every unit takes a byte; a value is open behind
a unit exactly if the unit opens it, or brings a part of it that is not the last; and an open value
is gone on with by further parts of it and nothing else.
-/

/-- What may be owed behind a unit. -/
inductive Event.Leaves : Event → Owed → Prop where
  /-- A complete unit leaves no value open. -/
  | whole {e : Event} {owed : Owed} :
      (∀ slot missing, owed ≠ .value slot missing) → e.announces? = none →
        (∀ slot bytes, e ≠ .piece slot bytes false) → Leaves e owed
  /-- The first part of a value, of which the length is one of 64 bits. -/
  | opening {e : Event} {slot : Slot} {length missing : Nat} :
      e.announces? = some length → length < Decimal.bound → Leaves e (.value slot missing)
  /-- A further part that is not the last. -/
  | piece {slot : Slot} {bytes : Bytes} {missing : Nat} :
      Leaves (.piece slot bytes false) (.value slot missing)

namespace State

/-- What holds of the states of a parser for whole packets. -/
structure IsValid (s : State) : Prop where
  /-- The header is not left out. -/
  mode : ∀ length, s.mode ≠ .contentOnly length
  /-- The length of the content is one of 64 bits. -/
  announced : ∀ n, s.announced = some n → n < Decimal.bound
  /-- Some bytes of a value that is open are missing. -/
  missing : ∀ slot missing, s.owed = .value slot missing → 0 < missing

variable {s t : State} {text rest input : Bytes} {e : Event} {r : Step State Event Cause}

/-- A parser that has read nothing is valid, in the modes of readers. -/
theorem isValid_initial {mode : Mode} (h : ∀ length, mode ≠ .contentOnly length) :
    (State.initial mode).IsValid where
  mode := h
  announced n hn := by
    cases mode with
    | contentOnly length => exact absurd rfl (h length)
    | whole => cases hn
    | routingOnly => cases hn
  missing _ _ ho := by cases ho

/-- Moves keep a parser valid. -/
theorem IsValid.moves (hs : s.IsValid) (h : s.Moves text rest t) : t.IsValid := by
  cases h with
  | lineFeed => exact ⟨hs.mode, hs.announced, nofun⟩
  | routing => exact ⟨hs.mode, hs.announced, hs.missing⟩
  | full => exact ⟨hs.mode, hs.announced, hs.missing⟩
  | content => exact ⟨hs.mode, hs.announced, hs.missing⟩
  | method => exact ⟨hs.mode, hs.announced, hs.missing⟩
  | data => exact ⟨hs.mode, hs.announced, hs.missing⟩
  | length _ _ hline =>
    cases hline with
    | absent => exact ⟨hs.mode, hs.announced, hs.missing⟩
    | untold => exact ⟨hs.mode, nofun, hs.missing⟩
    | told hnum =>
      refine ⟨hs.mode, fun n hn => ?_, hs.missing⟩
      cases hn
      exact hnum.lt_bound

/-- Every unit of a packet takes a byte. -/
theorem IsValid.text_ne_nil (hs : s.IsValid) (h : s.Reads text rest e t) : text ≠ [] :=
  (h.ne_nil_or_complete hs.missing).resolve_right fun ⟨_, length, hmode⟩ => hs.mode length hmode

/-- What holds of every unit for which so many bytes are taken in a state of a parser for whole
    packets. -/
structure Sends (s : State) (e : Event) (t : State) (n : Nat) : Prop where
  /-- A byte is taken. -/
  pos : 0 < n
  /-- The state behind it is one of these, too. -/
  isValid : t.IsValid
  /-- What is owed behind it goes with the unit. -/
  leaves : e.Leaves t.owed
  /-- Of a value that it announces no more has been taken than the bytes. -/
  length_le : ∀ {length slot missing}, e.announces? = some length →
    t.owed = .value slot missing → length ≤ n + missing
  /-- Further parts come for a value that is open, and for no other. -/
  isPiece : s.HasOpen ↔ ∃ slot bytes isLast, e = .piece slot bytes isLast

/-- Where nothing is owed no value is open. -/
theorem not_hasOpen_of_nothing (h : s.owed = .nothing) : ¬ s.HasOpen := by
  rintro ⟨slot, missing, hv⟩
  rw [h] at hv
  cases hv

/-- A unit that is whole leaves no value open. -/
theorem sends_of_whole {n : Nat} (hs : s.IsValid) (hn : 0 < n) (ho : s.owed = .nothing)
    (hmode : t.mode = s.mode) (hann : t.announced = s.announced)
    (howed : ∀ slot missing, t.owed ≠ .value slot missing) (ha : e.announces? = none)
    (hp : ∀ slot bytes isLast, e ≠ .piece slot bytes isLast) : s.Sends e t n where
  pos := hn
  isValid :=
    { mode := by rw [hmode]; exact hs.mode
      announced := by rw [hann]; exact hs.announced
      missing := fun slot missing hv => absurd hv (howed slot missing) }
  leaves := .whole howed ha fun slot bytes => hp slot bytes false
  length_le := fun _ hv => absurd hv (howed _ _)
  isPiece := by
    refine ⟨fun h => absurd h (not_hasOpen_of_nothing ho), ?_⟩
    rintro ⟨slot, bytes, isLast, he⟩
    exact absurd he (hp slot bytes isLast)

/-- A unit that opens a value leaves it open. -/
theorem sends_of_opening {n : Nat} {slot : Slot} {length missing : Nat} (hs : s.IsValid)
    (hn : 0 < n) (ho : s.owed = .nothing) (hmode : t.mode = s.mode)
    (hann : t.announced = s.announced) (howed : t.owed = .value slot missing)
    (ha : e.announces? = some length) (hlt : length < Decimal.bound) (hm : 0 < missing)
    (hle : length ≤ n + missing) : s.Sends e t n where
  pos := hn
  isValid :=
    { mode := by rw [hmode]; exact hs.mode
      announced := by rw [hann]; exact hs.announced
      missing := fun slot' missing' hv => by rw [howed] at hv; cases hv; exact hm }
  leaves := by rw [howed]; exact .opening ha hlt
  length_le := fun ha' hv => by
    rw [ha] at ha'
    rw [howed] at hv
    cases ha'
    cases hv
    exact hle
  isPiece := by
    refine ⟨fun h => absurd h (not_hasOpen_of_nothing ho), ?_⟩
    rintro ⟨slot, bytes, isLast, rfl⟩
    cases ha

/-- What a unit of a packet leaves open, and whether it is a further part. -/
theorem IsValid.sends (hs : s.IsValid) (h : s.Reads text rest e t) : s.Sends e t text.length := by
  have hn : 0 < text.length := List.length_pos_iff.2 (hs.text_ne_nil h)
  cases h with
  | @piece slot missing _ _ _ owed ho hunit =>
    have hopen : s.HasOpen := ⟨slot, missing, ho⟩
    cases hunit with
    | last =>
      -- at most a line feed is owed behind a value
      have hbehind : ∀ slot' missing', slot.behind ≠ .value slot' missing' := by
        cases slot <;> nofun
      exact ⟨hn,
        ⟨hs.mode, hs.announced, fun slot' missing' hv => absurd hv (hbehind slot' missing')⟩,
        .whole hbehind rfl nofun, nofun, ⟨fun _ => ⟨slot, text, true, rfl⟩, fun _ => hopen⟩⟩
    | part _ hlt =>
      refine ⟨hn, ⟨hs.mode, hs.announced, fun slot' missing' hv => ?_⟩, .piece, nofun,
        ⟨fun _ => ⟨slot, text, false, rfl⟩, fun _ => hopen⟩⟩
      cases hv
      omega
  | routing ho => exact sends_of_whole hs hn ho rfl rfl (by rw [ho]; nofun) rfl nofun
  | content ho _ _ hunit =>
    cases hunit with
    | reset => exact sends_of_whole hs hn ho rfl rfl nofun rfl nofun
    | resync => exact sends_of_whole hs hn ho rfl rfl nofun rfl nofun
    | plain => exact sends_of_whole hs hn ho rfl rfl nofun rfl nofun
    | counted => exact sends_of_whole hs hn ho rfl rfl nofun rfl nofun
    | opening _ hnum _ hlt =>
      refine sends_of_opening hs hn ho rfl rfl rfl rfl hnum.lt_bound (by omega) ?_
      rw [List.length_append]
      omega
  | body ho _ _ hunit =>
    cases hunit with
    | lines => exact sends_of_whole hs hn ho rfl rfl nofun rfl nofun
    | bare => exact sends_of_whole hs hn ho rfl rfl nofun rfl nofun
    | counted => exact sends_of_whole hs hn ho rfl rfl nofun rfl nofun
    | opening hann hlt =>
      have hbound := hs.announced _ hann
      refine sends_of_opening hs hn ho rfl rfl rfl rfl (by omega) (by omega) ?_
      rw [List.length_append, List.length_cons]
      omega
  | data ho _ hunit =>
    cases hunit with
    | lines => exact sends_of_whole hs hn ho rfl rfl nofun rfl nofun
    | counted => exact sends_of_whole hs hn ho rfl rfl nofun rfl nofun
    | opening hann _ hlt =>
      have hbound := hs.announced _ hann
      exact sends_of_opening hs hn ho rfl rfl rfl rfl (by omega) (by omega) (by omega)
  | closing ho =>
    refine ⟨hn, isValid_initial hs.mode, .whole nofun rfl nofun, nofun,
      ⟨fun h => absurd h (not_hasOpen_of_nothing ho), ?_⟩⟩
    rintro ⟨slot, bytes, isLast, he⟩
    cases he

/-! ### Steps -/

/-- What holds of the outcomes of a step in a state of a parser for whole packets. -/
def Allows (s : State) : Step State Event Cause → Prop
  | .emit e t n => s.Sends e t n
  | .wait t _ => t.IsValid ∧ (s.HasOpen ↔ t.HasOpen)
  | .fault _ => True

/-- A valid parser does nothing but what a reader relies on. -/
theorem IsValid.allows (hs : s.IsValid) (h : s.Does input r) : s.Allows r := by
  induction h with
  | unit h => exact hs.sends h
  | wait => exact ⟨hs, Iff.rfl⟩
  | fault => trivial
  | @move s t _ _ r hm _ ih =>
    -- a value is open neither in front of a move nor behind it, and the bytes of the move only add
    -- to those of the unit
    have ht := ih (hs.moves hm)
    obtain ⟨hnothing, hopen⟩ := hm.owed_eq
    have hopen' := not_hasOpen_of_nothing hnothing
    cases r with
    | fault f => trivial
    | wait u n =>
      obtain ⟨hu, hut⟩ := ht
      rw [iff_false_left hopen'] at hut
      exact ⟨hu, (iff_false_left hopen).2 hut⟩
    | emit e u n =>
      obtain ⟨hpos, hvalid, hleaves, hle, hpiece⟩ := ht
      refine ⟨Nat.add_pos_right _ hpos, hvalid, hleaves, fun ha hv => ?_, ?_⟩
      · exact Nat.le_trans (hle ha hv) (by omega)
      · rw [← hpiece]
        exact ⟨fun h => absurd h hopen, fun h => absurd h hopen'⟩

/-- The unit that a step reads. -/
theorem IsValid.sends_of_step {n : Nat} (hs : s.IsValid) (h : step s input = .emit e t n) :
    s.Sends e t n := by
  have hallows := hs.allows (does_step s input)
  rwa [h] at hallows

/-- The state that a step waits in. -/
theorem IsValid.wait_of_step {n : Nat} (hs : s.IsValid) (h : step s input = .wait t n) :
    t.IsValid ∧ (s.HasOpen ↔ t.HasOpen) := by
  have hallows := hs.allows (does_step s input)
  rwa [h] at hallows

/-- The end of a packet leaves no value open. -/
theorem Sends.not_hasOpen {n : Nat} (h : s.Sends .complete t n) : ¬ t.HasOpen := by
  rintro ⟨slot, missing, ho⟩
  have hleaves := h.leaves
  rw [ho] at hleaves
  cases hleaves with
  | whole howed => exact howed slot missing rfl
  | opening ha => cases ha

/-- Announced lengths are lengths of 64 bits. -/
theorem Sends.length_lt {n length : Nat} (h : s.Sends e t n) (ha : e.announces? = some length) :
    length < Decimal.bound := by
  have hleaves := h.leaves
  generalize t.owed = owed at hleaves
  cases hleaves with
  | whole _ hnone => rw [ha] at hnone; cases hnone
  | opening ha' hlt => rw [ha] at ha'; cases ha'; exact hlt
  | piece => cases ha

/-- A unit that announces the length of a value leaves it open. -/
theorem Sends.hasOpen {n length : Nat} (h : s.Sends e t n) (ha : e.announces? = some length) :
    t.HasOpen := by
  have hleaves := h.leaves
  generalize ho : t.owed = owed at hleaves
  cases hleaves with
  | whole _ hnone => rw [ha] at hnone; cases hnone
  | opening => exact ⟨_, _, ho⟩
  | piece => cases ha

end State

end PacketWire.Packet
