import PacketWire.Proofs.Packet.Steps
import PacketWire.Proofs.Resumable.Progress

namespace PacketWire.Packet

open Machine

/-!
# Progress in packets

Each unit of a packet takes bytes, as of a value that is open some are missing; only the end of
content that comes by itself takes none, as no line closes it (`State.Reads.ne_nil_or_complete`). A
step takes what its moves take besides, and waits for bytes and for nothing else
(`advances_machine`).
-/

variable {s t : State} {text rest input : Bytes} {e : Event} {n : Nat} {mode : Mode}

namespace State

/-- Some bytes are missing of a value that is open. -/
def LacksBytes (s : State) : Prop := ∀ slot missing, s.owed = .value slot missing → 0 < missing

theorem lacksBytes_of_nothing (h : s.owed = .nothing) : s.LacksBytes := by
  intro slot missing ho
  rw [h] at ho
  cases ho

theorem GoesTo.lacksBytes (h : s.GoesTo text rest t) (hs : s.LacksBytes) : t.LacksBytes := by
  induction h with
  | here => exact hs
  | move hm _ ih => exact ih (lacksBytes_of_nothing hm.owed_eq.1)

/-- Every unit takes a byte, but for the end of content that comes by itself. -/
theorem Reads.ne_nil_or_complete (h : s.Reads text rest e t) (hs : s.LacksBytes) :
    text ≠ [] ∨ (e = .complete ∧ ∃ length, s.mode = .contentOnly length) := by
  cases h with
  | piece ho hunit =>
    -- bytes of the value are missing, so the last part of it has some
    have hpos := hs _ _ ho
    cases hunit with
    | last hlen => exact .inl (List.ne_nil_of_length_pos (by omega))
    | part hne => exact .inl hne
  | routing _ _ hm => cases hm <;> exact .inl (by simp)
  | content _ _ _ hunit =>
    obtain ⟨oper, b, tail, rfl, -⟩ := hunit.starts
    exact .inl (List.cons_ne_nil _ _)
  | body => exact .inl (by simp)
  | data _ _ hunit =>
    cases hunit with
    | lines _ _ hne => exact .inl hne
    | counted _ hne => exact .inl hne
    | opening _ hne => exact .inl hne
  | closing =>
    cases hmode : s.mode with
    | contentOnly length => exact .inr ⟨rfl, length, rfl⟩
    | whole => exact .inl (by simp [ending, closingLine])
    | routingOnly => exact .inl (by simp [ending, closingLine])

/-- What is owed behind a unit lacks bytes, if it is more of a value. -/
theorem Reads.lacksBytes (h : s.Reads text rest e t) (hs : s.LacksBytes) : t.LacksBytes := by
  -- More of a value is owed only behind a unit that did not hold all that was left of it.
  cases h with
  | routing => exact hs
  | closing => exact lacksBytes_of_nothing rfl
  | @piece slot _ _ _ _ _ _ hunit =>
    intro slot' missing' ho
    cases hunit with
    | last => cases slot <;> cases ho
    | part _ hlt =>
      cases ho
      omega
  | content _ _ _ hunit =>
    intro slot missing ho
    cases hunit <;> cases ho
    omega
  | body _ _ _ hunit =>
    intro slot missing ho
    cases hunit <;> cases ho
    omega
  | data _ _ hunit =>
    intro slot missing ho
    cases hunit <;> cases ho
    omega

end State

theorem isBounded_machine : machine.IsBounded where
  emit h := (continues_step _ _).used_le h
  wait h := ((continues_step _ _).wait h).1

/-- A parser of packets makes progress with every unit, but for the end of content that comes by
    itself. -/
theorem advances_machine (mode : Mode) :
    machine.Advances (fun s => s.mode = mode ∧ s.LacksBytes)
      fun e => e = .complete ∧ ∃ length, mode = .contentOnly length := by
  refine .of_isFinal isBounded_machine (fun hs => ?_) (fun {s t input e n} hs h => ?_)
    (fun {s t input n} hs h => ?_) (by rintro e ⟨rfl, -⟩; rfl)
  · exact ⟨hs.1, State.lacksBytes_of_nothing rfl⟩
  · obtain ⟨hmode, hlacks⟩ := hs
    have hdoes := does_step s input
    rw [show step s input = .emit e t n from h] at hdoes
    obtain ⟨front, text, rest, u, hgo, hreads, -, rfl⟩ := hdoes.exists_reads
    have hu := hgo.lacksBytes hlacks
    refine ⟨⟨?_, hreads.lacksBytes hu⟩, ?_⟩
    · rw [hreads.mode_eq, hgo.mode_eq, hmode]
    -- The unit has bytes, unless it is the end of content that comes by itself.
    · rw [← hmode, ← hgo.mode_eq, List.length_append]
      refine (hreads.ne_nil_or_complete hu).imp_left fun hne => ?_
      exact Nat.add_pos_right _ (List.length_pos_iff.2 hne)
  · obtain ⟨hmode, hlacks⟩ := hs
    have hdoes := does_step s input
    rw [show step s input = .wait t n from h] at hdoes
    obtain ⟨front, rest, hgo, -, -⟩ := hdoes.exists_goesTo
    refine ⟨⟨?_, hgo.lacksBytes hlacks⟩, wait_again h ((continues_step s input).wait h).2⟩
    rw [hgo.mode_eq, hmode]

end PacketWire.Packet
