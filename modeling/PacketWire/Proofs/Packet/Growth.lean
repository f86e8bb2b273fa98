import PacketWire.Proofs.Packet.Lines
import PacketWire.Proofs.Resumable.Growth

namespace PacketWire.Packet

open Scan

/-!
# Packets in longer buffers

A unit of a packet that ends in front of the end of the buffer is read again in the same way when
the buffer has grown, and so is a fault. A value with a length that is cut by the end of the buffer
is reported with more of it, or whole, and then in the same state as after its parts
(`Event.join`, `Owed.growth`). So the step of the packet parser continues (`continues_step`).
-/

/-- The unit that reports in one what a unit and the part of its value behind it report. -/
def Event.join (bytes : Bytes) (isLast : Bool) : Event → Event
  | .entityOpening m length =>
    if isLast then .entity { m with value := m.value ++ bytes }
    else .entityOpening { m with value := m.value ++ bytes } length
  | .bodyOpening method data length =>
    if isLast then .body method (data ++ bytes) else .bodyOpening method (data ++ bytes) length
  | .contentOpening front length =>
    if isLast then .content (front ++ bytes) else .contentOpening (front ++ bytes) length
  | .piece slot front _ => .piece slot (front ++ bytes) isLast
  | e => e

/-- How a unit goes on if some bytes of its value are missing. -/
def Owed.growth : Growth (Event × Owed)
  | (e, .value slot missing) => some fun more =>
    if missing ≤ more.length then ((e.join (more.take missing) true, slot.behind), missing)
    else ((e.join more false, .value slot (missing - more.length)), more.length)
  | _ => none

/-- How a unit goes on with the state behind it. -/
def State.growth : Growth (Event × State) := fun (e, s) =>
  (Owed.growth (e, s.owed)).map fun go more =>
    (((go more).1.1, { s.consume (go more).2 with owed := (go more).1.2 }), (go more).2)

variable {s : State} {input : Bytes}

/-! ### Lines -/

/-- The name of a modifier ends in front of another byte, so it is settled once it is found. -/
theorem settles_scanName : Settles scanName input :=
  .expect (settles_skip_bind rfl settles_keyword)

/-- A value without a length ends at a line feed, which does not change when more comes. -/
theorem settles_scanLineValue : Settles scanLineValue input := by
  refine .bind settles_peek fun {b n} hs => ?_
  split
  · obtain ⟨rfl, rest, rfl⟩ := peek_eq_done_iff.1 hs
    exact settles_skip_bind rfl settles_line
  · split
    · exact .bind (settles_skip_of_peek hs) fun _ => settles_pure _
    · exact grows_fault _

/-- A length is settled by the tab behind it. -/
theorem settles_scanValueLength : Settles scanValueLength input := by
  refine settles_skip_bind rfl (.bind (.expect settles_number) fun _ => ?_)
  exact .bind (settles_byte _ _) fun _ => settles_pure _

/-- The name of an entity modifier is settled, and so is its length if it has one. -/
theorem settles_scanEntityHead : Settles scanEntityHead input := by
  refine .bind settles_scanName fun _ => .bind settles_peek fun _ => ?_
  split
  · exact .bind settles_scanValueLength fun _ => settles_pure _
  · exact settles_pure _

/-- The first line that is just `|` stays the first. -/
theorem settles_scanLines : Settles scanLines input := by
  cases hs : scanLines input with
  | more => exact grows_of_more hs
  | fault f =>
    unfold scanLines at hs
    repeat' split at hs
    all_goals cases hs
  | done lines n =>
    -- the closing line is there already, so what comes behind it does not matter
    obtain ⟨rfl, hu, rest, rfl⟩ := unclosed_of_scanLines hs
    refine settles_of_done hs (by simp) fun more => ?_
    rw [List.append_assoc]
    exact scanLines_of_unclosed hu

/-- The length line is settled by its line feed, or by the `|` in its place. -/
theorem settles_scanLengthLine : Settles scanLengthLine input := by
  refine .bind (.expect settles_number) fun {length _} _ => ?_
  cases length with
  | some length => exact .bind (settles_byte _ _) fun _ => settles_pure _
  | none =>
    refine .bind settles_peek fun _ => ?_
    split
    · exact settles_pure _
    · exact .bind (settles_byte _ _) fun _ => settles_pure _

/-! ### Units -/

/-- A routing modifier is on one line, so more input cannot change it. -/
theorem settles_scanRouting : Settles scanRouting input := by
  refine .bind settles_peek fun {b _} _ => ?_
  cases Operator.ofGlyph? b with
  | none => exact settles_pure _
  | some oper =>
    exact .bind settles_scanName fun _ => .bind settles_scanLineValue fun _ => settles_pure _

/-- Whether a glyph is alone on its line is told by the byte behind it. -/
theorem settles_scanIsAlone : Settles (scanIsAlone s) input := by
  unfold scanIsAlone
  split
  · exact .bind settles_peekSecond fun _ => settles_pure _
  · exact settles_pure _

/-- A byte that stands alone has another one behind it. -/
theorem two_le_of_scanIsAlone {n : Nat} (h : scanIsAlone s input = .done true n) :
    2 ≤ (input.drop n).length := by
  unfold scanIsAlone at h
  split at h
  · obtain ⟨b, j, k, hb, hk, rfl⟩ := bind_eq_done_iff.1 h
    obtain rfl : 0 = k := by injection hk
    match input with
    | [] => cases hb
    | [_] => cases hb
    | _ :: _ :: _ => cases hb; simp
  · cases h

/-- Whether there is room for a value does not depend on the input. -/
theorem settles_scanRoom (head length : Nat) : Settles (scanRoom s head length) input := by
  unfold scanRoom
  cases s.announced with
  | none => exact settles_pure _
  | some announced =>
    simp only
    split
    · exact grows_fault _
    · exact settles_pure _

/-- The two bytes of a state action have been looked at already. -/
theorem settles_scanStateAction {glyph : UInt8} (h : 2 ≤ input.length) :
    Settles (scanStateAction glyph) input := by
  unfold scanStateAction
  split
  · exact .bind (settles_skip h) fun _ => settles_pure _
  · exact .bind (settles_skip h) fun _ => settles_pure _
  · exact grows_fault _

/-- A value that may be cut by the end of the input, and what is reported of it. -/
theorem grows_portion {β : Type} {g : Growth β} {scan : Scan Cause Portion} {n : Nat}
    {next : Portion → Scan Cause β} (whole part : Bytes → β)
    (hwhole : ∀ value, next (.whole value) = pure (whole value))
    (hpart : ∀ value, next (.part value) = pure (part value))
    (h : Grows (Portion.growth n) scan input) (hw : ∀ value, g (whole value) = none)
    (hp : ∀ value, g (part value) = some fun more =>
      if n - value.length ≤ more.length then
        (whole (value ++ more.take (n - value.length)), n - value.length)
      else (part (value ++ more), more.length)) :
    Grows g (scan >>= next) input := by
  -- what goes on with the portion only wraps it
  have hnext : next = fun portion => pure (portion.casesOn whole part) := by
    funext portion
    cases portion with
    | whole value => exact hwhole value
    | part value => exact hpart value
  rw [hnext]
  refine h.map fun portion => ?_
  cases portion with
  | whole value => exact hw value
  | part value =>
    refine (hp value).trans (congrArg some (funext fun more => ?_))
    by_cases hm : n - value.length ≤ more.length
    · simp only [if_pos hm]
    · simp only [if_neg hm]

/-- A unit with a value that may be cut, where the unit goes on with its value. -/
theorem grows_value {β : Type} {g : Growth β} {scan : Scan Cause Portion} {n : Nat}
    (wrap : Event × Owed → β)
    (hg : ∀ u, g (wrap u) = (Owed.growth u).map fun go more => (wrap (go more).1, (go more).2))
    (slot : Slot) (whole opening : Bytes → Event) (h : Grows (Portion.growth n) scan input)
    (hb : ∀ slot' missing, slot.behind ≠ .value slot' missing)
    (hw : ∀ value more, (opening value).join more true = whole (value ++ more))
    (ho : ∀ value more, (opening value).join more false = opening (value ++ more)) :
    Grows g (do
      match ← scan with
      | .whole value => return wrap (whole value, slot.behind)
      | .part value => return wrap (opening value, .value slot (n - value.length))) input := by
  refine grows_portion (fun value => wrap (whole value, slot.behind))
    (fun value => wrap (opening value, .value slot (n - value.length))) (fun _ => rfl)
    (fun _ => rfl) h (fun value => ?_) fun value => ?_
  -- With the whole value nothing of it is owed, so the unit does not grow.
  · rw [hg, Option.map_eq_none_iff, Owed.growth]
    exact fun _ _ _ h => hb _ _ (Prod.ext_iff.1 h).2
  -- With a part of it the unit takes up more, and becomes the whole one with the last byte.
  · rw [hg]
    refine congrArg some (funext fun more => ?_)
    by_cases hm : n - value.length ≤ more.length
    · simp only [if_pos hm, hw]
    · simp only [if_neg hm, ho, List.length_append, Nat.sub_sub]

/-- Of an entity modifier more of the value may come, in the state as after that part. -/
theorem grows_scanEntity (oper : Operator) : Grows Owed.growth (scanEntity s oper) input := by
  refine .bind settles_scanEntityHead.measured fun {found _} _ => ?_
  obtain ⟨⟨name, length⟩, used⟩ := found
  cases length with
  | none => exact settles_scanLineValue.map fun _ => rfl
  | some length =>
    refine .bind (settles_scanRoom used length) fun _ => ?_
    exact grows_value id (fun u => by simp) .entity (fun value => .entity ⟨oper, name, value⟩)
      (fun value => .entityOpening ⟨oper, name, value⟩ length) (grows_take length)
      (fun _ _ => nofun) (fun _ _ => rfl) fun _ _ => rfl

/-- A state action is settled, and an entity modifier grows by its value. -/
theorem grows_scanContent : Grows Owed.growth.option (scanContent s) input := by
  refine .bind settles_peek fun {glyph n} hpeek => ?_
  obtain ⟨rfl, -⟩ := peek_eq_done_iff.1 hpeek
  cases Operator.ofGlyph? glyph with
  | none => exact grows_pure rfl
  | some oper =>
    refine .bind settles_scanIsAlone fun {alone n} halone => ?_
    cases alone with
    | false => exact (grows_scanEntity oper).map fun _ => rfl
    | true =>
      refine (settles_scanStateAction ?_).map fun _ => rfl
      exact two_le_of_scanIsAlone halone

/-- Data of a known length grows like a value, and other data ends at the closing line. -/
theorem grows_scanBodyData (method : Bytes) (consumed : Nat) :
    Grows Owed.growth (scanBodyData s method consumed) input := by
  unfold scanBodyData
  cases s.announced with
  | none => exact settles_scanLines.map fun _ => rfl
  | some announced =>
    simp only
    split
    · exact grows_fault _
    · split
      · exact grows_pure rfl
      · exact grows_value id (fun u => by simp) .body (fun value => .body method value)
          (fun value => .bodyOpening method value (announced - consumed - 1)) (grows_take _)
          (fun _ _ => nofun) (fun _ _ => rfl) fun _ _ => rfl

/-- The method is settled, and so a body grows by its data. -/
theorem grows_scanBody : Grows Owed.growth.option (scanBody s) input := by
  refine .bind settles_keyword.measured fun {found _} _ => ?_
  obtain ⟨method, used⟩ := found
  dsimp only
  split
  · exact grows_pure rfl
  · exact .bind (settles_byte _ _) fun _ => (grows_scanBodyData _ _).map fun _ => rfl

/-- Raw content grows like a value where its length is known. -/
theorem grows_scanData : Grows Owed.growth.option (scanData s) input := by
  unfold scanData
  cases s.announced with
  | none =>
    refine .bind settles_scanLines fun {lines _} _ => ?_
    split
    · exact grows_pure rfl
    · exact grows_pure rfl
  | some announced =>
    simp only
    split
    · exact grows_pure rfl
    · exact grows_value some (fun u => rfl) .content (fun value => .content value)
        (fun value => .contentOpening value (announced - s.consumed)) (grows_takeOn _)
        (fun _ _ => nofun) (fun _ _ => rfl) fun _ _ => rfl

/-! ### Units with the state behind them -/

/-- Bytes of the content are counted alike however much of a unit has come. -/
theorem grows_record {part : Part} {scan : Scan Cause (Option (Event × Owed))}
    (h : Grows Owed.growth.option scan input) :
    Grows State.growth.option (record s part scan) input := by
  refine h.measured.map fun found => ?_
  obtain ⟨found, used⟩ := found
  cases found with
  | none => rfl
  | some unit =>
    -- both count the bytes of the front and of what is added
    obtain ⟨e, owed⟩ := unit
    simp only [Option.map_some, Growth.option, State.growth, Growth.measured, Option.map_map]
    refine congrArg (Option.map · _) (funext fun go => funext fun more => ?_)
    simp [State.consume, Nat.add_assoc]

/-- A further part of a value grows to a longer one, or to the last. -/
theorem grows_scanPiece (slot : Slot) (missing : Nat) :
    Grows State.growth (scanPiece s slot missing) input := by
  refine grows_portion
    (fun bytes => (.piece slot bytes true, { s.consume bytes.length with owed := slot.behind }))
    (fun bytes => (.piece slot bytes false,
      { s.consume bytes.length with owed := .value slot (missing - bytes.length) }))
    (fun _ => rfl) (fun _ => rfl) (grows_takeOn missing) (fun bytes => ?_) fun bytes => ?_
  · cases slot <;> rfl
  · refine congrArg some (funext fun more => ?_)
    by_cases hm : missing - bytes.length ≤ more.length
    · simp [hm, State.consume, Event.join, Nat.add_assoc]
    · simp [hm, State.consume, Event.join, Nat.add_assoc, Nat.sub_sub]

/-- Whether the content has its length is known without the input. -/
theorem settles_scanLengthCheck : Settles (scanLengthCheck s) input := by
  unfold scanLengthCheck
  cases s.announced with
  | none => exact settles_pure _
  | some announced =>
    simp only
    split
    · exact settles_pure _
    · exact grows_fault _

/-- The closing line has come in full, so what follows it does not matter. -/
theorem grows_scanClosing : Grows State.growth (scanClosing s) input := by
  refine .bind settles_scanLengthCheck fun _ => ?_
  split
  · exact grows_pure rfl
  · exact .bind (.bind (settles_byte _ _) fun _ => settles_byte _ _) fun _ => grows_pure rfl

/-! ### Parts

The part that a parser waits at is read in the same way as the part it came from, so a wait loses
nothing. -/

/-- Where nothing is owed, a step reads from the part that comes next on. -/
theorem step_of_nothing (h : s.owed = .nothing) : step s = readPart s := by rw [step, h]

/-- The step at a part of a packet of which nothing is owed. -/
theorem step_at (h : s.owed = .nothing) (part : Part) :
    machine.step { s with part } = readPart { s with part } := step_of_nothing h

/-- The end of a packet is read alike in a longer buffer. -/
theorem continues_readClosing (h : s.owed = .nothing) :
    Step.Continues machine State.growth (readClosing s) input :=
  .ofScan grows_scanClosing (step_at h .closing)

/-- From the method on, a packet is read alike in a longer buffer. -/
theorem continues_readMethod (h : s.owed = .nothing) :
    Step.Continues machine State.growth (readMethod s) input :=
  .ofScan? (grows_record grows_scanBody) (step_at h .method) fun _ => continues_readClosing h

/-- From the content on, a packet is read alike in a longer buffer. -/
theorem continues_readContent (h : s.owed = .nothing) :
    Step.Continues machine State.growth (readContent s) input := by
  unfold readContent
  split
  · exact continues_readClosing h
  · next hfull =>
    have hwait : machine.step { s with part := .content } =
        Step.ofScan? (record s .content (scanContent s)) { s with part := .content }
          (readMethod s) := (step_at h .content).trans (if_neg hfull)
    exact .ofScan? (grows_record grows_scanContent) hwait fun _ => continues_readMethod h

/-- From the raw content on, a packet is read alike in a longer buffer. -/
theorem continues_readData (h : s.owed = .nothing) :
    Step.Continues machine State.growth (readData s) input :=
  .ofScan? (grows_record grows_scanData) (step_at h .data) fun _ => continues_readClosing h

/-- The mode chooses how content is read, and either way continues. -/
theorem continues_readAnyContent (h : s.owed = .nothing) :
    Step.Continues machine State.growth (readAnyContent s) input := by
  unfold readAnyContent
  split
  · exact continues_readData h
  · exact continues_readContent h

/-- From the length line on, a packet is read alike in a longer buffer. -/
theorem continues_readLength (h : s.owed = .nothing) :
    Step.Continues machine State.growth (readLength s) input := by
  refine .andThen settles_scanLengthLine (step_at h .length) fun {line _} _ => ?_
  cases line with
  | absent => exact continues_readClosing h
  | untold => exact continues_readAnyContent h
  | told length => exact continues_readAnyContent h

/-- From a routing modifier on, a packet is read alike in a longer buffer. -/
theorem continues_readRouting (h : s.owed = .nothing) (hpart : s.part = .routing) :
    Step.Continues machine State.growth (readRouting s) input := by
  have hwait : machine.step s = readRouting s := by
    show step s = readRouting s
    rw [step_of_nothing h, readPart, hpart]
  refine .ofScan? (settles_scanRouting.map fun found => ?_) hwait fun _ => continues_readLength h
  cases found with
  | none => rfl
  | some e => simp [Growth.option, State.growth, Growth.closed, Owed.growth, h]

/-- Whichever part comes next, it is read alike in a longer buffer. -/
theorem continues_readPart (h : s.owed = .nothing) :
    Step.Continues machine State.growth (readPart s) input := by
  unfold readPart
  split
  · next hpart => exact continues_readRouting h hpart
  · exact continues_readLength h
  · exact continues_readContent h
  · exact continues_readMethod h
  · exact continues_readData h
  · exact continues_readClosing h

/-- Reading goes on in a grown buffer as it would have gone on in this buffer from the start. -/
theorem continues_step (s : State) (input : Bytes) :
    Step.Continues machine State.growth (step s) input := by
  unfold step
  split
  · next h => exact continues_readPart h
  · next slot missing h =>
    have hwait : machine.step s = Step.ofScan (scanPiece s slot missing) s := by
      show step s = _
      rw [step, h]
    exact .ofScan (grows_scanPiece slot missing) hwait
  · next line h =>
    refine .andThen (settles_byte _ _) ?_ fun _ => continues_readPart rfl
    show step s = _
    rw [step, h]

end PacketWire.Packet
