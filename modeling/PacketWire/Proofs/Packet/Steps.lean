import PacketWire.Proofs.Packet.Moves

namespace PacketWire.Packet

open Scan

/-!
# What a step can do

A step of the packet parser does nothing but make moves and read a unit, unless it needs more input
or meets a fault (`does_step`).
-/

variable {s t : State} {input : Bytes}

/-- The outcomes of a step, move by move. -/
inductive State.Does : State → Bytes → Step State Event Cause → Prop where
  /-- A unit is read. -/
  | unit {s t : State} {text rest : Bytes} {e : Event} :
      s.Reads text rest e t → Does s (text ++ rest) (.emit e t text.length)
  /-- More input is needed. -/
  | wait {s : State} {input : Bytes} : Does s input (.wait s 0)
  /-- The input is malformed. -/
  | fault {s : State} {input : Bytes} {f : Fault Cause} : Does s input (.fault f)
  /-- A move is made, and the step goes on. -/
  | move {s t : State} {text rest : Bytes} {r : Step State Event Cause} :
      s.Moves text rest t → Does t rest r → Does s (text ++ rest) (r.shift text.length)

variable {r : Step State Event Cause}

/-- A move that takes nothing. -/
theorem State.Does.skip (hm : s.Moves [] input t) (h : t.Does input r) : s.Does input r := by
  have hmove := State.Does.move hm h
  rwa [List.length_nil, Step.shift_zero, List.nil_append] at hmove

/-- A step for a single unit does what is to be done, if its scan finds units that may be read. -/
theorem does_ofScan {scan : Scan Cause (Event × State)}
    (hunit : ∀ {e t n}, scan input = .done (e, t) n →
      ∃ text rest, s.Reads text rest e t ∧ input = text ++ rest ∧ n = text.length) :
    s.Does input (Step.ofScan scan s input) := by
  cases hs : scan input with
  | more =>
    have hstep : Step.ofScan scan s input = .wait s 0 := Step.andThen_of_more hs
    rw [hstep]
    exact .wait
  | fault f =>
    have hstep : Step.ofScan scan s input = .fault f := Step.andThen_of_fault hs
    rw [hstep]
    exact .fault
  | done found n =>
    obtain ⟨text, rest, hreads, rfl, rfl⟩ := hunit hs
    rw [Step.ofScan_of_done hs]
    exact .unit hreads

/-- So does a step for a unit that may come, if what comes in its place does. -/
theorem does_ofScan? {scan : Scan Cause (Option (Event × State))}
    {next : Bytes → Step State Event Cause}
    (hunit : ∀ {e t n}, scan input = .done (some (e, t)) n →
      ∃ text rest, s.Reads text rest e t ∧ input = text ++ rest ∧ n = text.length)
    (hnone : ∀ {n}, scan input = .done none n → n = 0 ∧ s.Does input (next input)) :
    s.Does input (Step.ofScan? scan s next input) := by
  cases hs : scan input with
  | more =>
    have hstep : Step.ofScan? scan s next input = .wait s 0 := Step.andThen_of_more hs
    rw [hstep]
    exact .wait
  | fault f =>
    have hstep : Step.ofScan? scan s next input = .fault f := Step.andThen_of_fault hs
    rw [hstep]
    exact .fault
  | done found n =>
    cases found with
    | none =>
      obtain ⟨rfl, hdoes⟩ := hnone hs
      rw [Step.ofScan?_of_none hs, List.drop_zero, Step.shift_zero]
      exact hdoes
    | some unit =>
      obtain ⟨text, rest, hreads, rfl, rfl⟩ := hunit hs
      rw [Step.ofScan?_of_some hs]
      exact .unit hreads

/-- A unit is counted and leads to a part. -/
theorem record_eq_some_iff {part : Part} {scan : Scan Cause (Option (Event × Owed))} {n : Nat} :
    record s part scan input = .done (some (e, t)) n ↔
      ∃ owed, scan input = .done (some (e, owed)) n ∧ t = { s.consume n with part, owed } := by
  constructor
  · intro h
    obtain ⟨⟨found, used⟩, j, k, hscan, hpure, rfl⟩ := bind_eq_done_iff.1 h
    obtain ⟨hscan, rfl⟩ := measured_eq_done_iff.1 hscan
    cases found with
    | none => cases hpure
    | some unit =>
      cases hpure
      exact ⟨unit.2, hscan, rfl⟩
  · rintro ⟨owed, hscan, rfl⟩
    exact record_of_some hscan

/-- Where there is no unit nothing is counted. -/
theorem record_eq_none_iff {part : Part} {scan : Scan Cause (Option (Event × Owed))} {n : Nat} :
    record s part scan input = .done none n ↔ scan input = .done none n := by
  constructor
  · intro h
    obtain ⟨⟨found, used⟩, j, k, hscan, hpure, rfl⟩ := bind_eq_done_iff.1 h
    obtain ⟨hscan, rfl⟩ := measured_eq_done_iff.1 hscan
    cases found with
    | none =>
      cases hpure
      exact hscan
    | some unit => cases hpure
  · exact record_of_none

/-- At the closing line nothing is done but reading it. -/
theorem does_readClosing (h : s.owed = .nothing) (hpart : s.part = .closing) :
    s.Does input (readClosing s input) := by
  have hs : { s with part := .closing } = s := by rw [← hpart]
  rw [readClosing, hs]
  refine does_ofScan fun hscan => ?_
  obtain ⟨hexact, rfl, rfl, rfl, rest, rfl⟩ := scanClosing_eq_done_iff.1 hscan
  exact ⟨ending s.mode, rest, .closing h hpart hexact, rfl, rfl⟩

/-- From the method on, nothing is done but moves and a unit. -/
theorem does_readMethod (h : s.owed = .nothing) (hpart : s.part = .method) :
    s.Does input (readMethod s input) := by
  have hs : { s with part := .method } = s := by rw [← hpart]
  rw [readMethod, hs]
  refine does_ofScan? (fun hrecord => ?_) fun hrecord => ?_
  · obtain ⟨owed, hscan, rfl⟩ := record_eq_some_iff.1 hrecord
    obtain ⟨method, data, rest, hkey, hunit, hi, rfl⟩ := scanBody_eq_some_iff.1 hscan
    exact ⟨_, rest, .body h hpart hkey hunit, hi, rfl⟩
  · obtain ⟨rfl, b, rest, hb, rfl⟩ := scanBody_eq_none_iff.1 (record_eq_none_iff.1 hrecord)
    exact ⟨rfl, .skip (.method h hpart hb) (@does_readClosing { s with part := .closing } _ h rfl)⟩

/-- From the content on, nothing is done but moves and a unit. -/
theorem does_readContent (h : s.owed = .nothing) (hpart : s.part = .content) :
    s.Does input (readContent s input) := by
  have hs : { s with part := .content } = s := by rw [← hpart]
  rw [readContent, hs]
  by_cases hfull : s.isFull = true
  · rw [if_pos hfull]
    exact .skip (.full h hpart hfull) (@does_readClosing { s with part := .closing } _ h rfl)
  · rw [if_neg hfull]
    have hfull' : s.isFull = false := by simpa using hfull
    refine does_ofScan? (fun hrecord => ?_) fun hrecord => ?_
    -- an entity modifier leaves the parser at the same part
    · obtain ⟨owed, hscan, rfl⟩ := record_eq_some_iff.1 hrecord
      obtain ⟨text, rest, hunit, hi, rfl⟩ := scanContent_eq_some_iff.1 hscan
      have hreads := State.Reads.content h hpart hfull' hunit
      exact ⟨text, rest, by rw [← hpart]; exact hreads, hi, rfl⟩
    · obtain ⟨rfl, b, rest, hb, rfl⟩ := scanContent_eq_none_iff.1 (record_eq_none_iff.1 hrecord)
      exact ⟨rfl, .skip (.content h hpart hfull' hb)
        (@does_readMethod { s with part := .method } _ h rfl)⟩

/-- From the raw content on, nothing is done but moves and a unit. -/
theorem does_readData (h : s.owed = .nothing) (hpart : s.part = .data) :
    s.Does input (readData s input) := by
  have hs : { s with part := .data } = s := by rw [← hpart]
  rw [readData, hs]
  refine does_ofScan? (fun hrecord => ?_) fun hrecord => ?_
  · obtain ⟨owed, hscan, rfl⟩ := record_eq_some_iff.1 hrecord
    obtain ⟨text, rest, hunit, hi, rfl⟩ := scanData_eq_some_iff.1 hscan
    exact ⟨text, rest, .data h hpart hunit, hi, rfl⟩
  · obtain ⟨rfl, hno⟩ := scanData_eq_none_iff.1 (record_eq_none_iff.1 hrecord)
    exact ⟨rfl, .skip (.data h hpart hno) (@does_readClosing { s with part := .closing } _ h rfl)⟩

/-- Nothing else is done in the content, whatever the mode. -/
theorem does_contentPart (h : s.owed = .nothing) :
    State.Does { s with part := contentPart s.mode } input (readAnyContent s input) := by
  obtain ⟨mode, part, announced, consumed, owed⟩ := s
  cases mode with
  | whole => exact @does_readContent ⟨.whole, .content, announced, consumed, owed⟩ _ h rfl
  | routingOnly => exact @does_readData ⟨.routingOnly, .data, announced, consumed, owed⟩ _ h rfl
  | contentOnly length =>
    exact @does_readContent ⟨.contentOnly length, .content, announced, consumed, owed⟩ _ h rfl

/-- The length line is a move, and then the content does what it does. -/
theorem does_readLength (h : s.owed = .nothing) (hpart : s.part = .length) :
    s.Does input (readLength s input) := by
  have hs : { s with part := .length } = s := by rw [← hpart]
  rw [readLength, hs]
  cases hscan : scanLengthLine input with
  | more =>
    rw [Step.andThen_of_more hscan]
    exact .wait
  | fault f =>
    rw [Step.andThen_of_fault hscan]
    exact .fault
  | done line n =>
    obtain ⟨text, rest, hline, rfl, rfl⟩ := scanLengthLine_eq_done_iff.1 hscan
    rw [Step.andThen_of_done hscan, List.drop_left]
    refine .move (.length h hpart hline) ?_
    cases line with
    | absent => exact @does_readClosing { s with part := .closing } _ h rfl
    | untold => exact @does_contentPart { s with announced := none } _ h
    | told length => exact @does_contentPart { s with announced := some length } _ h

/-- From a routing modifier on, nothing is done but moves and a unit. -/
theorem does_readRouting (h : s.owed = .nothing) (hpart : s.part = .routing) :
    s.Does input (readRouting s input) := by
  unfold readRouting
  refine does_ofScan? (fun hmap => ?_) fun hmap => ?_
  · obtain ⟨found, j, k, hscan, hpure, rfl⟩ := bind_eq_done_iff.1 hmap
    cases found with
    | none => cases hpure
    | some e =>
      cases hpure
      obtain ⟨m, text, rest, hm, rfl, hi, rfl⟩ := scanRouting_eq_some_iff.1 hscan
      exact ⟨text, rest, .routing h hpart hm, hi, rfl⟩
  · obtain ⟨found, j, k, hscan, hpure, rfl⟩ := bind_eq_done_iff.1 hmap
    cases found with
    | none =>
      cases hpure
      obtain ⟨rfl, b, rest, hb, rfl⟩ := scanRouting_eq_none_iff.1 hscan
      exact ⟨rfl, .skip (.routing h hpart hb) (@does_readLength { s with part := .length } _ h rfl)⟩
    | some e => cases hpure

/-- Whichever part comes next, nothing is done but moves and a unit. -/
theorem does_readPart (h : s.owed = .nothing) : s.Does input (readPart s input) := by
  cases hpart : s.part with
  | routing => simp only [readPart, hpart]; exact does_readRouting h hpart
  | length => simp only [readPart, hpart]; exact does_readLength h hpart
  | content => simp only [readPart, hpart]; exact does_readContent h hpart
  | method => simp only [readPart, hpart]; exact does_readMethod h hpart
  | data => simp only [readPart, hpart]; exact does_readData h hpart
  | closing => simp only [readPart, hpart]; exact does_readClosing h hpart

/-- A step does nothing but make moves and read a unit. -/
theorem does_step (s : State) (input : Bytes) : s.Does input (step s input) := by
  -- What is owed comes first. A line feed is no unit: behind it the part is read in the same step.
  cases h : s.owed with
  | nothing =>
    rw [step_of_nothing h]
    exact does_readPart h
  | value slot missing =>
    simp only [step, h]
    refine does_ofScan fun hscan => ?_
    obtain ⟨text, rest, owed, hunit, rfl, hi, rfl⟩ := scanPiece_eq_done_iff.1 hscan
    exact ⟨text, rest, .piece h hunit, hi, rfl⟩
  | lineFeed line =>
    simp only [step, h]
    cases hscan : byte Byte.lineFeed line.cause input with
    | more =>
      rw [Step.andThen_of_more hscan]
      exact .wait
    | fault f =>
      rw [Step.andThen_of_fault hscan]
      exact .fault
    | done u n =>
      obtain ⟨rfl, rest, rfl⟩ := byte_eq_done_iff.1 hscan
      rw [Step.andThen_of_done hscan]
      exact State.Does.move (.lineFeed h) (does_readPart rfl)

/-! ### Moves and what is behind them -/

/-- A step that reads a unit goes over moves to it. -/
theorem State.Does.exists_reads {e : Event} {u : State} {n : Nat}
    (h : s.Does input (.emit e u n)) :
    ∃ front text rest t, s.GoesTo front (text ++ rest) t ∧ t.Reads text rest e u ∧
      input = front ++ text ++ rest ∧ n = (front ++ text).length := by
  generalize hr : Step.emit e u n = r at h
  induction h generalizing n with
  | wait => cases hr
  | fault => cases hr
  | unit hreads =>
    cases hr
    exact ⟨[], _, _, _, .here, hreads, rfl, rfl⟩
  | @move s t line _ r hm _ ih =>
    obtain ⟨k, hk, rfl⟩ := Step.shift_eq_emit_iff.1 hr.symm
    obtain ⟨front, text, rest, t', hgo, hreads, rfl, rfl⟩ := ih hk.symm
    rw [List.append_assoc] at hm
    exact ⟨line ++ front, text, rest, t', .move hm hgo, hreads, by simp, by simp⟩

/-- A step that waits goes over moves to the state that it waits in. -/
theorem State.Does.exists_goesTo {n : Nat} (h : s.Does input (.wait t n)) :
    ∃ front rest, s.GoesTo front rest t ∧ input = front ++ rest ∧ n = front.length := by
  generalize hr : Step.wait t n = r at h
  induction h generalizing n with
  | unit => cases hr
  | fault => cases hr
  | wait =>
    cases hr
    exact ⟨[], _, .here, rfl, rfl⟩
  | @move s u line _ r hm _ ih =>
    obtain ⟨k, hk, rfl⟩ := Step.shift_eq_wait_iff.1 hr.symm
    obtain ⟨front, rest, hgo, rfl, rfl⟩ := ih hk.symm
    exact ⟨line ++ front, rest, .move hm hgo, by simp, by simp⟩

end PacketWire.Packet
