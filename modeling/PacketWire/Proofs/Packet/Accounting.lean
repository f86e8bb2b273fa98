import PacketWire.Proofs.Packet.Progress
import PacketWire.Proofs.Resumable.Calls

namespace PacketWire.Packet

/-!
# Content, byte for byte

A parser is called with growing buffers, which are compacted in between, and starts over now and
then. What it has read of the packet it is in is told by its history (`History`): the bytes that the
calls have taken, and the units that they have given. At any time the counter of the parser is the
number of the bytes of the content among them, the parts of a value that have been given are as long
as they should be, and the line feed behind a value is among the bytes once
(`History.isAccounted`).
-/

/-! ### Values in parts -/

/-- A unit brings the first bytes of a value in the content: which value it is, its length, the
    bytes, and whether they are all of it. -/
inductive Event.Begins : Event → Slot → Nat → Bytes → Bool → Prop where
  /-- All of the value of an entity modifier. -/
  | entity {m : Modifier} : Begins (.entity m) .entity m.value.length m.value true
  /-- The first part of it. -/
  | entityOpening {m : Modifier} {length : Nat} :
      Begins (.entityOpening m length) .entity length m.value false
  /-- All of the data. -/
  | body {method data : Bytes} : Begins (.body method data) .body data.length data true
  /-- The first part of them. -/
  | bodyOpening {method data : Bytes} {length : Nat} :
      Begins (.bodyOpening method data length) .body length data false
  /-- All of the raw content. -/
  | content {bytes : Bytes} : Begins (.content bytes) .content bytes.length bytes true
  /-- The first part of it. -/
  | contentOpening {bytes : Bytes} {length : Nat} :
      Begins (.contentOpening bytes length) .content length bytes false

/-- The last units of some bring a value of this length, or the first bytes of it. -/
inductive Brings : List Event → Slot → Nat → Bytes → Bool → Prop where
  /-- The unit in which the value begins. -/
  | begins {es : List Event} {e : Event} {slot : Slot} {length : Nat} {value : Bytes}
      {isLast : Bool} :
      e.Begins slot length value isLast → Brings (es ++ [e]) slot length value isLast
  /-- A further part. -/
  | piece {es : List Event} {slot : Slot} {length : Nat} {value bytes : Bytes} {isLast : Bool} :
      Brings es slot length value false →
        Brings (es ++ [.piece slot bytes isLast]) slot length (value ++ bytes) isLast

/-- These bytes of a value are the last ones that have been taken, but for the line feed behind
    them, and what is owed is what is missing. -/
inductive Owed.Follows (owed : Owed) (taken : Bytes) (slot : Slot) : Nat → Bytes → Bool → Prop where
  /-- Some bytes are missing. -/
  | cut {value : Bytes} {missing : Nat} :
      owed = .value slot missing → 0 < missing → value <:+ taken →
        Follows owed taken slot (value.length + missing) value false
  /-- None is missing, and the line feed is owed unless the value is raw content. -/
  | whole {value : Bytes} :
      owed = slot.behind → value <:+ taken → Follows owed taken slot value.length value true
  /-- The line feed has been taken, too. -/
  | ended {value : Bytes} :
      owed = .nothing → slot ≠ .content → value ++ [Byte.lineFeed] <:+ taken →
        Follows owed taken slot value.length value true

/-- What a unit does to the value that is read, by its text and what is owed before and after. -/
inductive Event.Delivers (before after : Owed) (text : Bytes) : Event → Prop where
  /-- There is no value. -/
  | nothing {e : Event} :
      (∀ slot length value isLast, ¬ e.Begins slot length value isLast) →
        (∀ slot bytes isLast, e ≠ .piece slot bytes isLast) →
        (∀ slot missing, after ≠ .value slot missing) → Delivers before after text e
  /-- A value begins. -/
  | begins {e : Event} {slot : Slot} {length : Nat} {value : Bytes} {isLast : Bool} :
      e.Begins slot length value isLast → after.Follows text slot length value isLast →
        Delivers before after text e
  /-- A value goes on. -/
  | piece {slot : Slot} {missing : Nat} {isLast : Bool} :
      before = .value slot missing →
        (∀ value, after.Follows (value ++ text) slot (value.length + missing) (value ++ text)
          isLast) →
        Delivers before after text (.piece slot text isLast)

variable {mode : Mode} {ms : List Modifier} {slot slot' : Slot} {length length' : Nat}
  {value value' text rest taken taken' content buffer : Bytes} {announced : Option Nat}
  {isLast isLast' : Bool} {owed : Owed} {s t : State} {e : Event} {es : List Event}
  {p q : Parser machine}

/-- A unit tells what value it begins, and whether that is all of it. -/
theorem Event.Begins.unique (h : e.Begins slot length value isLast)
    (h' : e.Begins slot' length' value' isLast') :
    slot = slot' ∧ length = length' ∧ value = value' ∧ isLast = isLast' := by
  cases h <;> cases h' <;> exact ⟨rfl, rfl, rfl, rfl⟩

/-- The last unit begins a value, or goes on with the one that the units before have brought. -/
theorem brings_concat_iff :
    Brings (es ++ [e]) slot length value isLast ↔ e.Begins slot length value isLast ∨
      ∃ front bytes, e = .piece slot bytes isLast ∧ value = front ++ bytes ∧
        Brings es slot length front false := by
  constructor
  · intro h
    generalize hes : es ++ [e] = whole at h
    cases h with
    | begins hbegins =>
      obtain ⟨-, he⟩ := List.append_inj' hes rfl
      obtain rfl := List.singleton_inj.1 he
      exact .inl hbegins
    | piece hbrings =>
      obtain ⟨rfl, he⟩ := List.append_inj' hes rfl
      obtain rfl := List.singleton_inj.1 he
      exact .inr ⟨_, _, rfl, rfl, hbrings⟩
  · rintro (hbegins | ⟨front, bytes, rfl, rfl, hbrings⟩)
    · exact .begins hbegins
    · exact .piece hbrings

/-- Routing modifiers bring no value of the content. -/
theorem not_brings_routing : ¬ Brings (ms.map .routing) slot length value isLast := by
  rcases List.eq_nil_or_concat ms with rfl | ⟨ms', m, rfl⟩
  · intro h
    generalize hes : List.map Event.routing [] = whole at h
    cases h <;> simp at hes
  · rw [List.concat_eq_append, List.map_append]
    intro h
    obtain hbegins | ⟨_, _, hpiece, -⟩ := brings_concat_iff.1 h
    · cases hbegins
    · cases hpiece

/-- What is owed does not depend on bytes that were taken long before. -/
theorem Owed.Follows.mono (h : owed.Follows taken slot length value isLast)
    (hsuffix : taken <:+ taken') : owed.Follows taken' slot length value isLast := by
  cases h with
  | cut ho hpos hvalue => exact .cut ho hpos (hvalue.trans hsuffix)
  | whole ho hvalue => exact .whole ho (hvalue.trans hsuffix)
  | ended ho hslot hvalue => exact .ended ho hslot (hvalue.trans hsuffix)

/-- A value of which bytes are owed is not complete. -/
theorem Owed.Follows.of_value {missing : Nat}
    (h : (Owed.value slot' missing).Follows taken slot length value isLast) :
    slot = slot' ∧ isLast = false := by
  cases h with
  | cut ho => cases ho; exact ⟨rfl, rfl⟩
  | whole ho => cases slot <;> cases ho
  | ended ho => cases ho

/-! ### Units -/

/-- A further part of a value leaves as much less of it owed. -/
theorem PieceUnit.delivers {missing : Nat} (h : PieceUnit slot missing text rest e owed) :
    e.Delivers (.value slot missing) owed text := by
  cases h with
  | last hlen =>
    refine .piece rfl fun value => ?_
    rw [← hlen, ← List.length_append]
    exact .whole rfl (List.suffix_refl _)
  | part _ hlt =>
    refine .piece rfl fun value => ?_
    have hsum : value.length + missing = (value ++ text).length + (missing - text.length) := by
      rw [List.length_append]
      omega
    rw [hsum]
    exact .cut rfl (by omega) (List.suffix_refl _)

/-- The first part of a value leaves the other bytes of it owed. -/
theorem follows_opening (hlt : value.length < length) (hsuffix : value <:+ text) :
    Owed.Follows (.value slot (length - value.length)) text slot length value false := by
  have hfollows := @Owed.Follows.cut (.value slot (length - value.length)) text slot value
    (length - value.length) rfl (by omega) hsuffix
  rwa [Nat.add_sub_cancel' (Nat.le_of_lt hlt)] at hfollows

/-- A unit of the content leaves owed what is missing of its value. -/
theorem ContentUnit.delivers (h : ContentUnit s text rest e owed) (before : Owed) :
    e.Delivers before owed text := by
  cases h with
  | reset => exact .nothing nofun nofun nofun
  | resync => exact .nothing nofun nofun nofun
  | @plain m _ _ hm =>
    refine .begins .entity (.ended rfl nofun ?_)
    cases hm with
    | @bare oper name => exact List.suffix_append (oper.glyph :: name) [Byte.lineFeed]
    | @valued oper name value =>
      exact ⟨oper.glyph :: (name ++ [Byte.tab]), by simp⟩
  | counted => exact .begins .entity (.whole rfl (List.suffix_append ..))
  | opening _ _ _ hlt =>
    exact .begins .entityOpening (follows_opening hlt (List.suffix_append ..))

/-- A body leaves owed what is missing of its data. -/
theorem BodyUnit.delivers {method data : Bytes} (h : BodyUnit s method data rest e owed)
    (before : Owed) : e.Delivers before owed (method ++ Byte.lineFeed :: data) := by
  -- the data are what is behind the line of the method
  have hsuffix : data <:+ method ++ Byte.lineFeed :: data := ⟨method ++ [Byte.lineFeed], by simp⟩
  cases h with
  | lines _ hlines =>
    refine .begins .body (.ended rfl nofun ?_)
    by_cases hne : data = []
    · subst hne
      exact List.suffix_append method [Byte.lineFeed]
    · obtain ⟨front, rfl⟩ := hlines.eq_append hne
      rwa [List.dropLast_concat]
  | bare => exact .begins .body (.ended rfl nofun (List.suffix_append method [Byte.lineFeed]))
  | counted => exact .begins .body (.whole rfl hsuffix)
  | opening _ hlt => exact .begins .bodyOpening (follows_opening hlt hsuffix)

/-- Raw content leaves owed what is missing of it. -/
theorem DataUnit.delivers (h : DataUnit s text rest e owed) (before : Owed) :
    e.Delivers before owed text := by
  cases h with
  | lines => exact .begins .content (.whole rfl (List.suffix_refl _))
  | counted => exact .begins .content (.whole rfl (List.suffix_refl _))
  | opening _ _ hlt => exact .begins .contentOpening (follows_opening hlt (List.suffix_refl _))

/-- Whatever is read delivers what was owed, and leaves owed what it lacks. -/
theorem State.Reads.delivers (h : s.Reads text rest e t) : e.Delivers s.owed t.owed text := by
  cases h with
  | piece ho hunit =>
    rw [ho]
    exact hunit.delivers
  | routing ho => exact .nothing nofun nofun fun slot missing => by rw [ho]; nofun
  | content _ _ _ hunit => exact hunit.delivers s.owed
  | body _ _ _ hunit => exact hunit.delivers s.owed
  | data _ _ hunit => exact hunit.delivers s.owed
  | closing => exact .nothing nofun nofun nofun

/-! ### The invariant -/

/-- What holds of the state of a parser, the bytes that it has taken and the units that it has given
    of a packet. -/
structure State.Accounts (s : State) (taken : Bytes) (es : List Event) : Prop where
  /-- The bytes of the content are counted. -/
  counts : s.Counts taken es
  /-- A value that the last units bring is the last that was taken. -/
  follows : ∀ {slot length value isLast}, Brings es slot length value isLast →
    s.owed.Follows taken slot length value isLast
  /-- A value of which bytes are owed has begun. -/
  begun : ∀ {slot missing}, s.owed = .value slot missing →
    ∃ length value, Brings es slot length value false
  /-- A further part is one of a value that has begun. -/
  piece : ∀ {front slot bytes isLast}, es = front ++ [.piece slot bytes isLast] →
    ∃ length value, Brings es slot length value isLast

namespace State

/-- Before anything is read there is nothing to account for. -/
theorem accounts_initial : (State.initial mode).Accounts [] [] where
  counts := counts_initial
  follows h := absurd h (@not_brings_routing [] _ _ _ _)
  begun h := by cases h
  piece h := by simp at h

/-- Going on to another part is accounted for by the bytes it takes. -/
theorem Accounts.moves (h : s.Accounts taken es) (hm : s.Moves text rest t) :
    t.Accounts (taken ++ text) es where
  counts := h.counts.moves hm
  follows {slot length value isLast} hbrings := by
    have hfollows := h.follows hbrings
    have hsame : s.owed = t.owed → t.owed.Follows (taken ++ []) slot length value isLast := by
      intro howed
      rwa [List.append_nil, ← howed]
    cases hm with
    | lineFeed ho =>
      cases hfollows with
      | cut ho' => rw [ho] at ho'; cases ho'
      | ended ho' => rw [ho] at ho'; cases ho'
      | whole ho' hvalue =>
        refine .ended rfl ?_ ?_
        · rintro rfl
          rw [ho] at ho'
          cases ho'
        · obtain ⟨front, rfl⟩ := hvalue
          exact ⟨front, by simp⟩
    | length _ hp =>
      -- no value comes in front of the length line
      generalize htaken : taken = taken' at h
      cases h.counts with
      | before => exact absurd hbrings not_brings_routing
      | within _ hline => exact absurd hp hline
    | routing => exact hsame rfl
    | full => exact hsame rfl
    | content => exact hsame rfl
    | method => exact hsame rfl
    | data => exact hsame rfl
  begun ho := by
    rw [hm.owed_eq.1] at ho
    cases ho
  piece := h.piece

/-- Going on through parts is accounted for one by one. -/
theorem Accounts.goesTo (h : s.Accounts taken es) (hgo : s.GoesTo text rest t) :
    t.Accounts (taken ++ text) es := by
  induction hgo generalizing taken with
  | here => rwa [List.append_nil]
  | move hm _ ih =>
    rw [← List.append_assoc]
    exact ih (h.moves hm)

/-- A unit is accounted for by its bytes and by what it brings. -/
theorem Accounts.reads (h : s.Accounts taken es) (hr : s.Reads text rest e t) (he : e ≠ .complete) :
    t.Accounts (taken ++ text) (es ++ [e]) where
  counts := h.counts.reads hr he
  follows hbrings := by
    -- A unit brings the value that starts with it, or more of the one that is open, or none.
    cases hr.delivers with
    | nothing hbegins hpiece =>
      obtain hb | ⟨_, _, he, -⟩ := brings_concat_iff.1 hbrings
      · exact absurd hb (hbegins _ _ _ _)
      · exact absurd he (hpiece _ _ _)
    | begins hbegins hfollows =>
      obtain hb | ⟨_, _, rfl, -⟩ := brings_concat_iff.1 hbrings
      · obtain ⟨rfl, rfl, rfl, rfl⟩ := hb.unique hbegins
        exact hfollows.mono (List.suffix_append ..)
      · cases hbegins
    | piece ho hfollows =>
      obtain hb | ⟨front, bytes, he, rfl, hfront⟩ := brings_concat_iff.1 hbrings
      · cases hb
      · cases he
        cases h.follows hfront with
        | cut ho' _ hsuffix =>
          rw [ho] at ho'
          cases ho'
          obtain ⟨behind, rfl⟩ := hsuffix
          exact (hfollows front).mono ⟨behind, (List.append_assoc ..).symm⟩
  begun ho := by
    cases hr.delivers with
    | nothing _ _ hnot => exact absurd ho (hnot _ _)
    | begins hbegins hfollows =>
      rw [ho] at hfollows
      obtain ⟨rfl, rfl⟩ := hfollows.of_value
      exact ⟨_, _, .begins hbegins⟩
    | piece hbefore hfollows =>
      obtain ⟨length, value, hbrings⟩ := h.begun hbefore
      have hvalue := hfollows value
      rw [ho] at hvalue
      obtain ⟨rfl, rfl⟩ := hvalue.of_value
      exact ⟨length, _, .piece hbrings⟩
  piece hes := by
    obtain ⟨-, he⟩ := List.append_inj' hes rfl
    obtain rfl := List.singleton_inj.1 he
    cases hr.delivers with
    | nothing _ hpiece => exact absurd rfl (hpiece _ _ _)
    | begins hbegins => cases hbegins
    | piece hbefore =>
      obtain ⟨length, value, hbrings⟩ := h.begun hbefore
      exact ⟨length, _, .piece hbrings⟩

/-- Only a further part comes where a value is open. -/
theorem Reads.inv_value {missing : Nat} (h : s.Reads text rest e t)
    (ho : s.owed = .value slot missing) : ∃ isLast, e = .piece slot text isLast := by
  obtain ho' | ⟨_, _, _, ho', hunit, -⟩ := h.nothing_or_piece
  · rw [ho] at ho'
    cases ho'
  · rw [ho] at ho'
    cases ho'
    cases hunit <;> exact ⟨_, rfl⟩

/-- No move is made where a value is open. -/
theorem GoesTo.inv_value {missing : Nat} (h : s.GoesTo text rest t)
    (ho : s.owed = .value slot missing) : text = [] ∧ t = s := by
  cases h with
  | here => exact ⟨rfl, rfl⟩
  | move hm => exact absurd ⟨slot, missing, ho⟩ hm.owed_eq.2

end State

/-! ### Calls -/

/-- The bytes of a buffer from the cursor of one parser to that of another. -/
def between (p q : Parser machine) (buffer : Bytes) : Bytes :=
  (buffer.drop p.cursor).take (q.cursor - p.cursor)

/-- What has been read of the packet that a parser is in: calls have taken these bytes of the
    packet and given these units, and with this buffer the parser goes on. -/
inductive History (mode : Mode) : Parser machine → Bytes → Bytes → List Event → Prop where
  /-- Nothing has been read. -/
  | start (buffer : Bytes) : History mode (parser mode) buffer [] []
  /-- The buffer grows. -/
  | grow {p : Parser machine} {buffer taken : Bytes} {es : List Event} (more : Bytes) :
      History mode p buffer taken es → History mode p (buffer ++ more) taken es
  /-- What has been read is dropped from the buffer. -/
  | discard {p : Parser machine} {buffer taken : Bytes} {es : List Event} :
      History mode p buffer taken es →
        History mode p.discard.2 (buffer.drop p.discard.1) taken es
  /-- A call gives a unit of the packet. -/
  | unit {p q : Parser machine} {buffer taken : Bytes} {es : List Event} {e : Event} :
      History mode p buffer taken es → p.parse buffer = (.event e, q) → e ≠ .complete →
        History mode q buffer (taken ++ between p q buffer) (es ++ [e])
  /-- A call asks for more input. -/
  | more {p q : Parser machine} {buffer taken : Bytes} {es : List Event} :
      History mode p buffer taken es → p.parse buffer = (.more, q) →
        History mode q buffer (taken ++ between p q buffer) es
  /-- A call gives the end of the packet. -/
  | complete {p q : Parser machine} {buffer taken : Bytes} {es : List Event} :
      History mode p buffer taken es → p.parse buffer = (.event .complete, q) →
        History mode q buffer [] []
  /-- A call gives a fault; another buffer comes. -/
  | fault {p q : Parser machine} {buffer taken : Bytes} {es : List Event} {f : Fault Cause}
      (next : Bytes) :
      History mode p buffer taken es → p.parse buffer = (.fault f, q) → History mode q next [] []
  /-- The packet is given up; another buffer comes. -/
  | reset {p : Parser machine} {buffer taken : Bytes} {es : List Event} (next : Bytes) :
      History mode p buffer taken es → History mode p.reset next [] []

/-- The bytes between two cursors are those that were taken. -/
theorem between_eq {n : Nat} {front : Bytes} (hq : q.cursor = p.cursor + n)
    (hbuffer : buffer.drop p.cursor = front ++ rest) (hn : n = front.length) :
    between p q buffer = front := by
  rw [between, hbuffer, hq, Nat.add_sub_cancel_left, hn, List.take_left]

/-- A cursor that has gone on by bytes ahead is within the buffer. -/
theorem cursor_le_of_drop {n : Nat} {front : Bytes} (hc : p.cursor ≤ buffer.length)
    (hbuffer : buffer.drop p.cursor = front ++ rest) (hn : n = front.length) :
    p.cursor + n ≤ buffer.length := by
  have hlength := congrArg List.length hbuffer
  rw [List.length_drop, List.length_append] at hlength
  omega

/-- A call that gives a unit goes over moves to it. -/
theorem exists_reads_of_parse (hc : p.cursor ≤ buffer.length)
    (hparse : p.parse buffer = (.event e, q)) :
    ∃ front text rest t, p.state.GoesTo front (text ++ rest) t ∧ t.Reads text rest e q.state ∧
      between p q buffer = front ++ text ∧ q.cursor ≤ buffer.length := by
  obtain ⟨u, n, hstep, rfl⟩ := (Parser.parse_eq_event_iff hc).1 hparse
  have hdoes := does_step p.state (buffer.drop p.cursor)
  rw [show step p.state (buffer.drop p.cursor) = .emit e u n from hstep] at hdoes
  obtain ⟨front, text, rest, t, hgo, hreads, hbuffer, hn⟩ := hdoes.exists_reads
  exact ⟨front, text, rest, t, hgo, hreads, between_eq rfl hbuffer hn,
    cursor_le_of_drop hc hbuffer hn⟩

/-- A call that asks for more input goes over moves to where it waits. -/
theorem exists_goesTo_of_parse (hc : p.cursor ≤ buffer.length)
    (hparse : p.parse buffer = (.more, q)) :
    ∃ front rest, p.state.GoesTo front rest q.state ∧ between p q buffer = front ∧
      q.cursor ≤ buffer.length := by
  obtain ⟨u, n, hstep, rfl⟩ := (Parser.parse_eq_more_iff hc).1 hparse
  have hdoes := does_step p.state (buffer.drop p.cursor)
  rw [show step p.state (buffer.drop p.cursor) = .wait u n from hstep] at hdoes
  obtain ⟨front, rest, hgo, hbuffer, hn⟩ := hdoes.exists_goesTo
  exact ⟨front, rest, hgo, between_eq rfl hbuffer hn, cursor_le_of_drop hc hbuffer hn⟩

/-- What holds along a history. -/
structure Keeps (mode : Mode) (p : Parser machine) (buffer taken : Bytes) (es : List Event) :
    Prop where
  /-- The mode stays. -/
  mode_eq : p.state.mode = mode
  /-- The cursor is in the buffer. -/
  cursor_le : p.cursor ≤ buffer.length
  /-- The state goes with what has been read. -/
  accounts : p.state.Accounts taken es

/-- A parser that has read nothing keeps its account. -/
theorem keeps_initial (buffer : Bytes) : Keeps mode ⟨.initial mode, 0⟩ buffer [] [] :=
  ⟨rfl, Nat.zero_le _, State.accounts_initial⟩

/-- A parser that starts over keeps its account of nothing. -/
theorem Keeps.reset (h : Keeps mode p buffer taken es) (next : Bytes) :
    Keeps mode p.reset next [] [] := by
  rw [← h.mode_eq]
  exact keeps_initial next

/-- Whatever is done with a parser, it keeps its account. -/
theorem History.keeps (h : History mode p buffer taken es) : Keeps mode p buffer taken es := by
  -- Bytes are taken by calls only, and what a call takes is the text of moves and of a unit.
  induction h with
  | start buffer => exact keeps_initial buffer
  | grow more _ ih =>
    refine ⟨ih.mode_eq, ?_, ih.accounts⟩
    rw [List.length_append]
    exact Nat.le_add_right_of_le ih.cursor_le
  | discard _ ih => exact ⟨ih.mode_eq, Nat.zero_le _, ih.accounts⟩
  | unit _ hparse he ih =>
    obtain ⟨front, text, rest, t, hgo, hreads, hbetween, hc⟩ :=
      exists_reads_of_parse ih.cursor_le hparse
    refine ⟨?_, hc, ?_⟩
    · rw [hreads.mode_eq, hgo.mode_eq, ih.mode_eq]
    · rw [hbetween, ← List.append_assoc]
      exact (ih.accounts.goesTo hgo).reads hreads he
  | more _ hparse ih =>
    obtain ⟨front, rest, hgo, hbetween, hc⟩ := exists_goesTo_of_parse ih.cursor_le hparse
    refine ⟨?_, hc, ?_⟩
    · rw [hgo.mode_eq, ih.mode_eq]
    · rw [hbetween]
      exact ih.accounts.goesTo hgo
  | @complete p q buffer _ _ _ hparse ih =>
    obtain ⟨front, text, rest, t, hgo, hreads, -, hc⟩ := exists_reads_of_parse ih.cursor_le hparse
    have hstate : q.state = .initial _ := hreads.eq_initial
    rw [hgo.mode_eq, ih.mode_eq] at hstate
    refine ⟨?_, hc, ?_⟩
    · rw [hstate]
      rfl
    · rw [hstate]
      exact State.accounts_initial
  | fault next _ hparse ih =>
    obtain rfl := Parser.eq_reset_of_fault hparse
    exact ih.reset next
  | reset next _ ih => exact ih.reset next

/-! ### The account -/

/-- What the bytes that have been taken of a packet, and the units that have been given, are to the
    parser, and to its next call. -/
structure IsAccounted (mode : Mode) (p : Parser machine) (buffer taken : Bytes) (es : List Event) :
    Prop where
  /-- The bytes tell which of them are bytes of the content. -/
  progress : ∃ announced content, Progress mode taken announced content
  /-- The counter is the number of these, and the announced length is the one that was told. -/
  counted : ∀ {announced content}, Progress mode taken announced content →
    p.state.announced = announced ∧ p.state.consumed = content.length
  /-- The end of the packet comes behind content of the length that was told, in which all values
      are complete. -/
  complete : ∀ {q}, p.parse buffer = (.event .complete, q) →
    ∃ packet announced content, taken ++ between p q buffer = packet ++ ending mode ∧
      Progress mode packet announced content ∧
      (∀ length, announced = some length → content.length = length) ∧
      ∀ {slot length value isLast}, Brings es slot length value isLast →
        isLast = true ∧ (slot ≠ .content → value ++ [Byte.lineFeed] <:+ packet)
  /-- The parts of a value are as long as the value when the last of them has been given, and
      shorter before. They are the last bytes taken, but for the line feed behind them. -/
  follows : ∀ {slot length value isLast}, Brings es slot length value isLast →
    p.state.owed.Follows taken slot length value isLast
  /-- Every further part is one of a value that has begun. -/
  piece : ∀ {front slot bytes isLast}, es = front ++ [.piece slot bytes isLast] →
    ∃ length value, Brings es slot length value isLast
  /-- A value that is not complete is gone on with, whatever comes. -/
  goesOn : ∀ {slot length value e q}, Brings es slot length value false →
    p.parse buffer = (.event e, q) → ∃ isLast, e = .piece slot (between p q buffer) isLast
  /-- The line feed that is owed behind a value is taken first, and once. -/
  lineFeed : ∀ {line q}, p.state.owed = .lineFeed line →
    (∀ {e}, p.parse buffer = (.event e, q) →
      ∃ text, between p q buffer = Byte.lineFeed :: text) ∧
    (p.parse buffer = (.more, q) → (between p q buffer = [] ∧ q.state = p.state) ∨
      ∃ text, between p q buffer = Byte.lineFeed :: text ∧ q.state.owed = .nothing)

/-- The announced length and the counter are those of the bytes taken. -/
theorem Keeps.counted (h : Keeps mode p buffer taken es)
    (hprogress : Progress mode taken announced content) :
    p.state.announced = announced ∧ p.state.consumed = content.length := by
  obtain ⟨content', hcontent, hlength⟩ := h.accounts.counts.exists_progress
  rw [h.mode_eq] at hcontent
  obtain ⟨rfl, rfl⟩ := hcontent.unique hprogress
  exact ⟨rfl, hlength⟩

/-- When a packet ends, its content has its length and all its values have come. -/
theorem Keeps.complete (h : Keeps mode p buffer taken es)
    (hparse : p.parse buffer = (.event .complete, q)) :
    ∃ packet announced content, taken ++ between p q buffer = packet ++ ending mode ∧
      Progress mode packet announced content ∧
      (∀ length, announced = some length → content.length = length) ∧
      ∀ {slot length value isLast}, Brings es slot length value isLast →
        isLast = true ∧ (slot ≠ .content → value ++ [Byte.lineFeed] <:+ packet) := by
  obtain ⟨front, text, rest, t, hgo, hreads, hbetween, -⟩ :=
    exists_reads_of_parse h.cursor_le hparse
  obtain ⟨ho, hexact, rfl, -⟩ := hreads.inv_complete
  have hmode : t.mode = mode := hgo.mode_eq.trans h.mode_eq
  have haccounts := h.accounts.goesTo hgo
  obtain ⟨content, hprogress, hlength⟩ := haccounts.counts.exists_progress
  rw [hmode] at hprogress hbetween
  refine ⟨taken ++ front, t.announced, content, ?_, hprogress, fun length hann => ?_, ?_⟩
  · rw [hbetween, List.append_assoc]
  · rw [← hlength, hexact length hann]
  · intro slot length value isLast hbrings
    -- A value that is cut would be owed, and at the end of a packet nothing is.
    cases haccounts.follows hbrings with
    | cut ho' => rw [ho] at ho'; cases ho'
    | whole ho' =>
      refine ⟨rfl, fun hslot => ?_⟩
      rw [ho] at ho'
      cases slot with
      | content => exact absurd rfl hslot
      | entity => cases ho'
      | body => cases ho'
    | ended _ _ hsuffix => exact ⟨rfl, fun _ => hsuffix⟩

/-- While a value is not complete, nothing but more of it is given. -/
theorem Keeps.goesOn (h : Keeps mode p buffer taken es)
    (hbrings : Brings es slot length value false) (hparse : p.parse buffer = (.event e, q)) :
    ∃ isLast, e = .piece slot (between p q buffer) isLast := by
  obtain ⟨front, text, rest, t, hgo, hreads, hbetween, -⟩ :=
    exists_reads_of_parse h.cursor_le hparse
  cases h.accounts.follows hbrings with
  | cut ho =>
    obtain ⟨rfl, rfl⟩ := hgo.inv_value ho
    rw [hbetween]
    exact hreads.inv_value ho

/-- The line feed behind a value is the next byte that is taken. -/
theorem Keeps.lineFeed {line : LineEnd} (h : Keeps mode p buffer taken es)
    (ho : p.state.owed = .lineFeed line) :
    (∀ {e}, p.parse buffer = (.event e, q) →
      ∃ text, between p q buffer = Byte.lineFeed :: text) ∧
    (p.parse buffer = (.more, q) → (between p q buffer = [] ∧ q.state = p.state) ∨
      ∃ text, between p q buffer = Byte.lineFeed :: text ∧ q.state.owed = .nothing) := by
  constructor
  · intro e hparse
    obtain ⟨front, text, rest, t, hgo, hreads, hbetween, -⟩ :=
      exists_reads_of_parse h.cursor_le hparse
    obtain ⟨-, rfl⟩ | ⟨behind, rfl, -⟩ := hgo.inv_lineFeed ho
    · exact absurd hreads (State.not_reads_of_lineFeed ho)
    · exact ⟨behind ++ text, hbetween⟩
  · intro hparse
    obtain ⟨front, rest, hgo, hbetween, -⟩ := exists_goesTo_of_parse h.cursor_le hparse
    rw [hbetween]
    exact hgo.inv_lineFeed ho

/-- A parser accounts for every byte of a packet, whatever has come before, however the buffers grow
    and are compacted. Its counter is the number of the bytes of the content that have been taken.
    The end of the packet comes just behind as many as were announced. The parts of a value add up
    to its length, and the line feed behind it is taken and counted once. -/
theorem History.isAccounted (h : History mode p buffer taken es) :
    IsAccounted mode p buffer taken es where
  progress := by
    obtain ⟨content, hprogress, -⟩ := h.keeps.accounts.counts.exists_progress
    rw [h.keeps.mode_eq] at hprogress
    exact ⟨_, content, hprogress⟩
  counted := h.keeps.counted
  complete := h.keeps.complete
  follows := h.keeps.accounts.follows
  piece := h.keeps.accounts.piece
  goesOn := h.keeps.goesOn
  lineFeed := h.keeps.lineFeed

/-- A value comes in two parts, with a call in vain between them, and the packet ends behind it. -/
theorem isAccounted_on_parts :
    ∃ p q : Parser machine,
      History .whole p (Bytes.ofText "c\n|\n") (Bytes.ofText "10\n:_a 3\tabc")
        [.entityOpening ⟨.set, Bytes.ofText "_a", Bytes.ofText "ab"⟩ 3,
          .piece .entity (Bytes.ofText "c") true] ∧
      p.state.consumed = (Bytes.ofText ":_a 3\tabc").length ∧
      p.state.owed.Follows (Bytes.ofText "10\n:_a 3\tabc") .entity 3 (Bytes.ofText "abc") true ∧
      p.parse (Bytes.ofText "c\n|\n") = (.event .complete, q) ∧
      (∃ text, between p q (Bytes.ofText "c\n|\n") = Byte.lineFeed :: text) ∧
      ∃ packet announced content, Bytes.ofText "10\n:_a 3\tabc\n|\n" = packet ++ closingLine ∧
        Progress .whole packet announced content ∧
        ∀ length, announced = some length → content.length = length := by
  let start := Bytes.ofText "10\n:_a 3\tab"
  let whole := Bytes.ofText "10\n:_a 3\tabc"
  let more := Bytes.ofText "c\n|\n"
  let opening : Event := .entityOpening ⟨.set, Bytes.ofText "_a", Bytes.ofText "ab"⟩ 3
  let last : Event := .piece .entity (Bytes.ofText "c") true
  -- The parser with the value cut, with its last byte read, and behind the packet.
  let cut : Parser machine := ⟨⟨.whole, .content, some 10, 8, .value .entity 1⟩, 11⟩
  let p : Parser machine := ⟨⟨.whole, .content, some 10, 9, .lineFeed .modifier⟩, 1⟩
  let q : Parser machine := ⟨.initial .whole, 4⟩
  have hopening : (parser .whole).parse start = (.event opening, cut) :=
    (Parser.parse_eq_event_iff (Nat.zero_le _)).2 ⟨_, 11, by decide +kernel, rfl⟩
  have hvain : cut.discard.2.parse (start.drop 11) = (.more, cut.discard.2) :=
    (Parser.parse_eq_more_iff (Nat.zero_le _)).2 ⟨_, 0, by decide +kernel, rfl⟩
  have hlast : cut.discard.2.parse (start.drop 11 ++ Bytes.ofText "c") = (.event last, p) :=
    (Parser.parse_eq_event_iff (Nat.zero_le _)).2 ⟨_, 1, by decide +kernel, rfl⟩
  have hcomplete : p.parse more = (.event .complete, q) :=
    (Parser.parse_eq_event_iff (by decide +kernel)).2 ⟨_, 3, by decide +kernel, rfl⟩
  -- The first part is discarded, a call is in vain, and then comes the last part.
  have hhistory : History .whole p more whole [opening, last] := by
    have h := History.grow (Bytes.ofText "\n|\n") (.unit (.grow (Bytes.ofText "c")
      (.more (.discard (.unit (.start start) hopening nofun)) hvain)) hlast nofun)
    have hbuffer : start.drop 11 ++ Bytes.ofText "c" ++ Bytes.ofText "\n|\n" = more := by
      decide +kernel
    have htaken : [] ++ between (parser .whole) cut start ++
        between cut.discard.2 cut.discard.2 (start.drop 11) ++
        between cut.discard.2 p (start.drop 11 ++ Bytes.ofText "c") = whole := by decide +kernel
    rw [← hbuffer, ← htaken]
    exact h
  have hall := hhistory.isAccounted
  have hprogress : Progress .whole whole (some 10) (Bytes.ofText ":_a 3\tabc") := by
    have hnum := @Decimal.numeral_digits 10 (by decide)
    have hwithin := @Progress.within .whole _ (Bytes.ofText ":_a 3\tabc") _ (.told rfl .nil hnum)
    have hwhole : [] ++ Decimal.digits 10 ++ [Byte.lineFeed] ++ Bytes.ofText ":_a 3\tabc" =
      whole := by decide +kernel
    rwa [hwhole] at hwithin
  have hbrings : Brings [opening, last] .entity 3 (Bytes.ofText "ab" ++ Bytes.ofText "c") true :=
    @Brings.piece [opening] _ _ _ _ _ (@Brings.begins [] _ _ _ _ _ .entityOpening)
  obtain ⟨packet, announced, content, hpacket, hcontent, hlength, -⟩ := hall.complete hcomplete
  have hend : whole ++ between p q more = Bytes.ofText "10\n:_a 3\tabc\n|\n" := by decide +kernel
  rw [hend] at hpacket
  exact ⟨p, q, hhistory, (hall.counted hprogress).2, hall.follows hbrings, hcomplete,
    (hall.lineFeed rfl).1 hcomplete, packet, announced, content, hpacket, hcontent, hlength⟩

end PacketWire.Packet
