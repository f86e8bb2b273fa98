import PacketWire.Proofs.Packet.Moves

namespace PacketWire.Packet

/-!
# The loop over the parts

A step looks for a unit of the part that comes next, and enters the next part where there is none,
until there is a unit, or more input is needed, or there is a fault. One turn of this loop is told
by `State.turn`, and a step is its first turn with the step behind it (`outcome_turn`). A turn only
enters parts further behind (`rank_lt_of_enters`), so that the loop comes to an end, and what it
comes to is the step (`loops_step`).
-/

/-- What one turn of the loop comes to. -/
inductive Turn where
  /-- The step is done. -/
  | ends (outcome : Step State Event Cause)
  /-- A part is entered, behind so many bytes. -/
  | enters (state : State) (used : Nat)

namespace Turn

/-- The same turn behind `n` more bytes. -/
def shift (n : Nat) : Turn → Turn
  | ends r => .ends (r.shift n)
  | enters t used => .enters t (n + used)

/-- Goes on with what a scan found, at the bytes behind it. -/
def andThen {α : Type} (scan : Scan Cause α) (s : State) (next : α → Bytes → Turn)
    (input : Bytes) : Turn :=
  match scan input with
  | .done a used => (next a (input.drop used)).shift used
  | .more => .ends (.wait s 0)
  | .fault f => .ends (.fault f)

/-- Reads a unit if there is one of its kind, and otherwise enters a part. -/
def ofScan? (scan : Scan Cause (Option (Event × State))) (s next : State) : Bytes → Turn :=
  andThen scan s fun found _ =>
    match found with
    | some (event, t) => .ends (.emit event t 0)
    | none => .enters next 0

/-- What a step comes to that starts with this turn. -/
def outcome (input : Bytes) : Turn → Step State Event Cause
  | ends r => r
  | enters t used => (step t (input.drop used)).shift used

end Turn

namespace State

/-- One turn at a part, if nothing is owed. -/
def turnPart (s : State) : Bytes → Turn :=
  match s.part with
  | .routing =>
    .ofScan? (do return (← scanRouting).map fun event => (event, s)) s { s with part := .length }
  | .length => .andThen scanLengthLine s fun line _ => .enters (s.behindLength line) 0
  | .content =>
    if s.isFull then fun _ => .enters { s with part := .closing } 0
    else .ofScan? (record s .content (scanContent s)) s { s with part := .method }
  | .method => .ofScan? (record s .closing (scanBody s)) s { s with part := .closing }
  | .data => .ofScan? (record s .closing (scanData s)) s { s with part := .closing }
  | .closing => fun input => .ends (Step.ofScan (scanClosing s) s input)

/-- One turn of the loop over the parts. More of a value is all that is read in a turn, and the line
    feed behind one goes with the turn at the next part. -/
def turn (s : State) : Bytes → Turn :=
  match s.owed with
  | .nothing => s.turnPart
  | .value slot missing => fun input => .ends (Step.ofScan (scanPiece s slot missing) s input)
  | .lineFeed line =>
    .andThen (Scan.byte Byte.lineFeed line.cause) s fun _ =>
      turnPart { s.consume 1 with owed := .nothing }

/-- The loop comes to an end, and to this outcome; it may make any number of turns. -/
inductive Loops : State → Bytes → Step State Event Cause → Prop where
  /-- The step is done. -/
  | ends {s : State} {input : Bytes} {r : Step State Event Cause} :
      s.turn input = .ends r → Loops s input r
  /-- A part is entered, and the loop goes on there. -/
  | enters {s t : State} {input : Bytes} {n : Nat} {r : Step State Event Cause} :
      s.turn input = .enters t n → Loops t (input.drop n) r → Loops s input (r.shift n)

end State

/-- How many parts come behind a part, at most. -/
def Part.rank : Part → Nat
  | routing => 4
  | length => 3
  | content => 2
  | method => 1
  | data => 1
  | closing => 0

variable {α : Type} {s t next : State} {input : Bytes} {k n : Nat}

/-! ### A turn and the step -/

/-- What a turn comes to is counted from where it starts. -/
theorem outcome_shift (turn : Turn) :
    (turn.shift n).outcome input = (turn.outcome (input.drop n)).shift n := by
  cases turn with
  | ends r => rfl
  | enters t used => rw [Turn.shift, Turn.outcome, Turn.outcome, List.drop_drop, Step.shift_shift]

/-- A turn behind a scan comes to the step behind it. -/
theorem outcome_andThen {scan : Scan Cause α} {next : α → Bytes → Turn}
    {go : α → Bytes → Step State Event Cause}
    (hgo : ∀ a rest, (next a rest).outcome rest = go a rest) :
    (Turn.andThen scan s next input).outcome input = Step.andThen scan s go input := by
  rw [Turn.andThen, Step.andThen]
  cases scan input with
  | more => rfl
  | fault f => rfl
  | done a n => exact (outcome_shift _).trans (congrArg (Step.shift n) (hgo a _))

/-- A turn for a unit that may come comes to its step. -/
theorem outcome_ofScan? {scan : Scan Cause (Option (Event × State))}
    {go : Bytes → Step State Event Cause} (hgo : step next = go) :
    (Turn.ofScan? scan s next input).outcome input = Step.ofScan? scan s go input := by
  refine outcome_andThen fun found rest => ?_
  cases found with
  | some unit => rfl
  | none =>
    rw [← hgo]
    exact Step.shift_zero _

/-- A turn at a part comes to the step from this part on. -/
theorem outcome_turnPart (h : s.owed = .nothing) :
    (s.turnPart input).outcome input = readPart s input := by
  -- entering another part takes nothing and owes nothing
  have hclosing : step { s with part := .closing } = readClosing s := step_of_nothing h
  cases hpart : s.part with
  | routing =>
    have hlength : step { s with part := .length } = readLength s := step_of_nothing h
    rw [State.turnPart, readPart, hpart]
    exact outcome_ofScan? hlength
  | length =>
    have hs : { s with part := .length } = s := by rw [← hpart]
    rw [State.turnPart, readPart, hpart]
    show _ = readLength s input
    rw [readLength, hs]
    refine outcome_andThen fun line rest => ?_
    exact (Step.shift_zero _).trans (congrFun (step_behindLength h line) rest)
  | content =>
    have hs : { s with part := .content } = s := by rw [← hpart]
    have hmethod : step { s with part := .method } = readMethod s := step_of_nothing h
    rw [State.turnPart, readPart, hpart]
    show Turn.outcome input ((if s.isFull then fun _ => .enters { s with part := .closing } 0
      else .ofScan? (record s .content (scanContent s)) s { s with part := .method } :
        Bytes → Turn) input) = readContent s input
    rw [readContent, hs]
    by_cases hfull : s.isFull = true
    · rw [if_pos hfull, if_pos hfull, ← hclosing]
      exact Step.shift_zero _
    · rw [if_neg hfull, if_neg hfull]
      exact outcome_ofScan? hmethod
  | method =>
    have hs : { s with part := .method } = s := by rw [← hpart]
    rw [State.turnPart, readPart, hpart]
    show _ = readMethod s input
    rw [readMethod, hs]
    exact outcome_ofScan? hclosing
  | data =>
    have hs : { s with part := .data } = s := by rw [← hpart]
    rw [State.turnPart, readPart, hpart]
    show _ = readData s input
    rw [readData, hs]
    exact outcome_ofScan? hclosing
  | closing =>
    have hs : { s with part := .closing } = s := by rw [← hpart]
    rw [State.turnPart, readPart, hpart]
    show _ = readClosing s input
    rw [readClosing, hs]
    rfl

/-- A step is its first turn, and what comes behind it. -/
theorem outcome_turn (s : State) (input : Bytes) : (s.turn input).outcome input = step s input := by
  cases ho : s.owed with
  | nothing =>
    rw [State.turn, ho, step_of_nothing ho]
    exact outcome_turnPart ho
  | value slot missing =>
    rw [State.turn, step, ho]
    rfl
  | lineFeed line =>
    rw [State.turn, step, ho]
    exact outcome_andThen fun _ _ => outcome_turnPart rfl

/-! ### The end of the loop -/

/-- Entering a part does not depend on the bytes before. -/
theorem eq_enters_of_shift {turn : Turn} (h : turn.shift n = .enters t k) :
    ∃ j, turn = .enters t j := by
  cases turn with
  | ends r => cases h
  | enters t' used =>
    cases h
    exact ⟨used, rfl⟩

/-- A turn that enters a part behind a scan does so from what was found. -/
theorem exists_of_andThen_eq_enters {scan : Scan Cause α} {next : α → Bytes → Turn}
    (h : Turn.andThen scan s next input = .enters t n) : ∃ a rest k, next a rest = .enters t k := by
  rw [Turn.andThen] at h
  cases hscan : scan input with
  | more => rw [hscan] at h; cases h
  | fault f => rw [hscan] at h; cases h
  | done a used =>
    rw [hscan] at h
    obtain ⟨k, hk⟩ := eq_enters_of_shift h
    exact ⟨a, _, k, hk⟩

/-- Where no unit of the kind comes, one part is entered. -/
theorem eq_of_ofScan?_eq_enters {scan : Scan Cause (Option (Event × State))}
    (h : Turn.ofScan? scan s next input = .enters t n) : t = next := by
  obtain ⟨found, rest, k, hk⟩ := exists_of_andThen_eq_enters h
  cases found with
  | some unit => cases hk
  | none =>
    cases hk
    rfl

/-- The content comes behind the length line. -/
theorem rank_contentPart_lt (mode : Mode) : (contentPart mode).rank < Part.length.rank := by
  cases mode with
  | whole => exact Nat.lt_succ_self _
  | routingOnly => exact Nat.lt_of_succ_lt (Nat.lt_succ_self _)
  | contentOnly length => exact Nat.lt_succ_self _

/-- A part that is entered is further behind. -/
theorem rank_lt_of_turnPart (h : s.turnPart input = .enters t n) : t.part.rank < s.part.rank := by
  rw [State.turnPart] at h
  -- The parts come in the order of a packet, and from each only later ones are entered.
  cases hpart : s.part with
  | routing =>
    rw [hpart] at h
    rw [eq_of_ofScan?_eq_enters h]
    exact Nat.lt_succ_self _
  | length =>
    rw [hpart] at h
    obtain ⟨line, rest, k, hk⟩ := exists_of_andThen_eq_enters h
    cases hk
    cases line with
    | absent => exact Nat.succ_pos _
    | untold => exact rank_contentPart_lt s.mode
    | told length => exact rank_contentPart_lt s.mode
  | content =>
    rw [hpart] at h
    change (if s.isFull then fun _ => .enters { s with part := .closing } 0
      else .ofScan? (record s .content (scanContent s)) s { s with part := .method } :
        Bytes → Turn) input = .enters t n at h
    split at h
    · cases h
      exact Nat.succ_pos _
    · rw [eq_of_ofScan?_eq_enters h]
      exact Nat.lt_succ_self _
  | method =>
    rw [hpart] at h
    rw [eq_of_ofScan?_eq_enters h]
    exact Nat.succ_pos _
  | data =>
    rw [hpart] at h
    rw [eq_of_ofScan?_eq_enters h]
    exact Nat.succ_pos _
  | closing =>
    rw [hpart] at h
    cases h

/-- The parts that are entered are further behind. -/
theorem rank_lt_of_enters (h : s.turn input = .enters t n) : t.part.rank < s.part.rank := by
  rw [State.turn] at h
  cases ho : s.owed with
  | nothing =>
    rw [ho] at h
    exact rank_lt_of_turnPart h
  | value slot missing =>
    rw [ho] at h
    cases h
  | lineFeed line =>
    rw [ho] at h
    obtain ⟨_, rest, k, hk⟩ := exists_of_andThen_eq_enters h
    exact @rank_lt_of_turnPart { s.consume 1 with owed := .nothing } _ _ _ hk

/-- The loop over the parts comes to an end with every input, and what it comes to is the step. -/
theorem loops_step (s : State) (input : Bytes) : s.Loops input (step s input) := by
  induction hrank : s.part.rank using Nat.strongRecOn generalizing s input with
  | ind rank ih =>
    have houtcome := outcome_turn s input
    cases hturn : s.turn input with
    | ends r =>
      rw [hturn] at houtcome
      obtain rfl : r = step s input := houtcome
      exact .ends hturn
    | enters t n =>
      rw [hturn] at houtcome
      rw [← houtcome]
      exact .enters hturn (ih _ (hrank ▸ rank_lt_of_enters hturn) t _ rfl)

end PacketWire.Packet
