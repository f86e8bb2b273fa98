import PacketWire.Scan

namespace PacketWire

/-!
# Resumable parsers

A resumable parser is given one buffer after the other, each of them the last one with more
bytes at its end, and reports the units of the input one at a time. Between calls it keeps a
state and a cursor, the number of bytes of the buffer that it is done with. The bytes before
the cursor may be dropped from the buffer if the cursor is set back by as many
(`Parser.discard`).

What a parser does is told by a machine: a step from a state and the bytes from the cursor
onwards, in which places are counted from the cursor. A parser that goes over the whole buffer and
counts from its start is an `Engine`; each engine is proved to do what a machine tells
(`Engine.Simulates`), and only by this is it known that the bytes before the cursor do not matter.
-/

/-- The outcome of one step of a machine with states `σ`, events `ε` and faults `κ`. -/
inductive Step (σ ε κ : Type) where
  /-- A unit was read. -/
  | emit (event : ε) (state : σ) (used : Nat)
  /-- The next unit needs more input; what comes before it has been taken. -/
  | wait (state : σ) (used : Nat)
  /-- The input is malformed. -/
  | fault (fault : Fault κ)
deriving DecidableEq, Repr

namespace Step

variable {σ ε κ : Type}

/-- The same outcome of a step that took `n` more bytes at first. -/
def shift (n : Nat) : Step σ ε κ → Step σ ε κ
  | emit event state used => .emit event state (n + used)
  | wait state used => .wait state (n + used)
  | fault f => .fault (f.shift n)

/-- Nothing was taken before. -/
@[simp] theorem shift_zero (s : Step σ ε κ) : s.shift 0 = s := by
  cases s <;> simp [shift]

/-- What was taken before adds up. -/
@[simp] theorem shift_shift (m n : Nat) (s : Step σ ε κ) :
    (s.shift n).shift m = s.shift (m + n) := by
  cases s <;> simp [shift, Nat.add_assoc]

/-- Goes on with what a scan found, at the bytes behind it; `waiting` is the state to keep if the
    scan needs more input. -/
def andThen {α : Type} (scan : Scan κ α) (waiting : σ) (next : α → Bytes → Step σ ε κ)
    (input : Bytes) : Step σ ε κ :=
  match scan input with
  | .done a used => (next a (input.drop used)).shift used
  | .more => .wait waiting 0
  | .fault f => .fault f

/-- Reads one unit. -/
def ofScan (scan : Scan κ (ε × σ)) (waiting : σ) (input : Bytes) : Step σ ε κ :=
  andThen scan waiting (fun (event, state) _ => .emit event state 0) input

/-- Reads one unit if there is one of its kind, and otherwise goes on to what may come in its
    place. -/
def ofScan? (scan : Scan κ (Option (ε × σ))) (waiting : σ) (next : Bytes → Step σ ε κ)
    (input : Bytes) : Step σ ε κ :=
  andThen scan waiting (fun found rest =>
    match found with
    | some (event, state) => .emit event state 0
    | none => next rest) input

end Step

/-- What a resumable parser does. -/
structure Machine (σ ε κ : Type) where
  /-- One step, from a state and the input ahead. -/
  step : σ → Bytes → Step σ ε κ
  /-- The state in which a parser that is in some state starts over. -/
  restart : σ → σ
  /-- The event ends what is being parsed. -/
  isFinal : ε → Bool

/-- What a call of a parser gives. -/
inductive Answer (ε κ : Type) where
  /-- A unit of the input. -/
  | event (event : ε)
  /-- The next unit needs more input. -/
  | more
  /-- The input is malformed; the parser has started over. -/
  | fault (fault : Fault κ)
deriving DecidableEq, Repr

/-- A resumable parser in the middle of its work. -/
structure Parser {σ ε κ : Type} (m : Machine σ ε κ) where
  /-- What it has to know of the input so far. -/
  state : σ
  /-- How many bytes of the buffer it is done with. -/
  cursor : Nat

namespace Parser

variable {σ ε κ : Type} {m : Machine σ ε κ}

/-- Starts over at the start of the buffer. -/
def reset (p : Parser m) : Parser m := ⟨m.restart p.state, 0⟩

/-- The parser after a step, and what it answers. -/
def answer (p : Parser m) : Step σ ε κ → Answer ε κ × Parser m
  | .emit event state used => (.event event, ⟨state, used⟩)
  | .wait state used => (.more, ⟨state, used⟩)
  | .fault f => (.fault f, p.reset)

/-- Reads the next unit of `buffer`. -/
def parse (p : Parser m) (buffer : Bytes) : Answer ε κ × Parser m :=
  let start := min p.cursor buffer.length
  p.answer ((m.step p.state (buffer.drop start)).shift start)

/-- How many bytes may be dropped from the buffer, and the parser for the buffer without
    them. -/
def discard (p : Parser m) : Nat × Parser m := (p.cursor, { p with cursor := 0 })

/-- The answer ends a run of calls: a fault, a need for more input, or a final event. -/
def endsRun (m : Machine σ ε κ) : Answer ε κ → Bool
  | .event e => m.isFinal e
  | .more => true
  | .fault _ => true

/-- Calls `parse` until an answer ends the run, at most `calls` times. Gives each answer with
    the cursor after it. -/
def run (p : Parser m) (buffer : Bytes) : Nat → List (Answer ε κ × Nat) × Parser m
  | 0 => ([], p)
  | calls + 1 =>
    let (answer, q) := p.parse buffer
    if endsRun m answer then ([(answer, q.cursor)], q)
    else
      let (answers, last) := q.run buffer calls
      ((answer, q.cursor) :: answers, last)

/-- The answers up to the one that ends the run. Every unit takes a byte, apart from one empty
    value and the end, so the length of the buffer bounds the number of calls. -/
def drain (p : Parser m) (buffer : Bytes) : List (Answer ε κ) :=
  (p.run buffer (buffer.length + 2)).1.map Prod.fst

/-! ### Units

What a parser reads off a buffer is told by a relation between the parsers before and after and the
units between them.
-/

/-- Calls of `parse` with one buffer lead from one parser to another, and give these units. -/
inductive Reads (buffer : Bytes) : Parser m → List ε → Parser m → Prop where
  /-- No call. -/
  | refl (p : Parser m) : Reads buffer p [] p
  /-- A call that gives a unit, and the calls after it. -/
  | step {p q r : Parser m} {event : ε} {events : List ε} :
      p.parse buffer = (.event event, q) → Reads buffer q events r →
        Reads buffer p (event :: events) r

/-- The calls with a buffer end with the need for more input, after these units. -/
def ReadsOut (buffer : Bytes) (p : Parser m) (events : List ε) (q : Parser m) : Prop :=
  ∃ r, Reads buffer p events r ∧ r.parse buffer = (.more, q)

/-- The calls with a buffer reach a final unit, after these units and no final one before. -/
def Finishes (buffer : Bytes) (p : Parser m) (events : List ε) (last : ε) (q : Parser m) : Prop :=
  (∀ e ∈ events, m.isFinal e = false) ∧ m.isFinal last = true ∧
    Reads buffer p (events ++ [last]) q

/-- The calls with a buffer meet a fault, after these units and no final one before. -/
def Fails (buffer : Bytes) (p : Parser m) (events : List ε) (fault : Fault κ) : Prop :=
  (∀ e ∈ events, m.isFinal e = false) ∧
    ∃ q r, Reads buffer p events q ∧ q.parse buffer = (.fault fault, r)

end Parser

end PacketWire
