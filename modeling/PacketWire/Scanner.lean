import PacketWire.Resumable

namespace PacketWire

/-!
# Scanners

A parser is given a whole buffer, with what it has read of it still in front. It goes over the
buffer with a scanner, which knows its position and the place where the unit has started that is
being read; if the buffer ends inside this unit, the scanner goes back to its start. All places are
counted from the start of the buffer, and so are those of faults.

A walk changes what the parser knows as it goes over the buffer (`Walk`). An engine gives the next
unit by such a walk, and between two calls keeps what it knows and its cursor, which is the position
that the scanner has come to (`Engine.parse`).
-/

/-- A buffer, and the places in it that matter. -/
structure Scanner where
  /-- All bytes of the buffer. -/
  buffer : Bytes
  /-- The position: the place of the next byte. -/
  pos : Nat
  /-- The place where the unit has started that is being read. -/
  mark : Nat
deriving DecidableEq, Repr

/-- A scanner at a place of a buffer, or at the end if the place is beyond it. -/
def Scanner.start (buffer : Bytes) (place : Nat) : Scanner :=
  let pos := min place buffer.length
  ⟨buffer, pos, pos⟩

/-- A parser on its way over a buffer. -/
structure Walker (σ : Type) extends Scanner where
  /-- What it has to know of the input so far. -/
  state : σ
deriving DecidableEq, Repr

/-- Why a walk gives nothing. -/
inductive Halt (κ : Type) where
  /-- The buffer ends inside a unit. -/
  | more
  /-- The input is malformed. -/
  | fault (fault : Fault κ)
deriving DecidableEq, Repr

/-- A way over a buffer to an `α`, with states `σ` and faults of the kind `κ`. -/
abbrev Walk (σ κ α : Type) : Type := EStateM (Halt κ) (Walker σ) α

/-- The place behind the bytes of a class that start at a place. -/
def endOf (class? : UInt8 → Bool) (buffer : Bytes) (place : Nat) : Nat :=
  if h : place < buffer.length then
    if class? buffer[place] then endOf class? buffer (place + 1) else place
  else place
termination_by buffer.length - place

namespace Walk

variable {σ κ α β : Type}

/-! ### Places -/

/-- The position. -/
def pos : Walk σ κ Nat := return (← get).pos

/-- A unit starts here. -/
def setMark : Walk σ κ Unit := modify fun w => { w with mark := w.pos }

/-- The parser is in another state from now on. -/
def enter (state : σ) : Walk σ κ Unit := modify fun w => { w with state }

/-- Gives up on the unit that is being read, and goes back to its start. -/
def needMore : Walk σ κ α := do
  -- All bytes of the unit are read again when there are more.
  modify fun w => { w with pos := w.mark }
  throw .more

/-- A fault at some place. -/
def failAt (cause : κ) (place : Nat) : Walk σ κ α := throw (.fault ⟨cause, place⟩)

/-- A fault at the next byte. -/
def fail (cause : κ) : Walk σ κ α := do failAt cause (← pos)

/-- Goes to a place, and gives the bytes in between. -/
def takeTo (place : Nat) : Walk σ κ Bytes := do
  let w ← get
  set { w with pos := place }
  return w.buffer.extract w.pos place

/-- What is made of a value that is read; if nothing can be made of it, the fault lies where its
    reading started. -/
def expect (walk : Walk σ κ α) (make : α → Option β) (cause : κ) : Walk σ κ β := do
  let start ← pos
  match make (← walk) with
  | some b => return b
  | none => failAt cause start

/-- A walk, with the number of bytes from its start to its end. -/
def measured (walk : Walk σ κ α) : Walk σ κ (α × Nat) := do
  let start ← pos
  let a ← walk
  return (a, (← pos) - start)

/-! ### Single bytes -/

/-- The next byte, if the buffer has not ended. -/
def peek? : Walk σ κ (Option UInt8) := do
  let w ← get
  return w.buffer[w.pos]?

/-- The byte so many places behind the next one. -/
def byteAt (offset : Nat) : Walk σ κ UInt8 := do
  let w ← get
  match w.buffer[w.pos + offset]? with
  | some b => return b
  | none => needMore

/-- The next byte. -/
def byte : Walk σ κ UInt8 := byteAt 0

/-- Goes past `n` bytes, or to the end of the buffer if they are fewer. -/
def skip (n : Nat) : Walk σ κ Unit := modify fun w =>
  { w with pos := min (w.pos + n) w.buffer.length }

/-- Goes past a byte that something must follow. -/
def advance : Walk σ κ Unit := do
  modify fun w => { w with pos := w.pos + 1 }
  let w ← get
  if w.buffer.length ≤ w.pos then needMore else return ()

/-- Goes past a byte that has to come. -/
def expectByte (b : UInt8) (cause : κ) : Walk σ κ Unit := do
  if (← byte) = b then skip 1 else fail cause

/-! ### Words and numbers -/

/-- The bytes of a class, with something behind them. -/
def word (class? : UInt8 → Bool) : Walk σ κ Bytes := do
  let w ← get
  let stop := endOf class? w.buffer w.pos
  if stop < w.buffer.length then takeTo stop else needMore

/-- The bytes of a class, which may end with the buffer. -/
def wordOrEnd (class? : UInt8 → Bool) : Walk σ κ Bytes := do
  let w ← get
  takeTo (endOf class? w.buffer w.pos)

/-- A keyword, which may be empty, with something behind it. -/
def keyword : Walk σ κ Bytes := word Byte.isKeyword

/-- A keyword, which may be empty, or may end with the buffer. -/
def keywordOrEnd : Walk σ κ Bytes := wordOrEnd Byte.isKeyword

/-- A decimal number with something behind it. -/
def number : Walk σ κ Decimal.Reading := do return Decimal.read (← word Byte.isDigit)

/-- A decimal number that may end with the buffer. -/
def numberOrEnd : Walk σ κ Decimal.Reading := do return Decimal.read (← wordOrEnd Byte.isDigit)

/-! ### Values -/

/-- All bytes from the position on. -/
def rest : Walk σ κ Bytes := do
  let w ← get
  return w.buffer.drop w.pos

/-- How far it is to the first occurrence of a sequence. -/
def find? (needle : Bytes) : Walk σ κ (Option Nat) := do
  return (Bytes.before needle (← rest)).map List.length

/-- The bytes in front of the first `stop`, which must come. -/
def upTo (stop : UInt8) : Walk σ κ Bytes := do
  let w ← get
  match (w.buffer.drop w.pos).idxOf? stop with
  | some n => takeTo (w.pos + n)
  | none => needMore

/-- The bytes in front of the first `stop`, or all there are; and whether `stop` came. -/
def upToOrEnd (stop : Option UInt8) : Walk σ κ (Bytes × Bool) := do
  let w ← get
  match stop.bind fun b => (w.buffer.drop w.pos).idxOf? b with
  | some n => return (← takeTo (w.pos + n), true)
  | none => return (← takeTo w.buffer.length, false)

/-- Takes a value of `n` bytes, or as much of it as there is. -/
def take (n : Nat) : Walk σ κ Scan.Portion := do
  let w ← get
  if n ≤ w.buffer.length - w.pos then return .whole (← takeTo (w.pos + n))
  else return .part (← takeTo w.buffer.length)

/-- Goes on with a value of which `n` bytes are missing; there must be something to go on with. -/
def takeOn (n : Nat) : Walk σ κ Scan.Portion := do
  let w ← get
  if w.buffer.length ≤ w.pos then needMore else take n

/-! ### Units -/

/-- Reads a unit, and knows what it tells from now on. -/
def report (unit : Walk σ κ (α × σ)) : Walk σ κ α := do
  let (event, state) ← unit
  enter state
  return event

/-- Reads a unit if there is one of its kind, and otherwise goes on to what may come in its
    place. -/
def reportOr (unit : Walk σ κ (Option (α × σ))) (next : Walk σ κ α) : Walk σ κ α := do
  match ← unit with
  | some (event, state) =>
    enter state
    return event
  | none => next

end Walk

/-- What a parser keeps between two calls. -/
structure Kept (σ : Type) where
  /-- What it has to know of the input so far. -/
  state : σ
  /-- How many bytes of the buffer it is done with. -/
  cursor : Nat
deriving DecidableEq, Repr

/-- How many bytes may be dropped from the buffer, and the parser for the buffer without them. -/
def Kept.discard {σ : Type} (p : Kept σ) : Nat × Kept σ := (p.cursor, { p with cursor := 0 })

/-- A resumable parser that goes over whole buffers. -/
structure Engine (σ ε κ : Type) where
  /-- Reads the next unit. -/
  walk : Walk σ κ ε
  /-- The state in which a parser that is in some state starts over. -/
  restart : σ → σ
  /-- The event ends what is being parsed. -/
  isFinal : ε → Bool

namespace Engine

variable {σ ε κ : Type}

/-- Starts over at the start of the buffer. -/
def reset (e : Engine σ ε κ) (state : σ) : Kept σ := ⟨e.restart state, 0⟩

/-- Reads the next unit of `buffer`. -/
def parse (e : Engine σ ε κ) (p : Kept σ) (buffer : Bytes) : Answer ε κ × Kept σ :=
  match e.walk ⟨Scanner.start buffer p.cursor, p.state⟩ with
  | .ok event w => (.event event, ⟨w.state, w.pos⟩)
  | .error .more w => (.more, ⟨w.state, w.pos⟩)
  | .error (.fault f) w => (.fault f, e.reset w.state)

/-- The answer ends a run of calls: a fault, a need for more input, or a final event. -/
def endsRun (e : Engine σ ε κ) : Answer ε κ → Bool
  | .event event => e.isFinal event
  | .more => true
  | .fault _ => true

/-- Calls `parse` until an answer ends the run, at most `calls` times. Gives each answer with the
    cursor after it. -/
def run (e : Engine σ ε κ) (p : Kept σ) (buffer : Bytes) :
    Nat → List (Answer ε κ × Nat) × Kept σ
  | 0 => ([], p)
  | calls + 1 =>
    let (answer, q) := e.parse p buffer
    if e.endsRun answer then ([(answer, q.cursor)], q)
    else
      let (answers, last) := e.run q buffer calls
      ((answer, q.cursor) :: answers, last)

end Engine

end PacketWire
