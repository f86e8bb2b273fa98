import PacketWire.Proofs.Scanner.Packet
import PacketWire.Proofs.Scanner.Values

namespace PacketWire

/-!
# Dropping what has been read

The bytes in front of the cursor may be dropped from the buffer at any time. Nobody who calls a
parser can tell, although it goes over the whole buffer: a call gives what it would have given with
these bytes, and leaves the parser in the same state, with its cursor in the same place of the input
(`Engine.Simulates.parse_discard`). So a session that drops bytes now and then stays alike one that
never does (`Session.Alike`), and gives the same answers (`Session.Alike.answers_eq`).
-/

variable {σ τ ε κ : Type}

/-- The same answer of a parser whose buffer has `n` more bytes in front. -/
def Answer.shift (n : Nat) : Answer ε κ → Answer ε κ
  | event e => .event e
  | more => .more
  | fault f => .fault (f.shift n)

/-! ### One call -/

/-- What a call gives if the buffer has `n` more bytes in front, all of them read: a fault lies,
    and the cursor stands, as many bytes further on. A parser that has started over stands at the
    start of the buffer, whatever that is. -/
def Kept.behind (n : Nat) : Answer ε κ × Kept σ → Answer ε κ × Kept σ
  | (.fault f, q) => (.fault (f.shift n), q)
  | (answer, q) => (answer, { q with cursor := n + q.cursor })

namespace Engine

variable {e : Engine σ ε κ} {m : Machine τ ε κ} {view : σ → τ} {keep : σ → τ → σ}
  {p : Kept σ} {buffer : Bytes}

/-- A call depends on the bytes ahead alone, and so it gives the same whether or not what has been
    read was dropped before. -/
theorem Simulates.parse_discard (h : e.Simulates m view keep) (hc : p.cursor ≤ buffer.length) :
    e.parse p buffer = Kept.behind p.discard.1 (e.parse p.discard.2 (buffer.drop p.discard.1)) := by
  have hwhole : (p.shown view : Parser m).parse buffer = _ := Parser.parse_of_le hc
  have hdropped : (p.discard.2.shown view : Parser m).parse (buffer.drop p.discard.1) = _ :=
    Parser.parse_of_le (Nat.zero_le _)
  rw [h.parse_eq, h.parse_eq, hwhole, hdropped]
  simp only [Kept.shown, Kept.discard, List.drop_zero, Step.shift_zero]
  cases m.step (view p.state) (buffer.drop p.cursor) with
  | emit e' t n => rfl
  | wait t n => rfl
  | fault f => rfl

/-- A call never takes the cursor beyond the end of the buffer. -/
theorem Simulates.cursor_le (h : e.Simulates m view keep) (p : Kept σ) (buffer : Bytes) :
    (e.parse p buffer).2.cursor ≤ buffer.length := by
  have hwithin : Walker.IsWithin ⟨Scanner.start buffer p.cursor, p.state⟩ := Nat.min_le_right _ _
  have hreports := h.walk _ hwithin
  have hle : ∀ {v n}, Walker.Moved ⟨Scanner.start buffer p.cursor, p.state⟩ n v →
      v.pos ≤ buffer.length := fun hmoved =>
    (hmoved.isWithin hwithin).trans_eq (congrArg List.length hmoved.buffer)
  unfold parse
  generalize e.walk ⟨Scanner.start buffer p.cursor, p.state⟩ = r at hreports
  generalize m.step _ _ = s at hreports
  cases hreports with
  | emit hmoved _ => exact hle hmoved
  | wait hmoved _ => exact hle hmoved
  | fault _ => exact Nat.zero_le _

end Engine

/-! ### Sessions -/

/-- What is done with a parser and its buffer. -/
inductive Action where
  /-- More input is put behind what is in the buffer. -/
  | feed (more : Bytes)
  /-- The parser is called. -/
  | call
  /-- What has been read is dropped from the buffer. -/
  | discard
deriving DecidableEq, Repr

/-- A parser with its buffer. -/
structure Session (σ : Type) where
  /-- What the parser keeps. -/
  parser : Kept σ
  /-- The input that has come, without what was dropped of it. -/
  buffer : Bytes
  /-- How many bytes have been dropped in front of the buffer. -/
  dropped : Nat

namespace Session

/-- A session in front of all input. -/
def start (p : Kept σ) : Session σ := ⟨p, [], 0⟩

/-- More input comes. -/
def feed (more : Bytes) (s : Session σ) : Session σ := { s with buffer := s.buffer ++ more }

/-- Drops what has been read. -/
def discard (s : Session σ) : Session σ :=
  let (read, parser) := s.parser.discard
  ⟨parser, s.buffer.drop read, s.dropped + read⟩

/-- Calls the parser. The place of a fault is counted from the start of all input. -/
def call (e : Engine σ ε κ) (s : Session σ) : Answer ε κ × Session σ :=
  let (answer, parser) := e.parse s.parser s.buffer
  (answer.shift s.dropped, { s with parser })

/-- The parser is done with `n` more bytes, and knows `state` from them. -/
def forward (state : σ) (n : Nat) (s : Session σ) : Session σ :=
  { s with parser := ⟨state, s.parser.cursor + n⟩ }

/-- What the calls of a session answer, up to the first fault. -/
def answers (e : Engine σ ε κ) (s : Session σ) : List Action → List (Answer ε κ)
  | [] => []
  | .feed more :: actions => (s.feed more).answers e actions
  | .discard :: actions => s.discard.answers e actions
  | .call :: actions =>
    match s.call e with
    | (.fault f, _) => [.fault f]
    | (answer, t) => answer :: t.answers e actions

/-- The parser has not gone past the end of the buffer. -/
def IsWithin (s : Session σ) : Prop := s.parser.cursor ≤ s.buffer.length

/-- Two sessions are at the same place of the same input; they may have dropped more or less of
    it. -/
structure Alike (s t : Session σ) : Prop where
  /-- The parsers know the same. -/
  state : s.parser.state = t.parser.state
  /-- The cursors stand at the same place of the input. -/
  place : s.dropped + s.parser.cursor = t.dropped + t.parser.cursor
  /-- The same bytes lie ahead. -/
  ahead : s.buffer.drop s.parser.cursor = t.buffer.drop t.parser.cursor
  /-- The one cursor is within its buffer. -/
  within : s.IsWithin
  /-- And so is the other. -/
  within' : t.IsWithin

variable {s t : Session σ} {more : Bytes} {n : Nat} {actions : List Action}

/-- A session is at its own place. -/
theorem Alike.refl (h : s.IsWithin) : s.Alike s := ⟨rfl, rfl, rfl, h, h⟩

/-- More input leaves the cursor within the buffer. -/
theorem IsWithin.feed (h : s.IsWithin) : (s.feed more).IsWithin := by
  rw [IsWithin, Session.feed, List.length_append]
  exact Nat.le_add_right_of_le h

/-- A cursor that is set back to the start is within any buffer. -/
theorem IsWithin.discard : s.discard.IsWithin := Nat.zero_le _

/-- More input lies ahead of both. -/
theorem Alike.feed (h : s.Alike t) : (s.feed more).Alike (t.feed more) where
  state := h.state
  place := h.place
  ahead := by
    rw [Session.feed, Session.feed, List.drop_append_of_le_length h.within,
      List.drop_append_of_le_length h.within', h.ahead]
  within := h.within.feed
  within' := h.within'.feed

/-- A session may drop what it has read. -/
theorem Alike.discard (h : s.Alike t) : s.discard.Alike t where
  state := h.state
  place := h.place
  ahead := h.ahead
  within := IsWithin.discard
  within' := h.within'

/-- Sessions at the same place are at the same place as many bytes further on. -/
theorem Alike.forward (h : s.Alike t) (u : σ) (hn : n ≤ (s.buffer.drop s.parser.cursor).length) :
    (s.forward u n).Alike (t.forward u n) where
  state := rfl
  place := by
    rw [Session.forward, Session.forward]
    dsimp only
    rw [← Nat.add_assoc, ← Nat.add_assoc, h.place]
  ahead := by
    rw [Session.forward, Session.forward]
    dsimp only
    rw [← List.drop_drop, ← List.drop_drop, h.ahead]
  within := by
    have hwithin : s.parser.cursor ≤ s.buffer.length := h.within
    rw [List.length_drop] at hn
    exact show s.parser.cursor + n ≤ s.buffer.length by omega
  within' := by
    have hwithin : t.parser.cursor ≤ t.buffer.length := h.within'
    rw [h.ahead, List.length_drop] at hn
    exact show t.parser.cursor + n ≤ t.buffer.length by omega

section

variable {e : Engine σ ε κ} {m : Machine τ ε κ} {view : σ → τ} {keep : σ → τ → σ}

/-- A call is one with the bytes ahead alone. -/
theorem call_eq (he : e.Simulates m view keep) (h : s.IsWithin) :
    s.call e =
      match e.parse ⟨s.parser.state, 0⟩ (s.buffer.drop s.parser.cursor) with
      | (.fault f, q) => (.fault (f.shift (s.dropped + s.parser.cursor)), { s with parser := q })
      | (answer, q) => (answer, s.forward q.state q.cursor) := by
  rw [call, he.parse_discard h]
  dsimp only [Kept.discard]
  generalize e.parse ⟨s.parser.state, 0⟩ (s.buffer.drop s.parser.cursor) = called
  rcases called with ⟨answer, q⟩
  cases answer with
  | event e' => rfl
  | more => rfl
  | fault f =>
    exact Prod.ext (congrArg Answer.fault (Fault.shift_shift s.dropped s.parser.cursor f)) rfl

/-- Sessions at the same place meet the same fault, or give the same answer and are at the same
    place behind it. -/
theorem Alike.call (he : e.Simulates m view keep) (h : s.Alike t) :
    (∃ f s' t', s.call e = (.fault f, s') ∧ t.call e = (.fault f, t')) ∨
      ∃ a s' t', (∀ f, a ≠ .fault f) ∧ s.call e = (a, s') ∧ t.call e = (a, t') ∧ s'.Alike t' := by
  have hle := he.cursor_le ⟨s.parser.state, 0⟩ (s.buffer.drop s.parser.cursor)
  rw [call_eq he h.within, call_eq he h.within', ← h.state, ← h.ahead]
  generalize e.parse ⟨s.parser.state, 0⟩ (s.buffer.drop s.parser.cursor) = called at hle
  rcases called with ⟨answer, q⟩
  cases answer with
  | event e' => exact .inr ⟨.event e', _, _, nofun, rfl, rfl, h.forward q.state hle⟩
  | more => exact .inr ⟨.more, _, _, nofun, rfl, rfl, h.forward q.state hle⟩
  | fault f =>
    rw [h.place]
    exact .inl ⟨_, _, _, rfl, rfl⟩

/-- Sessions at the same place give the same answers from there on if the one does what the other
    does, but for dropping what has been read. -/
theorem Alike.answers_eq (he : e.Simulates m view keep) (h : s.Alike t) :
    s.answers e actions = t.answers e (actions.filter (· ≠ .discard)) := by
  induction actions generalizing s t with
  | nil => rfl
  | cons action actions ih =>
    cases action with
    | feed more =>
      rw [List.filter_cons_of_pos (by simp), answers, answers]
      exact ih h.feed
    | discard =>
      -- what is dropped on the one side has been read on either
      rw [List.filter_cons_of_neg (by simp), answers]
      exact ih h.discard
    | call =>
      rw [List.filter_cons_of_pos (by simp), answers, answers]
      obtain ⟨f, s', t', hs, ht⟩ | ⟨a, s', t', hne, hs, ht, halike⟩ := h.call he
      · rw [hs, ht]
      · rw [hs, ht]
        cases a with
        | event e' => exact congrArg (Answer.event e' :: ·) (ih halike)
        | more => exact congrArg (Answer.more :: ·) (ih halike)
        | fault f => exact absurd rfl (hne f)

end

end Session

/-! ### The parsers -/

/-- Nobody who calls a parser can tell what is dropped in front of its cursor. -/
structure Engine.IgnoresDropped (e : Engine σ ε κ) : Prop where
  /-- A call, from any state and with any buffer, gives the same with the bytes dropped: the
      same unit, the same need for more input, or the same fault at a place that is counted from
      the cursor. The parser then is in the same state, its cursor counted likewise; after a
      fault it is just the same. -/
  call : ∀ (p : Kept σ) (buffer : Bytes), p.cursor ≤ buffer.length →
    e.parse p buffer = Kept.behind p.cursor (e.parse p.discard.2 (buffer.drop p.cursor))
  /-- A session gives the same answers wherever bytes are dropped between its other actions. -/
  answers : ∀ (s : Session σ) (actions : List Action), s.IsWithin →
    s.answers e actions = s.answers e (actions.filter (· ≠ .discard))

/-- What the bytes ahead do not tell, an engine that simulates a machine does not depend on. -/
theorem Engine.Simulates.ignoresDropped {e : Engine σ ε κ} {m : Machine τ ε κ} {view : σ → τ}
    {keep : σ → τ → σ} (he : e.Simulates m view keep) : e.IgnoresDropped where
  call _ _ := he.parse_discard
  answers _ _ h := (Session.Alike.refl h).answers_eq he

/-- What has been read may be dropped at any time, whichever parser has read it. -/
theorem dropped_unobservable :
    ListValue.engine.IgnoresDropped ∧ DictValue.engine.IgnoresDropped ∧
      Path.engine.IgnoresDropped ∧ Update.engine.IgnoresDropped ∧
      Packet.engine.IgnoresDropped :=
  ⟨ListValue.engine_simulates.ignoresDropped, DictValue.engine_simulates.ignoresDropped,
    Path.engine_simulates.ignoresDropped, Update.engine_simulates.ignoresDropped,
    Packet.engine_simulates.ignoresDropped⟩

/-- An update whose operand comes in two parts, dropped as it is read, or not at all; the fault
    behind it lies at the same place of the input. -/
theorem answers_update_dropped :
    (Session.start ⟨Update.Nested.start, 0⟩).answers Update.engine
        [.feed (Bytes.ofText "#1@:4 ab"), .call, .discard, .call, .call, .discard,
          .feed (Bytes.ofText "cd!"), .call, .discard, .call] =
      [.event (.path (.segment (.index 1))), .event (.operator .update),
        .event (.opening [] (Bytes.ofText "ab") 4), .event (.piece (Bytes.ofText "cd") true),
        .fault ⟨.trailingBytes, 10⟩] :=
  (dropped_unobservable.2.2.2.1.answers (Session.start ⟨Update.Nested.start, 0⟩) _
    (Nat.zero_le _)).trans (by decide +kernel)

end PacketWire
