import PacketWire.Proofs.Resumable.Calls
import PacketWire.Proofs.Scanner

namespace PacketWire

/-!
# Engines simulate machines

A walk for a unit reports what a step tells of the bytes ahead: it gives the same event and goes on
by as many bytes, or waits where the step does, or meets the same fault (`Walk.Reports`). An engine
whose walks report the steps of a machine simulates the machine (`Engine.Simulates`), and a call of
the one gives what a call of the other gives (`Engine.Simulates.parse_eq`).

The states need not be the same. A state of the engine shows one of the machine (`view`), and what
it has become can be told from what it was and what it shows then (`keep`).
-/

variable {σ τ ε κ α : Type}

/-! ### Going on -/

/-- The walker in some state, where a unit starts. -/
def Walker.begun (w : Walker σ) (state : σ) : Walker σ := { w with mark := w.pos, state }

/-- The walker `v` is `n` bytes further on in the buffer of `w`. -/
structure Walker.Moved (w : Walker σ) (n : Nat) (v : Walker σ) : Prop where
  /-- The buffer is the same. -/
  buffer : v.buffer = w.buffer
  /-- The position has gone on. -/
  pos : v.pos = w.pos + n
  /-- So many bytes were ahead. -/
  le : n ≤ w.ahead.length

namespace Walker.Moved

variable {u v w : Walker σ} {m n : Nat}

/-- Going on by bytes that are ahead stays within the buffer. -/
theorem forward (hn : n ≤ w.ahead.length) : w.Moved n (w.forward n) := ⟨rfl, rfl, hn⟩

/-- What is ahead then is what was ahead, without the bytes in between. -/
theorem ahead_eq (h : w.Moved n v) : v.ahead = w.ahead.drop n := by
  rw [Walker.ahead, Walker.ahead, h.buffer, h.pos, List.drop_drop]

/-- Going on twice is going on by the sum. -/
theorem trans (h : w.Moved m v) (h' : v.Moved n u) : w.Moved (m + n) u where
  buffer := h'.buffer.trans h.buffer
  pos := by rw [h'.pos, h.pos, Nat.add_assoc]
  le := by
    have hle := h.le
    have hle' := h'.le
    rw [h.ahead_eq, List.length_drop] at hle'
    omega

/-- Nobody who is within the buffer goes beyond it so. -/
theorem isWithin (h : w.Moved n v) (hw : w.IsWithin) : v.IsWithin := by
  have hpos : w.pos ≤ w.buffer.length := hw
  have hle := h.le
  rw [w.length_ahead] at hle
  show v.pos ≤ v.buffer.length
  rw [h.pos, h.buffer]
  omega

end Walker.Moved

/-! ### Reporting a step -/

namespace Walk

/-- What a walk for a unit has come to from `w` is what a step from the bytes ahead of `w` tells.
    A fault leaves a state from which the parser starts over as from that of `w`. -/
inductive Reports (restart : σ → σ) (keep : τ → σ) (w : Walker σ) :
    EStateM.Result (Halt κ) (Walker σ) ε → Step τ ε κ → Prop where
  /-- The same unit. -/
  | emit {v : Walker σ} {e : ε} {t : τ} {n : Nat} :
      w.Moved n v → v.state = keep t → Reports restart keep w (.ok e v) (.emit e t n)
  /-- Both wait at the same place. -/
  | wait {v : Walker σ} {t : τ} {n : Nat} :
      w.Moved n v → v.state = keep t → Reports restart keep w (.error .more v) (.wait t n)
  /-- The same fault; its place is counted from the start of the buffer. -/
  | fault {v : Walker σ} {f : Fault κ} : restart v.state = restart w.state →
      Reports restart keep w (.error (.fault (f.shift w.pos)) v) (.fault f)

variable {restart : σ → σ} {keep : τ → σ} {v w : Walker σ} {n : Nat} {waiting : τ}

/-- What has been reported from further on. -/
theorem Reports.shift {r : EStateM.Result (Halt κ) (Walker σ) ε} {s : Step τ ε κ}
    (h : Reports restart keep v r s) (hv : w.Moved n v)
    (hrestart : restart v.state = restart w.state) : Reports restart keep w r (s.shift n) := by
  cases h with
  | emit hmoved hstate => exact .emit (hv.trans hmoved) hstate
  | wait hmoved hstate => exact .wait (hv.trans hmoved) hstate
  | @fault u f hu =>
    have hplace : f.shift v.pos = (f.shift n).shift w.pos := by
      rw [hv.pos, Fault.shift_shift]
    rw [hplace]
    exact .fault (hu.trans hrestart)

/-- What has been reported from the same place. -/
theorem Reports.here {r : EStateM.Result (Halt κ) (Walker σ) ε} {s : Step τ ε κ}
    (h : Reports restart keep v r s) (hv : w.Moved 0 v)
    (hrestart : restart v.state = restart w.state) : Reports restart keep w r s :=
  s.shift_zero ▸ h.shift hv hrestart

/-- A unit starts, and a walk goes on behind what a scan has found. Where that needs more, the
    walker is at the start of the unit again. -/
theorem Follows.andThen {walk : Walk σ κ α} {scan : Scan κ α} {next : α → Walk σ κ ε}
    {stepNext : α → Bytes → Step τ ε κ} {state : σ} (h : Follows walk scan) (hw : w.IsWithin)
    (hstate : state = keep waiting) (hrestart : restart state = restart w.state)
    (hnext : ∀ a v, v.IsWithin → v.state = state →
      Reports restart keep v (next a v) (stepNext a v.ahead)) :
    Reports restart keep w ((walk >>= next) (w.begun state))
      (Step.andThen scan waiting stepNext w.ahead) := by
  have htracks := h (w.begun state) hw
  rw [show (w.begun state).ahead = w.ahead from rfl] at htracks
  unfold Step.andThen
  show Reports restart keep w (EStateM.bind walk next (w.begun state)) _
  unfold EStateM.bind
  generalize walk (w.begun state) = r at htracks
  generalize scan w.ahead = o at htracks
  -- The walk has moved by as much as the scan has used. What comes next is told from there, and
  -- brought back to the start of the unit.
  cases htracks with
  | @done a n hn =>
    have hmoved : w.Moved n ((w.begun state).forward n) := ⟨rfl, rfl, hn⟩
    have hreports := hnext a _ (hmoved.isWithin hw) rfl
    rw [hmoved.ahead_eq] at hreports
    exact hreports.shift hmoved hrestart
  | more => exact .wait ⟨rfl, rfl, Nat.zero_le _⟩ hstate
  | fault hv => exact .fault ((congrArg restart hv).trans hrestart)

section

variable {waiting : σ}

/-- A unit is reported. -/
theorem Follows.report {unit : Walk σ κ (ε × σ)} {scan : Scan κ (ε × σ)} (h : Follows unit scan)
    (hw : w.IsWithin) (hrestart : restart waiting = restart w.state) :
    Reports restart id w (report unit (w.begun waiting)) (Step.ofScan scan waiting w.ahead) :=
  h.andThen hw rfl hrestart fun _ _ _ _ => .emit ⟨rfl, rfl, Nat.zero_le _⟩ rfl

/-- A unit is reported, or what may come in its place. -/
theorem Follows.reportOr {unit : Walk σ κ (Option (ε × σ))} {scan : Scan κ (Option (ε × σ))}
    {next : Walk σ κ ε} {stepNext : Bytes → Step σ ε κ} (h : Follows unit scan)
    (hw : w.IsWithin) (hrestart : restart waiting = restart w.state)
    (hnext : ∀ v, v.IsWithin → v.state = waiting →
      Reports restart id v (next v) (stepNext v.ahead)) :
    Reports restart id w (reportOr unit next (w.begun waiting))
      (Step.ofScan? scan waiting stepNext w.ahead) :=
  h.andThen hw rfl hrestart fun found v hv hstate =>
    match found with
    | some _ => .emit ⟨rfl, rfl, Nat.zero_le _⟩ rfl
    | none => hnext v hv hstate

end

end Walk

/-! ### Engines and machines -/

/-- What an engine does is what a machine tells. -/
structure Engine.Simulates (e : Engine σ ε κ) (m : Machine τ ε κ) (view : σ → τ)
    (keep : σ → τ → σ) : Prop where
  /-- A walk reports a step. -/
  walk : ∀ w : Walker σ, w.IsWithin →
    Walk.Reports e.restart (keep w.state) w (e.walk w) (m.step (view w.state) w.ahead)
  /-- What is kept shows what the machine knows. -/
  view_keep : ∀ s t, view (keep s t) = t
  /-- Both start over alike. -/
  view_restart : ∀ s, view (e.restart s) = m.restart (view s)
  /-- The same events are final. -/
  isFinal : e.isFinal = m.isFinal

/-- The parser that what is kept shows. -/
def Kept.shown {m : Machine τ ε κ} (view : σ → τ) (p : Kept σ) : Parser m :=
  ⟨view p.state, p.cursor⟩

namespace Engine

variable {e : Engine σ ε κ} {m : Machine τ ε κ} {view : σ → τ} {keep : σ → τ → σ}
  {p : Kept σ} {buffer : Bytes}

/-- What an engine keeps in place of what the machine does. -/
def keeping (e : Engine σ ε κ) (keep : σ → τ → σ) (p : Kept σ) :
    Answer ε κ × Parser m → Answer ε κ × Kept σ
  | (.fault f, _) => (.fault f, e.reset p.state)
  | (answer, q) => (answer, ⟨keep p.state q.state, q.cursor⟩)

/-- A call of an engine gives what a call of the machine gives. -/
theorem Simulates.parse_eq (h : e.Simulates m view keep) (p : Kept σ) (buffer : Bytes) :
    e.parse p buffer = e.keeping keep p ((p.shown view : Parser m).parse buffer) := by
  have hreports := h.walk ⟨Scanner.start buffer p.cursor, p.state⟩ (Nat.min_le_right _ _)
  unfold parse Parser.parse
  dsimp only [Kept.shown]
  rw [show (⟨Scanner.start buffer p.cursor, p.state⟩ : Walker σ).ahead =
    buffer.drop (min p.cursor buffer.length) from rfl] at hreports
  generalize e.walk ⟨Scanner.start buffer p.cursor, p.state⟩ = r at hreports
  generalize m.step (view p.state) (buffer.drop (min p.cursor buffer.length)) = s at hreports
  cases hreports with
  | @emit v e' t n hmoved hstate =>
    dsimp only
    rw [hmoved.pos, hstate]
    rfl
  | @wait v t n hmoved hstate =>
    dsimp only
    rw [hmoved.pos, hstate]
    rfl
  | @fault v f hrestart =>
    dsimp only [reset]
    rw [hrestart]
    rfl

/-- Answers and cursors of an engine are those of the machine, and what is known shows the same. -/
theorem Simulates.shown_parse (h : e.Simulates m view keep) (p : Kept σ) (buffer : Bytes) :
    ((e.parse p buffer).1, ((e.parse p buffer).2.shown view : Parser m)) =
      (p.shown view : Parser m).parse buffer := by
  have hshown : ∀ q : Parser m, (⟨view (keep p.state q.state), q.cursor⟩ : Parser m) = q :=
    fun q => by rw [h.view_keep]
  rw [h.parse_eq]
  rcases hq : (p.shown view : Parser m).parse buffer with ⟨answer, q⟩
  cases answer with
  | event e' => exact congrArg (Prod.mk _) (hshown q)
  | more => exact congrArg (Prod.mk _) (hshown q)
  | fault f =>
    rw [Parser.eq_reset_of_fault hq]
    exact congrArg (fun t => (Answer.fault f, (⟨t, 0⟩ : Parser m))) (h.view_restart p.state)

/-- The same answers end a run. -/
theorem Simulates.endsRun_eq (h : e.Simulates m view keep) (answer : Answer ε κ) :
    e.endsRun answer = Parser.endsRun m answer := by
  cases answer with
  | event e' => exact congrFun h.isFinal e'
  | more => rfl
  | fault f => rfl

/-- A run of calls of an engine is a run of calls of the machine: the same answers in the same
    places, up to the same parser. -/
theorem Simulates.shown_run (h : e.Simulates m view keep) (p : Kept σ) (buffer : Bytes)
    (calls : Nat) :
    ((e.run p buffer calls).1, ((e.run p buffer calls).2.shown view : Parser m)) =
      (p.shown view : Parser m).run buffer calls := by
  induction calls generalizing p with
  | zero => rfl
  | succ calls ih =>
    rw [run, Parser.run, ← h.shown_parse p buffer]
    generalize e.parse p buffer = called
    rcases called with ⟨answer, q⟩
    dsimp only
    rw [h.endsRun_eq]
    split
    · rfl
    · rw [← ih q]
      rfl

end Engine

end PacketWire
