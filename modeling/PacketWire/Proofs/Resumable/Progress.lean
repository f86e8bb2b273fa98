import PacketWire.Proofs.Resumable.Drain
import PacketWire.Proofs.Resumable.Resume

namespace PacketWire

/-!
# Progress

A machine makes progress in the states that it comes to, if each of its units takes bytes, but for a
few that may stand still, and if it waits for bytes and for nothing else (`Machine.Advances`). Its
parser then never goes back, answers with the need for more input as often as it is asked in vain,
and brings the calls with one buffer to an end (`Parser.alwaysProgresses`).
-/

variable {σ ε κ : Type} {m : Machine σ ε κ}

namespace Machine

variable {Valid : σ → Prop} {Still : ε → Prop} {s t : σ} {input : Bytes} {e : ε} {n : Nat}

/-- What a machine does in its valid states, the ones that it comes to: it takes bytes with every
    unit, but for those that may stand still. -/
structure Advances (m : Machine σ ε κ) (Valid : σ → Prop) (Still : ε → Prop) : Prop where
  /-- No step takes more bytes than there are. -/
  isBounded : m.IsBounded
  /-- A machine that starts over does so in a valid state. -/
  restart {s : σ} : Valid s → Valid (m.restart s)
  /-- The state behind a unit is valid, and a unit without bytes is one that may stand still. -/
  emit {s t : σ} {input : Bytes} {e : ε} {n : Nat} :
    Valid s → m.step s input = .emit e t n → Valid t ∧ (0 < n ∨ Still e)
  /-- The state in which more input is needed is valid, and the need is the same there. -/
  wait {s t : σ} {input : Bytes} {n : Nat} :
    Valid s → m.step s input = .wait t n → Valid t ∧ m.step t (input.drop n) = .wait t 0
  /-- Behind a unit without bytes there is at most the end. -/
  still {s t u : σ} {input : Bytes} {e e' : ε} {k : Nat} :
    Valid s → m.step s input = .emit e t 0 → m.isFinal e = false →
      m.step t input = .emit e' u k → m.isFinal e' = true

/-- A machine that goes on with more input as if it had all been there needs more as long as there
    is no more. -/
theorem wait_again (h : m.step s input = .wait t n)
    (hgoes : ∀ back, m.step s (input ++ back) = (m.step t (input.drop n ++ back)).shift n) :
    m.step t (input.drop n) = .wait t 0 := by
  have hshift := hgoes []
  rw [List.append_nil, List.append_nil, h] at hshift
  obtain ⟨j, hj, hn⟩ := Step.shift_eq_wait_iff.1 hshift.symm
  rwa [show j = 0 by omega] at hj

/-- A unit that ends what is being parsed may stand still. -/
theorem Advances.of_isFinal (hbounded : m.IsBounded)
    (hrestart : ∀ {s}, Valid s → Valid (m.restart s))
    (hemit : ∀ {s t input e n}, Valid s → m.step s input = .emit e t n →
      Valid t ∧ (0 < n ∨ Still e))
    (hwait : ∀ {s t input n}, Valid s → m.step s input = .wait t n →
      Valid t ∧ m.step t (input.drop n) = .wait t 0)
    (hfinal : ∀ {e}, Still e → m.isFinal e = true) : m.Advances Valid Still where
  isBounded := hbounded
  restart := hrestart
  emit := hemit
  wait := hwait
  still hs hstep hne := by
    obtain ⟨-, hpos | hstill⟩ := hemit hs hstep
    · exact absurd hpos (Nat.lt_irrefl 0)
    · rw [hfinal hstill] at hne
      cases hne

/-- From every valid state there is a run, with at most one unit more than bytes. -/
theorem Advances.exists_runs (h : m.Advances Valid Still) (hs : Valid s) (input : Bytes) :
    ∃ es r, m.Runs s input es r ∧ es.length ≤ input.length + 1 := by
  induction hlen : input.length using Nat.strongRecOn generalizing s input with
  | ind length ih =>
    subst hlen
    cases hstep : m.step s input with
    | wait t n => exact ⟨[], _, .last hstep trivial, Nat.zero_le _⟩
    | fault f => exact ⟨[], _, .last hstep trivial, Nat.zero_le _⟩
    | emit e t n =>
      cases hfinal : m.isFinal e with
      | true => exact ⟨[], _, .last hstep hfinal, Nat.zero_le _⟩
      | false =>
        have hn := h.isBounded.emit hstep
        obtain ⟨ht, -⟩ := h.emit hs hstep
        by_cases hpos : 0 < n
        -- the bytes behind the unit are fewer
        · have hless : (input.drop n).length < input.length := by
            rw [List.length_drop]
            omega
          obtain ⟨es, r, hruns, hle⟩ := ih _ hless ht (input.drop n) rfl
          refine ⟨e :: es, _, .unit hstep hfinal hruns, ?_⟩
          rw [List.length_cons]
          omega
        -- the next step ends the run
        · obtain rfl := Nat.eq_zero_of_not_pos hpos
          have hends : (m.step t input).EndsRun m := by
            cases hnext : m.step t input with
            | emit e' u k => exact h.still hs hstep hfinal hnext
            | wait u k => trivial
            | fault f => trivial
          exact ⟨[e], _, .unit hstep hfinal (.last rfl hends), Nat.le_add_left _ _⟩

end Machine

namespace Parser

open Machine

variable {Valid : σ → Prop} {Still : ε → Prop} {start p q : Parser m} {buffer : Bytes} {es : List ε}

/-- The parsers that one at the start comes to, whatever buffers it is called with. -/
inductive Reachable (start : Parser m) : Parser m → Prop where
  /-- The one at the start. -/
  | start : Reachable start start
  /-- Behind a call, whatever it gives. -/
  | call {p : Parser m} (buffer : Bytes) : Reachable start p → Reachable start (p.parse buffer).2
  /-- With a buffer from which what has been read was dropped. -/
  | discard {p : Parser m} : Reachable start p → Reachable start p.discard.2
  /-- Starting over. -/
  | reset {p : Parser m} : Reachable start p → Reachable start p.reset

/-- Calls with one buffer, one after the other and with no bound on their number, come to an end and
    give these answers. -/
inductive Drains (buffer : Bytes) : Parser m → List (Answer ε κ) → Prop where
  /-- The call ends the run. -/
  | last {p q : Parser m} {answer : Answer ε κ} :
      p.parse buffer = (answer, q) → endsRun m answer = true → Drains buffer p [answer]
  /-- A unit, and the calls behind it. -/
  | unit {p q : Parser m} {e : ε} {answers : List (Answer ε κ)} :
      p.parse buffer = (.event e, q) → m.isFinal e = false → Drains buffer q answers →
        Drains buffer p (.event e :: answers)

/-- What the calls of a parser with a buffer do, if only certain units may stand still. -/
structure Progresses (Still : ε → Prop) (p : Parser m) (buffer : Bytes) : Prop where
  /-- The cursor stays within the buffer, -/
  cursor_le : (p.parse buffer).2.cursor ≤ buffer.length
  /-- and never goes back, but for starting over. -/
  le_cursor : (∀ f, (p.parse buffer).1 ≠ .fault f) → p.cursor ≤ (p.parse buffer).2.cursor
  /-- Every unit moves it forward, unless it may stand still. -/
  lt_cursor : ∀ e q, p.parse buffer = (.event e, q) → p.cursor < q.cursor ∨ Still e
  /-- A parser that needs more input needs it again, and does not change. -/
  more : ∀ q, p.parse buffer = (.more, q) → q.parse buffer = (.more, q)
  /-- The calls come to an end, and `drain` gives the answers of all of them. -/
  drains : Drains buffer p (p.drain buffer)

/-- The calls of all parsers that one at the start comes to make progress, wherever the cursor is
    within the buffer. -/
def AlwaysProgresses (Still : ε → Prop) (start : Parser m) : Prop :=
  ∀ p buffer, Reachable start p → p.cursor ≤ buffer.length → Progresses Still p buffer

/-- Calls that give units, none of which is final, and one that ends the run. -/
theorem drains_of_reads (h : Reads buffer p es q) (hes : ∀ e ∈ es, m.isFinal e = false)
    (hends : endsRun m (q.parse buffer).1 = true) :
    Drains buffer p (es.map .event ++ [(q.parse buffer).1]) := by
  induction h with
  | refl p => exact .last rfl hends
  | step hparse _ ih =>
    obtain ⟨hne, hes⟩ := List.forall_mem_cons.1 hes
    exact .unit hparse hne (ih hes hends)

theorem Reachable.valid (h : Reachable start p) (hm : m.Advances Valid Still)
    (hstart : Valid start.state) : Valid p.state := by
  induction h with
  | start => exact hstart
  | discard _ ih => exact ih
  | reset _ ih => exact hm.restart ih
  | @call p buffer _ ih =>
    rw [parse]
    cases hstep : m.step p.state (buffer.drop (min p.cursor buffer.length)) with
    | emit e t n => exact (hm.emit ih hstep).1
    | wait t n => exact (hm.wait ih hstep).1
    | fault f => exact hm.restart ih

/-- The calls of a parser come to an end if its machine makes progress, and there are no more of
    them than `drain` makes. -/
theorem drains_drain (hm : m.Advances Valid Still) (hp : Valid p.state)
    (hc : p.cursor ≤ buffer.length) : Drains buffer p (p.drain buffer) := by
  obtain ⟨es, r, hruns, hle⟩ := hm.exists_runs hp (buffer.drop p.cursor)
  rw [List.length_drop] at hle
  obtain ⟨hes, q, hreads, hq⟩ := reads_of_runs hm.isBounded hc hruns
  have hends : endsRun m (q.parse buffer).1 = true := by
    rw [hq]
    exact endsRun_answer_iff.2 (hruns.endsRun.shift p.cursor)
  have hdrain : p.drain buffer = es.map .event ++ [(p.answer (r.shift p.cursor)).1] :=
    run_of_runs hm.isBounded hc hruns (by omega)
  have hdrains := drains_of_reads hreads hes hends
  rwa [hq, fst_answer q p, ← hdrain] at hdrains

/-- The calls of a parser make progress if its machine does. -/
theorem progresses (hm : m.Advances Valid Still) (hp : Valid p.state)
    (hc : p.cursor ≤ buffer.length) : Progresses Still p buffer where
  cursor_le := by
    rw [parse_of_le hc]
    cases hstep : m.step p.state (buffer.drop p.cursor) with
    | fault f => exact Nat.zero_le _
    | emit e t n =>
      have hn := hm.isBounded.emit hstep
      rw [List.length_drop] at hn
      exact show p.cursor + n ≤ buffer.length by omega
    | wait t n =>
      have hn := hm.isBounded.wait hstep
      rw [List.length_drop] at hn
      exact show p.cursor + n ≤ buffer.length by omega
  le_cursor hne := by
    rw [parse_of_le hc] at hne ⊢
    cases hstep : m.step p.state (buffer.drop p.cursor) with
    | fault f =>
      rw [hstep] at hne
      exact absurd rfl (hne _)
    | emit e t n => exact Nat.le_add_right ..
    | wait t n => exact Nat.le_add_right ..
  lt_cursor e q h := by
    obtain ⟨t, n, hstep, rfl⟩ := (parse_eq_event_iff hc).1 h
    exact (hm.emit hp hstep).2.imp_left Nat.lt_add_of_pos_right
  -- behind the bytes that it has taken the machine waits at once, so the next call is in vain
  more q h := by
    obtain ⟨t, n, hstep, rfl⟩ := (parse_eq_more_iff hc).1 h
    have hn := hm.isBounded.wait hstep
    obtain ⟨-, hagain⟩ := hm.wait hp hstep
    rw [List.length_drop] at hn
    rw [List.drop_drop] at hagain
    have hc' : p.cursor + n ≤ buffer.length := by omega
    exact (parse_eq_more_iff (p := ⟨t, p.cursor + n⟩) hc').2 ⟨t, 0, hagain, rfl⟩
  drains := drains_drain hm hp hc

/-- The calls of every parser that one at a valid start comes to make progress. -/
theorem alwaysProgresses (hm : m.Advances Valid Still) (hstart : Valid start.state) :
    AlwaysProgresses Still start :=
  fun _ _ hp hc => progresses hm (hp.valid hm hstart) hc

end Parser

end PacketWire
