import PacketWire.Proofs.Resumable.Runs

namespace PacketWire

/-!
# Draining a buffer

The calls of a parser with one buffer are bounded in number, so they may stop before the run does.
Else what they answer is told by the run of its machine (`Parser.run_cases`), and so it is where
there are more calls than units (`Parser.drain_of_runs`). What is read off the answers, but not off
units alone, therefore is read off a run that comes to its end (`Parser.exists_runs_of_drain`).
-/

variable {σ ε κ : Type} {m : Machine σ ε κ} {buffer : Bytes}

open Machine

/-- What a parser answers to a step does not depend on the parser. -/
theorem Parser.fst_answer (p q : Parser m) (r : Step σ ε κ) : (p.answer r).1 = (q.answer r).1 := by
  cases r <;> rfl

namespace Parser

variable {p : Parser m} {e : ε} {t : σ} {es : List ε} {r : Step σ ε κ} {n calls : Nat}

theorem endsRun_answer_iff : endsRun m (p.answer r).1 = true ↔ r.EndsRun m := by
  cases r <;> simp [answer, endsRun, Step.EndsRun]

/-- A step that ends the run is the only one. -/
theorem run_of_last (hc : p.cursor ≤ buffer.length)
    (hstep : m.step p.state (buffer.drop p.cursor) = r) (hends : r.EndsRun m) :
    (p.run buffer (calls + 1)).1.map Prod.fst = [(p.answer (r.shift p.cursor)).1] := by
  have hanswer := (@endsRun_answer_iff _ _ _ m p _).2 (hends.shift p.cursor)
  rw [run, parse_of_le hc, hstep]
  simp only [hanswer, if_true]
  rfl

/-- A unit comes in front of what the calls behind it answer. -/
theorem run_of_unit (hc : p.cursor ≤ buffer.length)
    (hstep : m.step p.state (buffer.drop p.cursor) = .emit e t n) (hne : m.isFinal e = false) :
    (p.run buffer (calls + 1)).1.map Prod.fst =
      .event e :: ((⟨t, p.cursor + n⟩ : Parser m).run buffer calls).1.map Prod.fst := by
  rw [run, parse_of_le hc, hstep]
  simp only [Step.shift, answer, endsRun, hne]
  rfl

/-- Calls answer with the units of a run and with the step that ends it, or with units none of which
    is final. -/
theorem run_cases (hm : m.IsBounded) (hc : p.cursor ≤ buffer.length) (calls : Nat) :
    (∃ es r, m.Runs p.state (buffer.drop p.cursor) es r ∧
      (p.run buffer calls).1.map Prod.fst =
        es.map .event ++ [(p.answer (r.shift p.cursor)).1]) ∨
      ∃ es : List ε, (∀ e ∈ es, m.isFinal e = false) ∧
        (p.run buffer calls).1.map Prod.fst = es.map .event := by
  -- The calls run out, or before that there is a step that ends the run.
  induction calls generalizing p with
  | zero => exact .inr ⟨[], nofun, rfl⟩
  | succ calls ih =>
    cases hstep : m.step p.state (buffer.drop p.cursor) with
    | wait t n => exact .inl ⟨[], _, .last hstep trivial, run_of_last hc hstep trivial⟩
    | fault f => exact .inl ⟨[], _, .last hstep trivial, run_of_last hc hstep trivial⟩
    | emit e t n =>
      cases hfinal : m.isFinal e with
      | true => exact .inl ⟨[], _, .last hstep hfinal, run_of_last hc hstep hfinal⟩
      | false =>
        have hn := hm.emit hstep
        rw [List.length_drop] at hn
        obtain ⟨es, r, hruns, hanswers⟩ | ⟨es, hes, hanswers⟩ :=
          @ih ⟨t, p.cursor + n⟩ (show p.cursor + n ≤ _ by omega)
        · rw [← List.drop_drop] at hruns
          refine .inl ⟨e :: es, _, .unit hstep hfinal hruns, ?_⟩
          rw [run_of_unit hc hstep hfinal, hanswers, Step.shift_shift, fst_answer p]
          rfl
        · refine .inr ⟨e :: es, List.forall_mem_cons.2 ⟨hfinal, hes⟩, ?_⟩
          rw [run_of_unit hc hstep hfinal, hanswers]
          rfl

/-- Enough calls answer with a whole run. -/
theorem run_of_runs (hm : m.IsBounded) (hc : p.cursor ≤ buffer.length)
    (h : m.Runs p.state (buffer.drop p.cursor) es r) (hcalls : es.length < calls) :
    (p.run buffer calls).1.map Prod.fst =
      es.map .event ++ [(p.answer (r.shift p.cursor)).1] := by
  induction es generalizing p r calls with
  | nil =>
    obtain ⟨calls, rfl⟩ := Nat.exists_eq_succ_of_ne_zero (Nat.ne_zero_of_lt hcalls)
    cases h with
    | last hstep hends => exact run_of_last hc hstep hends
  | cons e es ih =>
    obtain ⟨calls, rfl⟩ := Nat.exists_eq_succ_of_ne_zero (Nat.ne_zero_of_lt hcalls)
    obtain ⟨t, n, r, hstep, hne, hruns, rfl⟩ := runs_cons_iff.1 h
    have hn := hm.emit hstep
    rw [List.length_drop] at hn
    rw [List.drop_drop] at hruns
    have hrest := @ih ⟨t, p.cursor + n⟩ r calls (show p.cursor + n ≤ _ by omega) hruns
      (Nat.lt_of_succ_lt_succ hcalls)
    rw [run_of_unit hc hstep hne, hrest, Step.shift_shift, fst_answer p]
    rfl

/-- The answers to a buffer are the units of a run that ends, and its end, if there are not many
    more units than bytes. -/
theorem drain_of_runs {s : σ} (hm : m.IsBounded) (h : m.Runs s buffer es (.emit e t n))
    (hlength : es.length ≤ buffer.length + 1) :
    (⟨s, 0⟩ : Parser m).drain buffer = es.map .event ++ [.event e] :=
  run_of_runs (p := ⟨s, 0⟩) hm (Nat.zero_le _) h (Nat.lt_succ_of_le hlength)

/-- Where a thing is read off units one by one, and off nothing but units, the answer behind a
    number of units is a unit, too. -/
theorem exists_event_of_read {α β ρ : Type} (read : α → List (Answer ε κ) → Except ρ β) {a : α}
    {b : β} {answers : List (Answer ε κ)} (hnil : ∀ a, read a [] ≠ .ok b)
    (hmore : ∀ a answers, read a (.more :: answers) ≠ .ok b)
    (hfault : ∀ a f answers, read a (.fault f :: answers) ≠ .ok b)
    (hunit : ∀ {a e answers}, m.isFinal e = false → read a (.event e :: answers) = .ok b →
      ∃ a', read a' answers = .ok b)
    (hes : ∀ e ∈ es, m.isFinal e = false) (h : read a (es.map .event ++ answers) = .ok b) :
    ∃ e more, answers = .event e :: more := by
  induction es generalizing a with
  | nil =>
    cases answers with
    | nil => exact absurd h (hnil a)
    | cons answer more =>
      cases answer with
      | event e => exact ⟨e, more, rfl⟩
      | more => exact absurd h (hmore a more)
      | fault f => exact absurd h (hfault a f more)
  | cons e es ih =>
    obtain ⟨hne, hes⟩ := List.forall_mem_cons.1 hes
    obtain ⟨a', h'⟩ := hunit hne h
    exact ih hes h'

/-- What is told by the answers to a buffer is told by those to a run that ends, if it takes a unit
    behind units that are not final to tell it. -/
theorem exists_runs_of_drain (hm : m.IsBounded) (hc : p.cursor ≤ buffer.length)
    {P : List (Answer ε κ) → Prop} (hread : P (p.drain buffer))
    (hunit : ∀ {es : List ε} {answers : List (Answer ε κ)}, (∀ e ∈ es, m.isFinal e = false) →
      P (es.map .event ++ answers) → ∃ e more, answers = .event e :: more) :
    ∃ es e t n, m.Runs p.state (buffer.drop p.cursor) es (.emit e t n) ∧ m.isFinal e = true ∧
      P (es.map .event ++ [.event e]) := by
  obtain ⟨es, r, hruns, hanswers⟩ | ⟨es, hes, hanswers⟩ :=
    run_cases hm hc (buffer.length + 2)
  · have hdrain : p.drain buffer = es.map .event ++ [(p.answer (r.shift p.cursor)).1] := hanswers
    rw [hdrain] at hread
    obtain ⟨e', more, hlast⟩ := hunit hruns.isFinal_eq_false hread
    cases r with
    | wait t n => cases hlast
    | fault f => cases hlast
    | emit e t n => exact ⟨es, e, t, n, hruns, hruns.endsRun, hread⟩
  · have hdrain : p.drain buffer = es.map .event ++ [] := by
      rw [List.append_nil]
      exact hanswers
    rw [hdrain] at hread
    obtain ⟨e, more, hlast⟩ := hunit hes hread
    cases hlast

end Parser

end PacketWire
