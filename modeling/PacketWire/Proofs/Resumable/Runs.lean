import PacketWire.Proofs.Resumable.Calls

namespace PacketWire

/-!
# Runs of a machine

The calls of a parser with one buffer, up to the one that ends the run, are the steps of its machine
with the bytes ahead. These are told by a relation that keeps no cursor (`Machine.Runs`), and what
the calls give is read off it (`Parser.finishes_iff`, `Parser.fails_iff`, `Parser.stalls_iff`).
-/

variable {σ ε κ : Type}

/-- This step ends a run: there is no unit, or a final one. -/
def Step.EndsRun (m : Machine σ ε κ) : Step σ ε κ → Prop
  | emit e _ _ => m.isFinal e = true
  | wait _ _ => True
  | fault _ => True

/-- Whether a step ends the run does not depend on the bytes before. -/
theorem Step.EndsRun.shift {m : Machine σ ε κ} {r : Step σ ε κ} (h : r.EndsRun m) (n : Nat) :
    (r.shift n).EndsRun m := by
  cases r <;> exact h

namespace Machine

variable {m : Machine σ ε κ} {s t u : σ} {input : Bytes} {e : ε} {es es' : List ε}
  {r r' : Step σ ε κ} {n : Nat}

/-- The steps from a state give these units, none of which is final, and then a step that ends the
    run; what this step takes or where its fault lies is counted from the start of the input. -/
inductive Runs (m : Machine σ ε κ) : σ → Bytes → List ε → Step σ ε κ → Prop where
  /-- The first step ends the run. -/
  | last {s : σ} {input : Bytes} {r : Step σ ε κ} :
      m.step s input = r → r.EndsRun m → Runs m s input [] r
  /-- A unit, and the steps behind it. -/
  | unit {s t : σ} {input : Bytes} {e : ε} {n : Nat} {es : List ε} {r : Step σ ε κ} :
      m.step s input = .emit e t n → m.isFinal e = false → Runs m t (input.drop n) es r →
        Runs m s input (e :: es) (r.shift n)

/-- A run with a unit is a step that gives it, and the run behind it. -/
theorem runs_cons_iff :
    m.Runs s input (e :: es) r ↔
      ∃ t n r', m.step s input = .emit e t n ∧ m.isFinal e = false ∧
        m.Runs t (input.drop n) es r' ∧ r = r'.shift n := by
  constructor
  · intro h
    cases h with
    | unit hstep hne h => exact ⟨_, _, _, hstep, hne, h, rfl⟩
  · rintro ⟨t, n, r', hstep, hne, h, rfl⟩
    exact .unit hstep hne h

/-- The last step of a run ends it. -/
theorem Runs.endsRun (h : m.Runs s input es r) : r.EndsRun m := by
  induction h with
  | last _ hends => exact hends
  | unit _ _ _ ih => exact ih.shift _

/-- No unit before the last one is final. -/
theorem Runs.isFinal_eq_false (h : m.Runs s input es r) : ∀ e ∈ es, m.isFinal e = false := by
  induction h with
  | last => nofun
  | unit _ hne _ ih => exact List.forall_mem_cons.2 ⟨hne, ih⟩

/-- A run starts with the unit of its first step. -/
theorem Runs.of_emit (hstep : m.step s input = .emit e t n) (hne : m.isFinal e = false)
    (h : m.Runs s input es r) :
    ∃ es' r', es = e :: es' ∧ r = r'.shift n ∧ m.Runs t (input.drop n) es' r' := by
  cases h with
  | last hstep' hends =>
    rw [hstep] at hstep'
    subst hstep'
    exact absurd hends (by simp [Step.EndsRun, hne])
  | unit hstep' _ h =>
    rw [hstep] at hstep'
    cases hstep'
    exact ⟨_, _, rfl, rfl, h⟩

/-- From one state and one input there is one run. -/
theorem runs_unique (h : m.Runs s input es r) (h' : m.Runs s input es' r') :
    es = es' ∧ r = r' := by
  induction h generalizing es' r' with
  | last hstep hends =>
    cases h' with
    | last hstep' => exact ⟨rfl, hstep.symm.trans hstep'⟩
    | unit hstep' hne =>
      rw [hstep'] at hstep
      subst hstep
      exact absurd hends (by simp [Step.EndsRun, hne])
  | unit hstep hne _ ih =>
    obtain ⟨_, _, rfl, rfl, hrest⟩ := h'.of_emit hstep hne
    obtain ⟨rfl, rfl⟩ := ih hrest
    exact ⟨rfl, rfl⟩

/-- A step that goes on from another state, behind some bytes, starts the run that this state
    does. -/
theorem Runs.shift (hstep : m.step s input = (m.step t (input.drop n)).shift n)
    (h : m.Runs t (input.drop n) es r) : m.Runs s input es (r.shift n) := by
  cases h with
  | last ht hends =>
    rw [ht] at hstep
    exact .last hstep (hends.shift n)
  | @unit _ u _ e k _ r ht hne h =>
    rw [ht] at hstep
    rw [List.drop_drop] at h
    rw [Step.shift_shift]
    exact .unit hstep hne h

/-- States that make the same step start the same runs. -/
theorem Runs.congr (hstep : m.step s input = m.step t input) (h : m.Runs t input es r) :
    m.Runs s input es r := by
  cases h with
  | last ht hends => exact .last (hstep.trans ht) hends
  | unit ht hne h => exact .unit (hstep.trans ht) hne h

/-- A run asks for more input at last. -/
def Stalls (m : Machine σ ε κ) (s : σ) (input : Bytes) : Prop :=
  ∃ es t n, m.Runs s input es (.wait t n)

/-- A run ends with a final unit or a fault. -/
def Ends (m : Machine σ ε κ) (s : σ) (input : Bytes) : Prop :=
  ∃ es r, m.Runs s input es r ∧ ∀ t n, r ≠ .wait t n

/-- A run that comes to an end does not end with the need for more. -/
theorem not_stalls_of_ends (h : m.Ends s input) : ¬ m.Stalls s input := by
  rintro ⟨es, t, n, hstalls⟩
  obtain ⟨es', r, hends, hr⟩ := h
  obtain ⟨-, rfl⟩ := runs_unique hends hstalls
  exact hr t n rfl

/-- A run that ends, or else asks for more, ends just if the condition of the latter fails. -/
theorem ends_iff_not {p : Prop} (hends : m.Ends s input ∨ p) (hstalls : p → m.Stalls s input) :
    (m.Ends s input ↔ ¬ p) ∧ (m.Stalls s input ↔ p) := by
  constructor
  · exact ⟨fun h hp => not_stalls_of_ends h (hstalls hp), hends.resolve_right⟩
  · exact ⟨fun h => hends.resolve_left fun he => not_stalls_of_ends he h, hstalls⟩

/-- A step that waits is a run that stalls. -/
theorem Stalls.of_wait (h : m.step s input = .wait t n) : m.Stalls s input :=
  ⟨[], t, n, .last h trivial⟩

/-- A step that fails is a run that ends. -/
theorem Ends.of_fault {f : Fault κ} (h : m.step s input = .fault f) : m.Ends s input :=
  ⟨[], .fault f, .last h trivial, nofun⟩

/-- A step that gives a final unit is a run that ends. -/
theorem Ends.of_final (h : m.step s input = .emit e t n) (he : m.isFinal e = true) :
    m.Ends s input := ⟨[], .emit e t n, .last h he, nofun⟩

/-- A run from one state comes to another, with these bytes ahead: it ends as the run from there
    does. -/
structure Leads (m : Machine σ ε κ) (s : σ) (input : Bytes) (t : σ) (rest : Bytes) : Prop where
  /-- It asks for more input at last. -/
  stalls : m.Stalls t rest → m.Stalls s input
  /-- It ends with a final unit or a fault. -/
  ends : m.Ends t rest → m.Ends s input

/-- A place leads to itself. -/
theorem Leads.refl : m.Leads s input s input := ⟨id, id⟩

/-- Leading on is transitive. -/
theorem Leads.trans {rest rest' : Bytes} (h : m.Leads s input t rest)
    (h' : m.Leads t rest u rest') : m.Leads s input u rest' :=
  ⟨fun hu => h.stalls (h'.stalls hu), fun hu => h.ends (h'.ends hu)⟩

/-- What is no waiting is none behind more bytes. -/
theorem shift_ne_wait (h : ∀ t k, r ≠ .wait t k) : ∀ t k, r.shift n ≠ .wait t k := by
  intro t k hr
  obtain ⟨j, rfl, -⟩ := Step.shift_eq_wait_iff.1 hr
  exact h t j rfl

/-- A unit leads to the state behind it. -/
theorem Leads.of_emit (hstep : m.step s input = .emit e t n) (hne : m.isFinal e = false) :
    m.Leads s input t (input.drop n) where
  stalls := by
    rintro ⟨es, u, k, hruns⟩
    exact ⟨e :: es, u, n + k, .unit hstep hne hruns⟩
  ends := by
    rintro ⟨es, r, hruns, hr⟩
    exact ⟨e :: es, r.shift n, .unit hstep hne hruns, shift_ne_wait hr⟩

/-- A step that goes on from another state leads there. -/
theorem Leads.of_shift (hstep : m.step s input = (m.step t (input.drop n)).shift n) :
    m.Leads s input t (input.drop n) where
  stalls := by
    rintro ⟨es, u, k, hruns⟩
    exact ⟨es, u, n + k, hruns.shift hstep⟩
  ends := by
    rintro ⟨es, r, hruns, hr⟩
    exact ⟨es, r.shift n, hruns.shift hstep, shift_ne_wait hr⟩

/-- No step takes more bytes than there are. -/
structure IsBounded (m : Machine σ ε κ) : Prop where
  /-- With a unit. -/
  emit : ∀ {s t : σ} {input : Bytes} {e : ε} {n : Nat},
    m.step s input = .emit e t n → n ≤ input.length
  /-- With the need for more input. -/
  wait : ∀ {s t : σ} {input : Bytes} {n : Nat}, m.step s input = .wait t n → n ≤ input.length

/-- A run that asks for more takes no more bytes than there are. -/
theorem Runs.le_of_wait (hm : m.IsBounded) (h : m.Runs s input es (.wait t n)) :
    n ≤ input.length := by
  generalize hr : Step.wait t n = r at h
  induction h generalizing n with
  | last hstep => exact hm.wait (hstep.trans hr.symm)
  | unit hstep _ _ ih =>
    obtain ⟨j, rfl, rfl⟩ := Step.shift_eq_wait_iff.1 hr.symm
    have hle := hm.emit hstep
    have hle' := ih rfl
    rw [List.length_drop] at hle'
    omega

end Machine

namespace Parser

open Machine

variable {m : Machine σ ε κ} {p q : Parser m} {buffer : Bytes} {es es' : List ε} {r : Step σ ε κ}
  {last : ε} {f : Fault κ}

/-- Calls are split where their units are. -/
theorem reads_append_iff :
    Reads buffer p (es ++ es') q ↔ ∃ r, Reads buffer p es r ∧ Reads buffer r es' q := by
  induction es generalizing p with
  | nil => simp [reads_nil_iff]
  | cons e es ih =>
    simp only [List.cons_append, reads_cons_iff, ih]
    constructor
    · rintro ⟨p', hparse, r, hes, hes'⟩
      exact ⟨r, ⟨p', hparse, hes⟩, hes'⟩
    · rintro ⟨r, ⟨p', hparse, hes⟩, hes'⟩
      exact ⟨p', hparse, r, hes, hes'⟩

/-- A run is made of calls that give its units, and a call that ends it. -/
theorem reads_of_runs (hm : m.IsBounded) (hc : p.cursor ≤ buffer.length)
    (h : m.Runs p.state (buffer.drop p.cursor) es r) :
    (∀ e ∈ es, m.isFinal e = false) ∧
      ∃ q, Reads buffer p es q ∧ q.parse buffer = q.answer (r.shift p.cursor) := by
  induction es generalizing p r with
  | nil =>
    cases h with
    | last hstep =>
      refine ⟨nofun, p, .refl p, ?_⟩
      rw [parse_of_le hc, hstep]
  | cons e es ih =>
    cases h with
    | @unit _ t _ _ n _ r hstep hne h =>
      have hn := hm.emit hstep
      rw [List.length_drop] at hn
      have hparse : p.parse buffer = (.event e, ⟨t, p.cursor + n⟩) :=
        (parse_eq_event_iff hc).2 ⟨t, n, hstep, rfl⟩
      have hc' : p.cursor + n ≤ buffer.length := by omega
      rw [List.drop_drop] at h
      obtain ⟨hes, q, hreads, hq⟩ := @ih ⟨t, p.cursor + n⟩ r hc' h
      rw [Step.shift_shift]
      exact ⟨List.forall_mem_cons.2 ⟨hne, hes⟩, q, .step hparse hreads, hq⟩

/-- Calls that give units, none of which is final, are the start of a run. -/
theorem runs_of_reads (hm : m.IsBounded) (hc : p.cursor ≤ buffer.length)
    (hes : ∀ e ∈ es, m.isFinal e = false) (h : Reads buffer p es q) :
    q.cursor ≤ buffer.length ∧ ∀ r, m.step q.state (buffer.drop q.cursor) = r → r.EndsRun m →
      ∃ r', m.Runs p.state (buffer.drop p.cursor) es r' ∧
        r'.shift p.cursor = r.shift q.cursor := by
  induction h with
  | refl p => exact ⟨hc, fun r hstep hends => ⟨r, .last hstep hends, rfl⟩⟩
  | step hparse _ ih =>
    obtain ⟨hne, hes⟩ := List.forall_mem_cons.1 hes
    obtain ⟨t, n, hstep, rfl⟩ := (parse_eq_event_iff hc).1 hparse
    have hn := hm.emit hstep
    rw [List.length_drop] at hn
    obtain ⟨hq, hruns⟩ := ih (by dsimp only; omega) hes
    refine ⟨hq, fun r hr hends => ?_⟩
    obtain ⟨r', hr', hshift⟩ := hruns r hr hends
    rw [← List.drop_drop] at hr'
    exact ⟨r'.shift n, .unit hstep hne hr', by rw [Step.shift_shift, hshift]⟩

/-- The calls reach a final unit if the run of the machine does, over the bytes ahead. -/
theorem finishes_iff (hm : m.IsBounded) (hc : p.cursor ≤ buffer.length) :
    Finishes buffer p es last q ↔ m.isFinal last = true ∧
      ∃ t n, m.Runs p.state (buffer.drop p.cursor) es (.emit last t n) ∧
        q = ⟨t, p.cursor + n⟩ := by
  constructor
  · rintro ⟨hes, hlast, hreads⟩
    obtain ⟨r, hreads, hone⟩ := reads_append_iff.1 hreads
    obtain ⟨q', hparse, hnil⟩ := reads_cons_iff.1 hone
    obtain rfl := reads_nil_iff.1 hnil
    obtain ⟨hr, hruns⟩ := runs_of_reads hm hc hes hreads
    obtain ⟨t, n, hstep, rfl⟩ := (parse_eq_event_iff hr).1 hparse
    obtain ⟨r', hr', hshift⟩ := hruns _ hstep hlast
    obtain ⟨k, rfl, hk⟩ := Step.shift_eq_emit_iff.1 hshift
    exact ⟨hlast, t, k, hr', by rw [hk]⟩
  · rintro ⟨hlast, t, n, hruns, rfl⟩
    obtain ⟨hes, r, hreads, hparse⟩ := reads_of_runs hm hc hruns
    exact ⟨hes, hlast, reads_append_iff.2 ⟨r, hreads, .step hparse (.refl _)⟩⟩

/-- The calls meet a fault if the run of the machine does, and its place is counted from the
    start. -/
theorem fails_iff (hm : m.IsBounded) (hc : p.cursor ≤ buffer.length) :
    Fails buffer p es f ↔
      ∃ g, m.Runs p.state (buffer.drop p.cursor) es (.fault g) ∧ f = g.shift p.cursor := by
  constructor
  · rintro ⟨hes, q, r, hreads, hparse⟩
    obtain ⟨hq, hruns⟩ := runs_of_reads hm hc hes hreads
    rw [parse_of_le hq] at hparse
    cases hstep : m.step q.state (buffer.drop q.cursor) with
    | emit e t n => rw [hstep] at hparse; cases hparse
    | wait t n => rw [hstep] at hparse; cases hparse
    | fault g =>
      rw [hstep] at hparse
      cases hparse
      -- The run of the machine goes on as the calls do, and so it ends with the fault.
      obtain ⟨r', hr', hshift⟩ := hruns _ hstep trivial
      cases r' with
      | emit e t n => cases hshift
      | wait t n => cases hshift
      | fault g' =>
        injection hshift with hshift
        exact ⟨g', hr', hshift.symm⟩
  · rintro ⟨g, hruns, rfl⟩
    obtain ⟨hes, q, hreads, hparse⟩ := reads_of_runs hm hc hruns
    exact ⟨hes, q, _, hreads, hparse⟩

/-- The calls with a buffer end with the need for more input, after these units and no final one
    before. -/
def WaitsAfter (buffer : Bytes) (p : Parser m) (events : List ε) (q : Parser m) : Prop :=
  (∀ e ∈ events, m.isFinal e = false) ∧ ReadsOut buffer p events q

/-- The calls end with the need for more if the run of the machine waits. -/
theorem waitsAfter_iff (hm : m.IsBounded) (hc : p.cursor ≤ buffer.length) :
    WaitsAfter buffer p es q ↔
      ∃ t n, m.Runs p.state (buffer.drop p.cursor) es (.wait t n) ∧ q = ⟨t, p.cursor + n⟩ := by
  constructor
  · rintro ⟨hes, r, hreads, hparse⟩
    obtain ⟨hr, hruns⟩ := runs_of_reads hm hc hes hreads
    rw [parse_of_le hr] at hparse
    cases hstep : m.step r.state (buffer.drop r.cursor) with
    | emit e t n => rw [hstep] at hparse; cases hparse
    | fault g => rw [hstep] at hparse; cases hparse
    | wait t n =>
      rw [hstep] at hparse
      cases hparse
      obtain ⟨r', hr', hshift⟩ := hruns _ hstep trivial
      obtain ⟨k, rfl, hk⟩ := Step.shift_eq_wait_iff.1 hshift
      exact ⟨t, k, hr', by rw [hk]⟩
  · rintro ⟨t, n, hruns, rfl⟩
    obtain ⟨hes, r, hreads, hparse⟩ := reads_of_runs hm hc hruns
    exact ⟨hes, r, hreads, hparse⟩

/-- The calls with a buffer end with the need for more input, and with no final unit before. -/
def Stalls (buffer : Bytes) (p : Parser m) : Prop := ∃ events q, WaitsAfter buffer p events q

/-- The calls with a buffer end with a final unit or a fault. -/
def Ends (buffer : Bytes) (p : Parser m) : Prop :=
  ∃ events, (∃ last q, Finishes buffer p events last q) ∨ ∃ fault, Fails buffer p events fault

/-- The calls stall if the machine does, over the bytes ahead. -/
theorem stalls_iff (hm : m.IsBounded) (hc : p.cursor ≤ buffer.length) :
    Stalls buffer p ↔ m.Stalls p.state (buffer.drop p.cursor) := by
  constructor
  · rintro ⟨es, q, h⟩
    obtain ⟨t, n, hruns, -⟩ := (waitsAfter_iff hm hc).1 h
    exact ⟨es, t, n, hruns⟩
  · rintro ⟨es, t, n, hruns⟩
    exact ⟨es, _, (waitsAfter_iff hm hc).2 ⟨t, n, hruns, rfl⟩⟩

/-- The calls come to an end if the machine does, over the bytes ahead. -/
theorem ends_iff (hm : m.IsBounded) (hc : p.cursor ≤ buffer.length) :
    Ends buffer p ↔ m.Ends p.state (buffer.drop p.cursor) := by
  constructor
  · rintro ⟨es, ⟨last, q, h⟩ | ⟨fault, h⟩⟩
    · obtain ⟨-, t, n, hruns, -⟩ := (finishes_iff hm hc).1 h
      exact ⟨es, _, hruns, nofun⟩
    · obtain ⟨g, hruns, -⟩ := (fails_iff hm hc).1 h
      exact ⟨es, _, hruns, nofun⟩
  · rintro ⟨es, r, hruns, hr⟩
    cases r with
    | wait t n => exact absurd rfl (hr t n)
    | emit last t n =>
      exact ⟨es, .inl ⟨last, _, (finishes_iff hm hc).2 ⟨hruns.endsRun, t, n, hruns, rfl⟩⟩⟩
    | fault g => exact ⟨es, .inr ⟨_, (fails_iff hm hc).2 ⟨g, hruns, rfl⟩⟩⟩

end Parser

end PacketWire
