import PacketWire.Proofs.Resumable.Typed

namespace PacketWire

/-!
# Runs that meet no fault

The run over a beginning of a value takes up what is there as a whole (`Machine.Passes`), and then
it meets a fault (`Machine.FailsWith`) or does not (`Machine.Lasts`). Where it fails is told for the
calls of a parser by `Parser.FailsJustAt`, and by what is left behind what is whole
(`Parser.failsJustAt_of_passes`).
-/

variable {σ ε κ : Type}

namespace Machine

variable {m : Machine σ ε κ} {s t u : σ} {input line text rest : Bytes} {e : ε} {n : Nat}
  {f g : Fault κ}

/-- The steps over these bytes, with units none of which is final, come to a state in front of the
    bytes behind: a run goes on from there. -/
def Passes (m : Machine σ ε κ) (s : σ) (text : Bytes) (t : σ) (rest : Bytes) : Prop :=
  ∃ es, ∀ {es' r}, m.Runs t rest es' r → m.Runs s (text ++ rest) (es ++ es') (r.shift text.length)

/-- A run meets this fault. -/
def FailsWith (m : Machine σ ε κ) (s : σ) (input : Bytes) (f : Fault κ) : Prop :=
  ∃ es, m.Runs s input es (.fault f)

/-- A run ends with a final unit, or asks for more input at last. -/
def Lasts (m : Machine σ ε κ) (s : σ) (input : Bytes) : Prop :=
  ∃ es r, m.Runs s input es r ∧ ∀ f, r ≠ .fault f

/-- Nothing is passed in no steps. -/
theorem Passes.refl : m.Passes s [] s rest :=
  ⟨[], fun h => by rwa [List.length_nil, Step.shift_zero]⟩

/-- A unit is taken up. -/
theorem Passes.of_emit (hstep : m.step s (text ++ rest) = .emit e t text.length)
    (hne : m.isFinal e = false) : m.Passes s text t rest := by
  refine ⟨[e], fun hruns => ?_⟩
  rw [← @List.drop_left _ text rest] at hruns
  exact .unit hstep hne hruns

/-- What is passed in two parts is passed. -/
theorem Passes.trans (h : m.Passes s line t (text ++ rest)) (h' : m.Passes t text u rest) :
    m.Passes s (line ++ text) u rest := by
  obtain ⟨es, hes⟩ := h
  obtain ⟨es', hes'⟩ := h'
  refine ⟨es ++ es', fun hruns => ?_⟩
  have hall := hes (hes' hruns)
  rwa [Step.shift_shift, ← List.length_append, ← List.append_assoc, ← List.append_assoc] at hall

/-- What is behind a default type is taken up behind it. -/
theorem StartsTyped.passes {start next : σ} {unit : Bytes → ε} {scan : Scan κ (ε × σ)}
    {type : Bytes} (hm : m.StartsTyped start next unit scan) (htype : type = [] ∨ isKeyword type)
    (hstops : Scan.Stops Byte.isKeyword (text ++ rest)) (h : m.Passes next text t rest) :
    m.Passes start (type ++ text) t rest := by
  obtain ⟨es, hes⟩ := h
  refine ⟨typeUnits unit type ++ es, fun hruns => ?_⟩
  have hall := hm.runs htype hstops (hes hruns)
  rwa [Step.shift_shift, ← List.length_append, ← List.append_assoc, ← List.append_assoc] at hall

/-- A fault behind what is passed is met, as many bytes further on. -/
theorem Passes.fails (h : m.Passes s text t rest) (hfails : m.FailsWith t rest f) :
    m.FailsWith s (text ++ rest) (f.shift text.length) := by
  obtain ⟨es, hes⟩ := h
  obtain ⟨es', hruns⟩ := hfails
  exact ⟨_, hes hruns⟩

/-- A run that lasts behind what is passed lasts. -/
theorem Passes.lasts (h : m.Passes s text t rest) (hlasts : m.Lasts t rest) :
    m.Lasts s (text ++ rest) := by
  obtain ⟨es, hes⟩ := h
  obtain ⟨es', r, hruns, hr⟩ := hlasts
  refine ⟨_, _, hes hruns, fun f hf => ?_⟩
  cases r with
  | emit e t n => cases hf
  | wait t n => cases hf
  | fault g => exact hr g rfl

/-- A step that fails makes a run that does. -/
theorem FailsWith.of_fault (h : m.step s input = .fault f) : m.FailsWith s input f :=
  ⟨[], .last h trivial⟩

/-- A step that waits makes a run that lasts. -/
theorem Lasts.of_wait (h : m.step s input = .wait t n) : m.Lasts s input :=
  ⟨[], _, .last h trivial, nofun⟩

/-- A final unit makes a run that lasts. -/
theorem Lasts.of_final (h : m.step s input = .emit e t n) (he : m.isFinal e = true) :
    m.Lasts s input :=
  ⟨[], _, .last h he, nofun⟩

/-- A unit that takes all there is, and the end of the input behind it. -/
theorem Lasts.of_emit (hstep : m.step s input = .emit e t input.length)
    (hne : m.isFinal e = false) (h : m.Lasts t []) : m.Lasts s input := by
  rw [← List.append_nil input] at hstep ⊢
  have hpasses : m.Passes s input t [] := .of_emit (by simpa using hstep) hne
  exact hpasses.lasts h

/-- A run that meets one fault meets no other, and does not last. -/
theorem FailsWith.unique (h : m.FailsWith s input f) (h' : m.FailsWith s input g) : f = g := by
  obtain ⟨es, hruns⟩ := h
  obtain ⟨es', hruns'⟩ := h'
  obtain ⟨-, hsame⟩ := runs_unique hruns hruns'
  cases hsame
  rfl

/-- No run both fails and lasts. -/
theorem FailsWith.not_lasts (h : m.FailsWith s input f) : ¬ m.Lasts s input := by
  rintro ⟨es, r, hruns, hr⟩
  obtain ⟨es', hruns'⟩ := h
  obtain ⟨-, hsame⟩ := runs_unique hruns hruns'
  exact hr f hsame

end Machine

namespace Parser

open Machine

variable {m : Machine σ ε κ} {s t : σ} {buffer : Bytes} {f : Fault κ}

/-- The calls with a buffer end with the need for more input or with a final unit. -/
def Lasts (buffer : Bytes) (p : Parser m) : Prop :=
  Stalls buffer p ∨ ∃ events last q, Finishes buffer p events last q

/-- The calls with a buffer meet these faults, and end without one where there are none. -/
structure FailsJustAt (buffer : Bytes) (p : Parser m) (cut : Fault κ → Prop) : Prop where
  /-- A fault that is met is one of these. -/
  fails_iff (f : Fault κ) : (∃ events, Fails buffer p events f) ↔ cut f
  /-- The calls end with the need for more input or with a final unit in all other cases. -/
  lasts_iff : Lasts buffer p ↔ ∀ f, ¬ cut f

/-- The calls from the start fail just if the run does. -/
theorem fails_start_iff (hm : m.IsBounded) :
    (∃ events, Fails buffer (⟨s, 0⟩ : Parser m) events f) ↔ m.FailsWith s buffer f := by
  constructor
  · rintro ⟨es, h⟩
    obtain ⟨g, hruns, rfl⟩ := (fails_iff hm (Nat.zero_le _)).1 h
    exact ⟨es, by simpa [Fault.shift] using hruns⟩
  · rintro ⟨es, hruns⟩
    exact ⟨es, (fails_iff hm (Nat.zero_le _)).2 ⟨f, hruns, by simp [Fault.shift]⟩⟩

/-- The calls from the start last just if the run does. -/
theorem lasts_start_iff (hm : m.IsBounded) :
    Lasts buffer (⟨s, 0⟩ : Parser m) ↔ m.Lasts s buffer := by
  constructor
  · rintro (⟨es, q, h⟩ | ⟨es, last, q, h⟩)
    · obtain ⟨t, n, hruns, -⟩ := (waitsAfter_iff hm (Nat.zero_le _)).1 h
      exact ⟨es, _, hruns, nofun⟩
    · obtain ⟨-, t, n, hruns, -⟩ := (finishes_iff hm (Nat.zero_le _)).1 h
      exact ⟨es, _, hruns, nofun⟩
  · rintro ⟨es, r, hruns, hr⟩
    cases r with
    | emit last t n =>
      exact .inr ⟨es, last, _, (finishes_iff hm (Nat.zero_le _)).2
        ⟨hruns.endsRun, t, n, hruns, rfl⟩⟩
    | wait t n => exact .inl ⟨es, _, (waitsAfter_iff hm (Nat.zero_le _)).2 ⟨t, n, hruns, rfl⟩⟩
    | fault f => exact absurd rfl (hr f)

/-- What is left at the end of a buffer, behind what is whole, makes this fault. -/
def CutBehind (Whole : Bytes → Prop) (Begins : Option (Fault κ) → Bytes → Prop) (buffer : Bytes)
    (f : Fault κ) : Prop :=
  ∃ text head g, Whole text ∧ Begins (some g) head ∧ buffer = text ++ head ∧ f = g.shift text.length

/-- A parser fails just where what is left makes a fault, if its machine takes up what is whole and
    then meets this fault or none. -/
theorem failsJustAt_of_passes (hm : m.IsBounded) {Whole : Bytes → Prop}
    {Begins : Option (Fault κ) → Bytes → Prop}
    (hpasses : ∀ {text head f?}, Whole text → Begins f? head → m.Passes s text t head)
    (hlasts : ∀ {head}, Begins none head → m.Lasts t head)
    (hfails : ∀ {head g}, Begins (some g) head → m.FailsWith t head g)
    (hcut : ∃ text head f?, Whole text ∧ buffer = text ++ head ∧ Begins f? head) :
    FailsJustAt buffer (⟨s, 0⟩ : Parser m) (CutBehind Whole Begins buffer) := by
  have hcutFails : ∀ {f}, CutBehind Whole Begins buffer f → m.FailsWith s buffer f := by
    rintro f ⟨text, head, g, hwhole, hbegins, rfl, rfl⟩
    exact (hpasses hwhole hbegins).fails (hfails hbegins)
  have hone : m.Lasts s buffer ∨ ∃ f, CutBehind Whole Begins buffer f := by
    obtain ⟨text, head, f?, hwhole, rfl, hbegins⟩ := hcut
    cases f? with
    | none => exact .inl ((hpasses hwhole hbegins).lasts (hlasts hbegins))
    | some g => exact .inr ⟨_, text, head, g, hwhole, hbegins, rfl, rfl⟩
  -- A run meets one fault or none, so it is enough to give one, or to show that it lasts.
  constructor
  · intro f
    rw [fails_start_iff hm]
    constructor
    · intro h
      obtain hlasts | ⟨g, hg⟩ := hone
      · exact absurd hlasts h.not_lasts
      · exact h.unique (hcutFails hg) ▸ hg
    · exact hcutFails
  · rw [lasts_start_iff hm]
    constructor
    · exact fun h f hf => (hcutFails hf).not_lasts h
    · exact fun hnone => hone.resolve_right fun ⟨f, hf⟩ => hnone f hf

end Parser

end PacketWire
