import PacketWire.Proofs.Resumable.Runs

namespace PacketWire

/-!
# Runs that are taken up again

A machine that asks for more input, and is given it, goes on as if all of it had come at once. What
one step has to do for that is told by `Machine.Resumes`: a unit is read again from a longer input,
or the end of the input is behind it, or it is the first part of a longer unit, and then the rest of
this comes as a unit of its own. It follows for runs (`Machine.Resumes.runs`), for any number of
growing buffers (`Parser.finishes_of_waitsThrough`), and so for a value that they bring
(`Parser.readsThrough_of_runs`).
-/

variable {σ ε κ : Type} {prepend : ε → List ε → List ε}

namespace Machine

variable {m : Machine σ ε κ} {s t u : σ} {input back : Bytes} {e : ε} {es ws : List ε}
  {r : Step σ ε κ} {n k : Nat}

/-- The next step is the end. -/
def EndsAt (m : Machine σ ε κ) (t : σ) (input : Bytes) : Prop :=
  ∃ e u n, m.step t input = .emit e u n ∧ m.isFinal e = true

/-- A step that comes behind another one in the same run is the next step. -/
theorem Runs.of_shift (hstep : m.step s input = (m.step t (input.drop n)).shift n)
    (h : m.Runs s input es r) : ∃ r', m.Runs t (input.drop n) es r' ∧ r = r'.shift n := by
  cases h with
  | last hs hends =>
    rw [hs] at hstep
    subst hstep
    refine ⟨_, .last rfl ?_, rfl⟩
    cases ht : m.step t (input.drop n) with
    | emit e u k => rw [ht] at hends; exact hends
    | wait u k => trivial
    | fault f => trivial
  | @unit _ u _ e k _ r hs hne h =>
    rw [hs] at hstep
    obtain ⟨j, ht, rfl⟩ := Step.shift_eq_emit_iff.1 hstep.symm
    rw [← List.drop_drop] at h
    exact ⟨r.shift j, .unit ht hne h, (Step.shift_shift ..).symm⟩

/-- The rest of a unit that was cut comes as a unit of its own, and behind it the machine goes on as
    behind the unit that is read where all of it is there. -/
inductive Completes (m : Machine σ ε κ) (prepend : ε → List ε → List ε) (e : ε) (t : σ)
    (back : Bytes) : ε → σ → Nat → Prop where
  /-- The machine may still have to take some bytes behind the rest. -/
  | mk {rest whole : ε} {u t' : σ} {k j : Nat} :
      m.step t back = .emit rest u k → m.isFinal rest = false →
        (∀ es, prepend e (prepend rest es) = prepend whole es) →
        m.step u (back.drop k) = (m.step t' ((back.drop k).drop j)).shift j →
        Completes m prepend e t back whole t' (k + j)

/-- What becomes of a unit if more input comes. -/
inductive GoesOn (m : Machine σ ε κ) (prepend : ε → List ε → List ε) (s : σ) (input : Bytes)
    (e : ε) (t : σ) (n : Nat) : Prop where
  /-- It is read from the longer input, too. -/
  | again : n ≤ input.length → (∀ back, m.step s (input ++ back) = .emit e t n) →
      GoesOn m prepend s input e t n
  /-- The end of the input is the end behind it. -/
  | atEnd : m.EndsAt t (input.drop n) → GoesOn m prepend s input e t n
  /-- It is the first part of a longer unit, and the input ends with it. With more bytes there may
      be a longer part, and still the input ends with it, or there is all of the unit. -/
  | cut : n = input.length → m.step t [] = .wait t 0 →
      (∀ {back e' t' n'}, m.step s (input ++ back) = .emit e' t' n' → m.isFinal e' = false ∧
        ((n' = (input ++ back).length ∧ m.step t' [] = .wait t' 0) ∨
          ∃ k, n' = n + k ∧ m.Completes prepend e t back e' t' k)) →
      GoesOn m prepend s input e t n

/-- In this state a machine goes on, if more input comes, as if all of it had been there. -/
structure ResumesAt (m : Machine σ ε κ) (prepend : ε → List ε → List ε) (s : σ) : Prop where
  /-- It does from where it waits, -/
  wait {t : σ} {input : Bytes} {n : Nat} (hstep : m.step s input = .wait t n) :
    n ≤ input.length ∧
      ∀ back, m.step s (input ++ back) = (m.step t (input.drop n ++ back)).shift n
  /-- and from behind a unit. -/
  emit {t : σ} {input : Bytes} {e : ε} {n : Nat} (hstep : m.step s input = .emit e t n)
    (hne : m.isFinal e = false) : m.GoesOn prepend s input e t n

/-- A machine goes on, if more input comes, as if all of it had been there. -/
def Resumes (m : Machine σ ε κ) (prepend : ε → List ε → List ε) : Prop :=
  ∀ s, m.ResumesAt prepend s

/-- What is said of a unit in one state holds in another that makes the same steps behind some
    bytes. -/
theorem GoesOn.shift {front : Bytes}
    (hstep : ∀ back, m.step u (front ++ input ++ back) =
      (m.step s (input ++ back)).shift front.length)
    (h : m.GoesOn prepend s input e t n) :
    m.GoesOn prepend u (front ++ input) e t (front.length + n) := by
  cases h with
  | again hle hagain =>
    refine .again (by simpa using hle) fun back => ?_
    rw [hstep, hagain]
    rfl
  | atEnd hend =>
    refine .atEnd ?_
    rw [← List.drop_drop, List.drop_left]
    exact hend
  | cut hn hwait hcut =>
    refine .cut (by rw [hn, List.length_append]) hwait fun {back e' t' n'} hemit => ?_
    rw [hstep] at hemit
    obtain ⟨j, hj, rfl⟩ := Step.shift_eq_emit_iff.1 hemit
    obtain ⟨hne, ⟨rfl, hwait'⟩ | ⟨k, rfl, hrest⟩⟩ := hcut hj
    · exact ⟨hne, .inl ⟨by simp, hwait'⟩⟩
    · exact ⟨hne, .inr ⟨k, (Nat.add_assoc ..).symm, hrest⟩⟩

theorem GoesOn.congr (hstep : ∀ back, m.step u (input ++ back) = m.step s (input ++ back))
    (h : m.GoesOn prepend s input e t n) : m.GoesOn prepend u input e t n := by
  have hgoes : m.GoesOn prepend u ([] ++ input) e t (0 + n) :=
    h.shift fun back => (hstep back).trans (Step.shift_zero _).symm
  rwa [List.nil_append, Nat.zero_add] at hgoes

/-- Where a step is a scan, nothing is taken before more input is needed; only units have to be
    looked at. -/
theorem ResumesAt.of_ofScan {scan : Scan κ (ε × σ)}
    (hstep : ∀ input, m.step s input = Step.ofScan scan s input)
    (hemit : ∀ {input e t n}, m.step s input = .emit e t n → m.isFinal e = false →
      m.GoesOn prepend s input e t n) : m.ResumesAt prepend s where
  wait hwait := by
    rw [hstep] at hwait
    obtain ⟨-, rfl, rfl⟩ := Step.ofScan_eq_wait_iff.1 hwait
    exact ⟨Nat.zero_le _, fun _ => (Step.shift_zero _).symm⟩
  emit := hemit

/-- Where a step needs a byte, and behind it is the step of another state, a machine goes on as it
    does in that state. -/
theorem ResumesAt.of_byte {b : UInt8} (hnil : m.step u [] = .wait u 0)
    (hbyte : ∀ rest, m.step u (b :: rest) = (m.step s rest).shift 1)
    (hother : ∀ {c : UInt8}, c ≠ b → ∀ rest, ∃ f, m.step u (c :: rest) = .fault f)
    (h : m.ResumesAt prepend s) : m.ResumesAt prepend u := by
  -- Nothing is there, or the byte with others behind it, or another byte, and that is at fault.
  have hstarts (input : Bytes) :
      input = [] ∨ (∃ rest, input = b :: rest) ∨ ∃ f, m.step u input = .fault f := by
    cases input with
    | nil => exact .inl rfl
    | cons c rest =>
      by_cases hc : c = b
      · exact .inr (.inl ⟨rest, by rw [hc]⟩)
      · exact .inr (.inr (hother hc rest))
  constructor
  · intro t input n hstep
    obtain rfl | ⟨rest, rfl⟩ | ⟨f, hf⟩ := hstarts input
    · rw [hnil] at hstep
      cases hstep
      exact ⟨Nat.le_refl 0, fun _ => (Step.shift_zero _).symm⟩
    · rw [hbyte] at hstep
      obtain ⟨j, hj, rfl⟩ := Step.shift_eq_wait_iff.1 hstep
      obtain ⟨hle, hback⟩ := h.wait hj
      refine ⟨by rw [List.length_cons]; omega, fun back => ?_⟩
      rw [List.cons_append, hbyte, hback, Step.shift_shift, ← List.drop_drop]
      rfl
    · rw [hf] at hstep
      cases hstep
  · intro t input e n hstep hne
    obtain rfl | ⟨rest, rfl⟩ | ⟨f, hf⟩ := hstarts input
    · rw [hnil] at hstep
      cases hstep
    · rw [hbyte] at hstep
      obtain ⟨j, hj, rfl⟩ := Step.shift_eq_emit_iff.1 hstep
      have hshift : ∀ back, m.step u ([b] ++ rest ++ back) =
          (m.step s (rest ++ back)).shift [b].length := fun back => hbyte (rest ++ back)
      exact (h.emit hj hne).shift hshift
    · rw [hf] at hstep
      cases hstep

/-- A unit that was cut is taken up again: its rest is read, and then what is behind it. -/
theorem Runs.of_cut {f : ε}
    (hcut : ∀ {back e' t' n'}, m.step s (input ++ back) = .emit e' t' n' → m.isFinal e' = false ∧
      ((n' = (input ++ back).length ∧ m.step t' [] = .wait t' 0) ∨
        ∃ k, n' = input.length + k ∧ m.Completes prepend f t back e' t' k))
    (h : m.Runs s (input ++ back) ws (.emit e u n)) :
    ∃ fs k, m.Runs t back fs (.emit e u k) ∧
      prepend f (fs.foldr prepend []) = ws.foldr prepend [] := by
  generalize hr : Step.emit e u n = r at h
  cases h with
  | last hemit hends =>
    subst hr
    obtain ⟨hne, -⟩ := hcut hemit
    exact absurd hends (by simp [Step.EndsRun, hne])
  | unit hemit _ hbehind =>
    obtain ⟨k, rfl, -⟩ := Step.shift_eq_emit_iff.1 hr.symm
    obtain ⟨-, ⟨rfl, hwait⟩ | ⟨i, rfl, hrest⟩⟩ := hcut hemit
    · -- there the longer run waits, but it ends
      rw [List.drop_length] at hbehind
      obtain ⟨-, hlast⟩ := runs_unique (.last hwait trivial) hbehind
      cases hlast
    · rw [← List.drop_drop, List.drop_left] at hbehind
      cases hrest with
      | @mk rest whole v t' i j hstep hne hprepend hnext =>
        rw [← List.drop_drop] at hbehind
        exact ⟨rest :: _, _, .unit hstep hne (hbehind.shift hnext), hprepend _⟩

/-- A run that asks for more input is taken up again where the input goes on; what all of it gives,
    both runs give together. -/
theorem Resumes.runs (hm : m.Resumes prepend) (h : m.Runs s input es (.wait t n))
    (hall : m.Runs s (input ++ back) ws (.emit e u k)) :
    ∃ fs k', m.Runs t (input.drop n ++ back) fs (.emit e u k') ∧
      (es ++ fs).foldr prepend [] = ws.foldr prepend [] := by
  generalize hr : Step.wait t n = r at h
  induction h generalizing ws n k with
  | @last s input r hstep =>
    subst hr
    obtain ⟨hle, hback⟩ := (hm s).wait hstep
    have hmore := hback back
    rw [← List.drop_append_of_le_length hle] at hmore ⊢
    obtain ⟨r, hruns, hr⟩ := hall.of_shift hmore
    obtain ⟨k', rfl, -⟩ := Step.shift_eq_emit_iff.1 hr.symm
    exact ⟨ws, k', hruns, rfl⟩
  | @unit s v input f j es r hstep hne hruns ih =>
    obtain ⟨i, rfl, rfl⟩ := Step.shift_eq_wait_iff.1 hr.symm
    cases (hm s).emit hstep hne with
    | again hle hagain =>
      obtain ⟨ws, r, rfl, hr', hbehind⟩ := hall.of_emit (hagain back) hne
      obtain ⟨k', rfl, -⟩ := Step.shift_eq_emit_iff.1 hr'.symm
      rw [List.drop_append_of_le_length hle] at hbehind
      obtain ⟨fs, k'', hfs, hjoined⟩ := ih hbehind rfl
      rw [← List.drop_drop]
      exact ⟨fs, k'', hfs, congrArg (prepend f) hjoined⟩
    | atEnd hend =>
      obtain ⟨_, _, _, hlast, hfinal⟩ := hend
      obtain ⟨-, hr'⟩ := runs_unique (.last hlast hfinal) hruns
      cases hr'
    | cut hj hwait hcut =>
      -- the run stops here, and the longer one goes on with the rest of the unit
      subst hj
      rw [List.drop_length] at hruns
      obtain ⟨rfl, hr'⟩ := runs_unique (.last hwait trivial) hruns
      cases hr'
      rw [Nat.add_zero, List.drop_length, List.nil_append]
      exact Runs.of_cut hcut hall

end Machine

namespace Parser

open Machine

variable {m : Machine σ ε κ} {p q r : Parser m} {buffer value : Bytes} {buffers : List Bytes}
  {es ws : List ε} {e : ε} {t u : σ} {n : Nat}

/-- Buffers are read one after the other, each of them until more input is needed. -/
inductive WaitsThrough : List Bytes → Parser m → List ε → Parser m → Prop where
  /-- No buffer. -/
  | nil {p : Parser m} : WaitsThrough [] p [] p
  /-- A buffer, and those after it. -/
  | cons {buffer : Bytes} {buffers : List Bytes} {p q r : Parser m} {events more : List ε} :
      WaitsAfter buffer p events q → WaitsThrough buffers q more r →
        WaitsThrough (buffer :: buffers) p (events ++ more) r

/-- Growing buffers of which each was read until more input was needed, are followed by the last one
    with a run to its end. All units together are those of a run over the last buffer alone. -/
theorem finishes_of_waitsThrough (hb : m.IsBounded) (hm : m.Resumes prepend)
    (hgrow : (buffers ++ [value]).Pairwise (· <+: ·))
    (hc : ∀ b ∈ buffers ++ [value], p.cursor ≤ b.length) (hwait : WaitsThrough buffers p es q)
    (hall : m.Runs p.state (value.drop p.cursor) ws (.emit e t n)) :
    ∃ fs r, Finishes value q fs e r ∧ (es ++ fs).foldr prepend [] = ws.foldr prepend [] := by
  -- On the buffers: the run over the last one goes on where the first one had to be left, with
  -- units that make the same ones in the end.
  induction hwait generalizing ws n with
  | @nil p =>
    have hle := hc value (by simp)
    exact ⟨ws, _, (finishes_iff hb hle).2 ⟨hall.endsRun, t, n, hall, rfl⟩, rfl⟩
  | @cons buffer buffers p q r es more hone hmore ih =>
    obtain ⟨hstarts, hgrow⟩ := List.pairwise_cons.1 hgrow
    obtain ⟨hle, hc⟩ := List.forall_mem_cons.1 hc
    obtain ⟨u, k, hruns, rfl⟩ := (waitsAfter_iff hb hle).1 hone
    have hk := hruns.le_of_wait hb
    rw [List.length_drop] at hk
    obtain ⟨back, rfl⟩ := hstarts value (by simp)
    rw [List.drop_append_of_le_length hle] at hall
    obtain ⟨fs, k', hfs, hjoined⟩ := hm.runs hruns hall
    rw [List.drop_drop, ← List.drop_append_of_le_length (by omega)] at hfs
    have hc' : ∀ b ∈ buffers ++ [buffer ++ back], p.cursor + k ≤ b.length := fun b hb => by
      have hle := (hstarts b hb).length_le
      omega
    obtain ⟨gs, r', hfinishes, hgs⟩ := ih hgrow hc' hfs
    refine ⟨gs, r', hfinishes, ?_⟩
    rw [List.append_assoc, List.foldr_append, hgs, ← List.foldr_append, hjoined]

/-- A value that comes in growing buffers is read to its end, if more input is needed behind each
    buffer but the last, and its units are these where the parts of what was cut are joined. -/
def ReadsThrough (p : Parser m) (joined : List ε → List ε) (last : ε) (value : Bytes)
    (units : List ε) : Prop :=
  ∀ (buffers : List Bytes) (es : List ε) (q : Parser m),
    (buffers ++ [value]).Pairwise (· <+: ·) → WaitsThrough buffers p es q →
      ∃ fs r, Finishes value q fs last r ∧ joined (es ++ fs) = units

theorem readsThrough_of_runs (hb : m.IsBounded) (hm : m.Resumes prepend)
    (hall : m.Runs t value ws (.emit e u n)) :
    (⟨t, 0⟩ : Parser m).ReadsThrough (·.foldr prepend []) e value (ws.foldr prepend []) :=
  fun _ _ _ hgrow hwait =>
    finishes_of_waitsThrough hb hm hgrow (fun _ _ => Nat.zero_le _) hwait hall

end Parser

end PacketWire
