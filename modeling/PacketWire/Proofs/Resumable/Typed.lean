import PacketWire.Keyword
import PacketWire.Proofs.Resumable.Resume
import PacketWire.Proofs.Scan.Bounded

namespace PacketWire

/-!
# Values with a default type

A list or a dict starts with its default type, if it has one. The type makes a unit of its own, and
what is behind it is read as it would be if there were none (`Machine.StartsTyped.runs`,
`Machine.StartsTyped.exists_runs`).
-/

namespace Scan

variable {κ α : Type} {typed : Bytes → α} {scan : Scan κ α} {input type rest : Bytes}

/-- A keyword, and where there is none, what another scan finds. -/
def keywordOr (typed : Bytes → α) (scan : Scan κ α) : Scan κ α := do
  let type ← keywordOrEnd
  if type.isEmpty then scan else return typed type

/-- Where no keyword comes, what may come without it is scanned. -/
theorem keywordOr_of_stops (hstops : Stops Byte.isKeyword input) :
    keywordOr typed scan input = scan input := by
  have hword : (keywordOrEnd : Scan κ Bytes) input = .done [] 0 :=
    wordOrEnd_eq_done_iff.2 ⟨rfl, nofun, input, hstops, rfl⟩
  rw [keywordOr, bind_of_done hword, Outcome.shift_zero]
  rfl

/-- A keyword in front of something else is found. -/
theorem keywordOr_of_isKeyword (htype : isKeyword type) (hstops : Stops Byte.isKeyword rest) :
    keywordOr typed scan (type ++ rest) = .done (typed type) type.length := by
  obtain ⟨hne, hall⟩ := isKeyword_iff.1 htype
  have hword : (keywordOrEnd : Scan κ Bytes) (type ++ rest) = .done type type.length :=
    wordOrEnd_eq_done_iff.2 ⟨rfl, hall, rest, hstops, rfl⟩
  rw [keywordOr, bind_of_done hword, if_neg (by simpa using hne)]
  rfl

/-- An input starts with one keyword, or with none. -/
theorem exists_keyword (input : Bytes) :
    ∃ type rest, (type = [] ∨ isKeyword type) ∧ Stops Byte.isKeyword rest ∧
      input = type ++ rest := by
  obtain ⟨-, hall, rest, hstops, hi⟩ :=
    (@wordOrEnd_eq_done_iff Unit input Byte.isKeyword _ _).1 rfl
  refine ⟨_, rest, ?_, hstops, hi⟩
  by_cases hne : input.takeWhile Byte.isKeyword = []
  · exact .inl hne
  · exact .inr (isKeyword_iff.2 ⟨hne, hall⟩)

/-- A keyword takes no more than there is. -/
theorem isBounded_keywordOr (h : scan.IsBounded) : (keywordOr typed scan).IsBounded := by
  refine .bind (isBounded_wordOrEnd _) fun type => ?_
  split
  · exact h
  · exact isBounded_pure _

end Scan

namespace Machine

open Scan

variable {σ ε κ : Type} {m : Machine σ ε κ} {start next : σ} {unit : Bytes → ε}
  {scan : Scan κ (ε × σ)} {input type text : Bytes} {es : List ε} {r : Step σ ε κ}

/-- From its start a machine reads a default type, if there is one, and otherwise what it reads
    next. -/
structure StartsTyped (m : Machine σ ε κ) (start next : σ) (unit : Bytes → ε)
    (scan : Scan κ (ε × σ)) : Prop where
  /-- The step at the start. -/
  step_start (input : Bytes) :
    m.step start input = Step.ofScan (keywordOr (fun type => (unit type, next)) scan) next input
  /-- The step behind the type. -/
  step_next (input : Bytes) : m.step next input = Step.ofScan scan next input
  /-- A type does not end the value. -/
  isFinal_unit (type : Bytes) : m.isFinal (unit type) = false

/-- The unit of a default type, if there is one. -/
def typeUnits (unit : Bytes → ε) (type : Bytes) : List ε := if type.isEmpty then [] else [unit type]

/-- A default type that is there makes one unit. -/
theorem typeUnits_of_isKeyword (htype : isKeyword type) : typeUnits unit type = [unit type] :=
  if_neg (by simpa using (isKeyword_iff.1 htype).1)

/-- A default type makes no more units than it has bytes. -/
theorem length_typeUnits_le : (typeUnits unit type).length ≤ type.length := by
  cases type with
  | nil => exact Nat.le_refl 0
  | cons b type => exact Nat.succ_pos _

namespace StartsTyped

/-- Where there is no default type the first step is the one behind it. -/
theorem step_of_stops (h : m.StartsTyped start next unit scan)
    (hstops : Stops Byte.isKeyword input) : m.step start input = m.step next input := by
  rw [h.step_start, h.step_next, Step.ofScan, Step.ofScan, Step.andThen, Step.andThen,
    keywordOr_of_stops hstops]

/-- The first step takes the default type. -/
theorem step_of_isKeyword (h : m.StartsTyped start next unit scan) (htype : isKeyword type)
    (hstops : Stops Byte.isKeyword text) :
    m.step start (type ++ text) = .emit (unit type) next type.length := by
  rw [h.step_start]
  exact Step.ofScan_of_done (keywordOr_of_isKeyword htype hstops)

/-- The first unit is the type, or the one behind it. -/
theorem emit_cases {e : ε} {t : σ} {n : Nat} (h : m.StartsTyped start next unit scan)
    (hstep : m.step start input = .emit e t n) :
    (t = next ∧ 0 < n) ∨ m.step next input = .emit e t n := by
  obtain ⟨type, rest, rfl | htype, hstops, rfl⟩ := exists_keyword input
  · exact .inr ((h.step_of_stops hstops).symm.trans hstep)
  · rw [h.step_of_isKeyword htype hstops] at hstep
    cases hstep
    exact .inl ⟨rfl, List.length_pos_iff.2 (isKeyword_iff.1 htype).1⟩

/-- A run behind the type is the rest of a run from the start. -/
theorem runs (h : m.StartsTyped start next unit scan) (htype : type = [] ∨ isKeyword type)
    (hstops : Stops Byte.isKeyword text) (hruns : m.Runs next text es r) :
    m.Runs start (type ++ text) (typeUnits unit type ++ es) (r.shift type.length) := by
  rcases htype with rfl | htype
  · rw [List.length_nil, Step.shift_zero]
    exact hruns.congr (h.step_of_stops hstops)
  · rw [typeUnits_of_isKeyword htype]
    rw [← @List.drop_left _ type text] at hruns
    exact .unit (h.step_of_isKeyword htype hstops) (h.isFinal_unit type) hruns

/-- A run from the start is one behind the type, with the type in front. -/
theorem exists_runs (h : m.StartsTyped start next unit scan) (hruns : m.Runs start input es r) :
    ∃ type text es' r', (type = [] ∨ isKeyword type) ∧ Stops Byte.isKeyword text ∧
      input = type ++ text ∧ es = typeUnits unit type ++ es' ∧ r = r'.shift type.length ∧
      m.Runs next text es' r' := by
  obtain ⟨type, text, htype, hstops, rfl⟩ := exists_keyword input
  rcases htype with rfl | htype
  · exact ⟨[], text, es, r, .inl rfl, hstops, rfl, rfl, (Step.shift_zero r).symm,
      hruns.congr (h.step_of_stops hstops).symm⟩
  · obtain ⟨es, r, rfl, rfl, hbehind⟩ :=
      hruns.of_emit (h.step_of_isKeyword htype hstops) (h.isFinal_unit type)
    rw [List.drop_left] at hbehind
    refine ⟨type, text, es, r, .inr htype, hstops, rfl, ?_, rfl, hbehind⟩
    rw [typeUnits_of_isKeyword htype]
    rfl

/-- A machine goes on at its start as it does behind the type, where the end of the input is the
    end. -/
theorem resumesAt {prepend : ε → List ε → List ε} (h : m.StartsTyped start next unit scan)
    (hend : m.EndsAt next []) (hnext : m.ResumesAt prepend next) : m.ResumesAt prepend start := by
  -- where there is no type, there is none in the longer input, either
  have huntyped : ∀ {input}, Stops Byte.isKeyword input → input ≠ [] →
      ∀ back, m.step start (input ++ back) = m.step next (input ++ back) := by
    intro input hstops hne back
    obtain ⟨b, tail, rfl⟩ := List.exists_cons_of_ne_nil hne
    exact h.step_of_stops (stops_cons_iff.2 (stops_cons_iff.1 hstops))
  obtain ⟨last, u, k, hlast, hfinal⟩ := hend
  constructor
  · intro t input n hstep
    obtain ⟨type, text, rfl | htype, hstops, rfl⟩ := exists_keyword input
    · rw [h.step_of_stops hstops] at hstep
      have hne : input ≠ [] := by
        rintro rfl
        rw [hlast] at hstep
        cases hstep
      obtain ⟨hle, hback⟩ := hnext.wait hstep
      refine ⟨hle, fun back => ?_⟩
      rw [huntyped hstops hne, hback]
    · rw [h.step_of_isKeyword htype hstops] at hstep
      cases hstep
  · intro t input e n hstep hne
    obtain ⟨type, text, rfl | htype, hstops, rfl⟩ := exists_keyword input
    · rw [h.step_of_stops hstops] at hstep
      refine (hnext.emit hstep hne).congr (huntyped hstops ?_)
      rintro rfl
      rw [hlast] at hstep
      cases hstep
      rw [hfinal] at hne
      cases hne
    · rw [h.step_of_isKeyword htype hstops] at hstep
      cases hstep
      cases text with
      | nil =>
        refine .atEnd ?_
        rw [List.drop_left]
        exact ⟨last, u, k, hlast, hfinal⟩
      | cons b text =>
        refine .again (by simp) fun back => ?_
        rw [List.append_assoc]
        exact h.step_of_isKeyword htype (stops_cons_iff.2 (stops_cons_iff.1 hstops))

end StartsTyped

end Machine

end PacketWire
