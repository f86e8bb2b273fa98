import PacketWire.Proofs.Series

namespace PacketWire

/-!
# Derivations

Where a `Spelling` tells of a text and a thing whether the one is a way to write the other, a
derivation is such a way as a piece of data: it has a text, and it has the thing that the text
stands for (`DerivedBy`). A sequence is derived by the derivations of the things in it, one behind
the other (`DerivedBy.series_iff`). A reader that accepts a spelling accepts what there is a
derivation of, and leaves no choice of the derivation (`DerivedBy.reads`).
-/

variable {ω α : Type} {spelling : Spelling α} {text : ω → Bytes} {thing : ω → α}

/-- The ways to write things, held as data: what may be written is what there is a derivation of,
    and two derivations differ in their text or in what it stands for. -/
structure DerivedBy (spelling : Spelling α) (text : ω → Bytes) (thing : ω → α) : Prop where
  /-- There is a derivation for each text of each thing, and for nothing else. -/
  spelled_iff {a : α} {line : Bytes} : spelling a line ↔ ∃ w, text w = line ∧ thing w = a
  /-- A derivation is known by its text and its thing. -/
  eq_of_eq {w w' : ω} : text w = text w' → thing w = thing w' → w = w'

/-- A reader that accepts exactly what there is a derivation of, and gives what is derived. -/
structure ReadsDerivations {ε : Type} (read : Bytes → Except ε α) (text : ω → Bytes)
    (thing : ω → α) : Prop where
  /-- A thing is read off a buffer where there is a derivation of the thing from the buffer. -/
  read_eq_ok_iff (buffer : Bytes) (a : α) :
    read buffer = .ok a ↔ ∃ w, text w = buffer ∧ thing w = a
  /-- There is one derivation from a buffer, at most. -/
  injective : Function.Injective text

namespace DerivedBy

theorem spelled (h : DerivedBy spelling text thing) (w : ω) : spelling (thing w) (text w) :=
  h.spelled_iff.2 ⟨w, rfl, rfl⟩

/-- The derivations of a spelling are those of one that allows the same. -/
theorem congr {spelling' : Spelling α} (h : DerivedBy spelling text thing)
    (hsame : ∀ {a line}, spelling a line ↔ spelling' a line) : DerivedBy spelling' text thing where
  spelled_iff := hsame.symm.trans h.spelled_iff
  eq_of_eq := h.eq_of_eq

/-- A sequence may be written where its things have derivations one behind the other. -/
theorem series_iff (h : DerivedBy spelling text thing) {as : List α} {line : Bytes} :
    Series spelling as line ↔ ∃ ws : List ω, ws.flatMap text = line ∧ ws.map thing = as := by
  constructor
  · intro hseries
    induction hseries with
    | nil => exact ⟨[], rfl, rfl⟩
    | cons hline _ ih =>
      obtain ⟨w, rfl, rfl⟩ := h.spelled_iff.1 hline
      obtain ⟨ws, rfl, rfl⟩ := ih
      exact ⟨w :: ws, rfl, rfl⟩
  · rintro ⟨ws, rfl, rfl⟩
    exact Series.flatMap fun w _ => h.spelled w

/-- Two sequences of derivations of the same things, in front of what may come behind them, are the
    same, if the text of each one ends at the same place in both. -/
theorem eq_of_flatMap (h : DerivedBy spelling text thing) {Ends : Bytes → Prop} {tail tail' : Bytes}
    (hone : ∀ {w w' rest rest'}, thing w = thing w' → Ends rest → Ends rest' →
      text w ++ rest = text w' ++ rest' → rest = rest')
    (hends : ∀ ws : List ω, Ends (ws.flatMap text ++ tail))
    (hends' : ∀ ws : List ω, Ends (ws.flatMap text ++ tail')) {ws ws' : List ω}
    (hthings : ws.map thing = ws'.map thing)
    (htext : ws.flatMap text ++ tail = ws'.flatMap text ++ tail') : ws = ws' ∧ tail = tail' := by
  induction ws generalizing ws' with
  | nil =>
    obtain rfl : ws' = [] := List.map_eq_nil_iff.1 hthings.symm
    exact ⟨rfl, htext⟩
  | cons w ws ih =>
    cases ws' with
    | nil => cases hthings
    | cons w' ws' =>
      obtain ⟨hthing, hmore⟩ := List.cons.inj hthings
      rw [List.flatMap_cons, List.flatMap_cons, List.append_assoc, List.append_assoc] at htext
      -- The first texts may differ until what stands behind them is known to be the same.
      have hbehind := hone hthing (hends ws) (hends' ws') htext
      obtain ⟨rfl, htail⟩ := ih hmore hbehind
      rw [hbehind] at htext
      have hline : text w = text w' := List.append_cancel_right htext
      exact ⟨congrArg (· :: ws) (h.eq_of_eq hline hthing), htail⟩

/-- Where nothing is behind them, the same holds. -/
theorem eq_of_flatMap_eq (h : DerivedBy spelling text thing) {Ends : Bytes → Prop}
    (hone : ∀ {w w' rest rest'}, thing w = thing w' → Ends rest → Ends rest' →
      text w ++ rest = text w' ++ rest' → rest = rest')
    (hends : ∀ ws : List ω, Ends (ws.flatMap text)) {ws ws' : List ω}
    (hthings : ws.map thing = ws'.map thing) (htext : ws.flatMap text = ws'.flatMap text) :
    ws = ws' := by
  have hends (ws : List ω) : Ends (ws.flatMap text ++ []) := by
    rw [List.append_nil]
    exact hends ws
  exact (h.eq_of_flatMap hone hends hends hthings (congrArg (· ++ []) htext)).1

/-- What a reader accepts is derived in one way, if it accepts what may be written. -/
theorem reads (h : DerivedBy spelling text thing) {ε : Type} {read : Bytes → Except ε α}
    (hread : ∀ {buffer a}, read buffer = .ok a ↔ spelling a buffer) :
    ReadsDerivations read text thing where
  read_eq_ok_iff _ _ := hread.trans h.spelled_iff
  injective := by
    intro w w' htext
    -- the one text is read as both things
    have hthing := hread.2 (h.spelled w)
    rw [htext, hread.2 (h.spelled w')] at hthing
    exact h.eq_of_eq htext (Except.ok.inj hthing).symm

end DerivedBy

end PacketWire
