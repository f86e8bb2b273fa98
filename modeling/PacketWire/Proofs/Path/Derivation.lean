import PacketWire.Proofs.Key.Derivation
import PacketWire.Proofs.Path.Units

namespace PacketWire.Path

/-!
# Derivations of paths

A derivation of a path is a derivation of each of its steps (`derivedBy_spelled`). The digits of an
index are part of it, and so is the `_` in front of the name of a field, if there is one.
-/

/-- A way to write a step. -/
inductive Segment.Derivation where
  /-- A `#` and the index. -/
  | index (n : UInt64) (digits : Bytes) (numeral : Numeral n.toNat digits)
  /-- A `.`, a `_` and the name. -/
  | field (name : Bytes) (isName : isKeyword name)
  /-- A `.` and the name, which starts with no `_`. -/
  | bareField (name : Bytes) (isName : isKeyword name)
      (notMarked : name.head? ≠ some Byte.underscore)
  /-- A key in its braces. -/
  | key (key : Key.Derivation)

namespace Segment.Derivation

/-- What is written. -/
def text : Segment.Derivation → Bytes
  | index _ digits _ => Byte.hash :: digits
  | field name _ => Byte.dot :: Byte.underscore :: name
  | bareField name _ _ => Byte.dot :: name
  | key k => k.text

/-- The step. -/
def segment : Segment.Derivation → Segment
  | index n _ _ => .index n
  | field name _ => .field name
  | bareField name _ _ => .field name
  | key k => .key k.key

end Segment.Derivation

/-- A way to write a path. -/
structure Derivation where
  /-- The steps, from the outside in. -/
  segments : List Segment.Derivation

namespace Derivation

/-- What is written. -/
def text (w : Derivation) : Bytes := w.segments.flatMap Segment.Derivation.text

/-- The path. -/
def path (w : Derivation) : Path := ⟨w.segments.map Segment.Derivation.segment⟩

end Derivation

variable {rest rest' : Bytes} {w w' : Segment.Derivation}

/-! ### Steps -/

/-- A derivation of a step is known by its text and the step. -/
theorem Segment.Derivation.eq_of_eq (htext : w.text = w'.text) (hseg : w.segment = w'.segment) :
    w = w' := by
  -- Of the two ways to write a field only one has the second glyph in front of the name.
  have hmark (name : Bytes) : Byte.dot :: Byte.underscore :: name ≠ Byte.dot :: name := by simp
  cases w with
  | index n digits hnum =>
    cases w' with
    | index n' digits' hnum' =>
      obtain rfl := Segment.index.inj hseg
      obtain rfl := (List.cons.inj htext).2
      rfl
    | field => cases hseg
    | bareField => cases hseg
    | key => cases hseg
  | field name hname =>
    cases w' with
    | index => cases hseg
    | field name' hname' =>
      obtain rfl := Segment.field.inj hseg
      rfl
    | bareField name' hname' hhead =>
      obtain rfl := Segment.field.inj hseg
      exact absurd htext (hmark name)
    | key => cases hseg
  | bareField name hname hhead =>
    cases w' with
    | index => cases hseg
    | field name' hname' =>
      obtain rfl := Segment.field.inj hseg
      exact absurd htext.symm (hmark name)
    | bareField name' hname' hhead' =>
      obtain rfl := Segment.field.inj hseg
      rfl
    | key => cases hseg
  | key k =>
    cases w' with
    | index => cases hseg
    | field => cases hseg
    | bareField => cases hseg
    | key k' =>
      obtain rfl := Key.derivedBy_spelled.eq_of_eq htext (Segment.key.inj hseg)
      rfl

theorem derivedBy_segmentSpelled :
    DerivedBy SegmentSpelled Segment.Derivation.text Segment.Derivation.segment where
  spelled_iff := by
    intro seg line
    constructor
    · intro h
      cases h with
      | index hnum => exact ⟨.index _ _ hnum, rfl, rfl⟩
      | field hname => exact ⟨.field _ hname, rfl, rfl⟩
      | bareField hname hhead => exact ⟨.bareField _ hname hhead, rfl, rfl⟩
      | key hkey =>
        obtain ⟨k, rfl, rfl⟩ := Key.derivedBy_spelled.spelled_iff.1 hkey
        exact ⟨.key k, rfl, rfl⟩
    · rintro ⟨w, rfl, rfl⟩
      cases w with
      | index n digits hnum => exact .index hnum
      | field name hname => exact .field hname
      | bareField name hname hhead => exact .bareField hname hhead
      | key k => exact .key (Key.derivedBy_spelled.spelled k)
  eq_of_eq := Segment.Derivation.eq_of_eq

/-- A step ends at one place, in front of what no name or number goes on with. -/
theorem Segment.Derivation.rest_eq (hstops : Scan.Stops Byte.isKeyword rest)
    (hstops' : Scan.Stops Byte.isKeyword rest') (hi : w.text ++ rest = w'.text ++ rest') :
    rest = rest' :=
  ((derivedBy_segmentSpelled.spelled w).unique (derivedBy_segmentSpelled.spelled w')
    (Segment.stops_of_keyword hstops) (Segment.stops_of_keyword hstops') hi).2

/-- No step starts as a name or number goes on. -/
theorem Segment.Derivation.stops (ws : List Segment.Derivation) :
    Scan.Stops Byte.isKeyword (ws.flatMap text) :=
  stops_of_series (Series.flatMap fun w _ => derivedBy_segmentSpelled.spelled w)

/-! ### Paths -/

theorem derivedBy_spelled : DerivedBy Spelled Derivation.text Derivation.path where
  spelled_iff := by
    intro path line
    constructor
    · intro h
      cases h with
      | mk hsegments =>
        obtain ⟨ws, rfl, rfl⟩ := derivedBy_segmentSpelled.series_iff.1 hsegments
        exact ⟨⟨ws⟩, rfl, rfl⟩
    · rintro ⟨w, rfl, rfl⟩
      exact .mk (derivedBy_segmentSpelled.series_iff.2 ⟨w.segments, rfl, rfl⟩)
  eq_of_eq := by
    rintro ⟨ws⟩ ⟨ws'⟩ htext hpath
    obtain rfl := derivedBy_segmentSpelled.eq_of_flatMap_eq (fun _ => Segment.Derivation.rest_eq)
      Segment.Derivation.stops (Path.mk.inj hpath) htext
    rfl

end PacketWire.Path
