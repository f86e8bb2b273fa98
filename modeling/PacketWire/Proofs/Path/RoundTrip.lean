import PacketWire.Proofs.Checks
import PacketWire.Proofs.Key.Wire
import PacketWire.Proofs.Path.Accepts
import PacketWire.Proofs.Series
import PacketWire.Proofs.Rendering.Values

namespace PacketWire.Path

open Scan

/-!
# The wire form of a path

The steps of a path that is built are written in one of the ways to write them, if each key that
does not have its length told can do without (`series_wire`). Only then a path of the same content
is read from its wire form, and what is read is the path as it was written (`isSafe_of_parse`).
-/

variable {p p' : Path} {seg seg' : Segment} {segs : List Segment} {drafts : List Segment.Draft}
  {t : Thresholds} {text rest rest' : Bytes}

/-- The step as its wire form tells it. -/
def Segment.written : Segment → Segment
  | key k => key k.written
  | seg => seg

/-- The step, whether or not the length of a key is told. -/
def Segment.content : Segment → Segment
  | key k => key { k with counted := false }
  | seg => seg

/-- Marks of empty keys are no part of what a step says. -/
theorem Segment.content_written : seg.written.content = seg.content := by
  cases seg <;> rfl

/-- The path as its wire form tells it. -/
def written (p : Path) : Path := ⟨p.segments.map Segment.written⟩

/-- The paths are the same but for the lengths of keys that are told. -/
def SameContent (p p' : Path) : Prop :=
  p.segments.map Segment.content = p'.segments.map Segment.content

/-- Nor of what a path says. -/
theorem sameContent_written : p.written.SameContent p := by
  rw [SameContent, written, List.map_map]
  exact List.map_congr_left fun seg _ => seg.content_written

/-- A key has its length told, if it needs it. -/
def Segment.IsSafe : Segment → Prop
  | key k => k.IsSafe
  | _ => True

/-- What is built and can be written: the names of fields are keywords, and no key is longer than
    its length can tell. -/
def Segment.IsValid : Segment → Prop
  | field name => isKeyword name
  | key k => k.value.length < Decimal.bound
  | index _ => True

/-- A path is safe if its keys are. -/
theorem forall_isSafe_iff :
    (∀ seg ∈ segs, seg.IsSafe) ↔ ∀ k, Segment.key k ∈ segs → k.IsSafe := by
  constructor
  · exact fun h k hk => h _ hk
  · intro h seg hseg
    cases seg with
    | index => trivial
    | field => trivial
    | key k => exact h k hseg

/-! ### Built paths -/

/-- A field that is built has a keyword for its name. -/
theorem Segment.isKeyword_of_build {draft : Segment.Draft} {name : Bytes}
    (h : draft.build t = .ok (.field name)) : isKeyword name := by
  cases draft with
  | index n => cases h
  | key k => cases h
  | field name' =>
    obtain ⟨_, hcheck, hmade⟩ := Except.bind_eq_ok_iff.1 h
    cases hmade
    exact checkKeyword_eq_ok_iff.1 hcheck

/-- The steps of a path that is built are valid. -/
theorem isValid_of_build (h : build drafts t = .ok p) (hsize : p.wireSize < Decimal.bound) :
    ∀ seg ∈ p.segments, seg.IsValid := by
  obtain ⟨segments, hsegments, hmade⟩ := Except.bind_eq_ok_iff.1 h
  cases hmade
  intro seg hseg
  cases seg with
  | index => trivial
  | field name =>
    obtain ⟨_, -, hbuilt⟩ := Except.exists_of_mem_mapM hsegments hseg
    exact Segment.isKeyword_of_build hbuilt
  | key k =>
    have hone : k.wireSize ≤ totalSize Segment.wireSize segments :=
      @le_totalSize _ Segment.wireSize _ _ hseg
    exact Nat.lt_of_le_of_lt (Nat.le_trans k.length_value_le hone) hsize

/-! ### Reading back -/

/-- The index of an element fits into 64 bits. -/
theorem numeral_index {n : UInt64} : Numeral n.toNat (Decimal.digits n.toNat) :=
  Decimal.numeral_digits n.toNat_lt

/-- A step is written in one of the ways to write it. -/
theorem Segment.spelled_wire (hvalid : seg.IsValid) (hsafe : seg.IsSafe) :
    SegmentSpelled seg.written seg.wire := by
  cases seg with
  | index n => exact .index numeral_index
  | field name => exact .field hvalid
  | key k => exact .key (Key.spelled_wire hvalid hsafe)

/-- Safe steps are written in one of the ways to write them. -/
theorem series_wire (hvalid : ∀ seg ∈ segs, seg.IsValid) (hsafe : ∀ seg ∈ segs, seg.IsSafe) :
    Series SegmentSpelled (segs.map Segment.written) (segs.flatMap Segment.wire) :=
  Series.flatMap fun seg hseg => Segment.spelled_wire (hvalid seg hseg) (hsafe seg hseg)

/-- A step of the same content at the start of a wire form is all of it, if nothing behind them goes
    on with either. -/
theorem Segment.eq_of_spelled (hvalid : seg.IsValid) (h : SegmentSpelled seg' text)
    (hcontent : seg'.content = seg.content) (hends : Scan.Stops Byte.isKeyword rest)
    (hends' : Scan.Stops Byte.isKeyword rest') (hi : text ++ rest = seg.wire ++ rest') :
    seg.IsSafe ∧ seg' = seg.written ∧ rest = rest' := by
  have hunique (hsafe : seg.IsSafe) : seg.IsSafe ∧ seg' = seg.written ∧ rest = rest' :=
    ⟨hsafe, h.unique (spelled_wire hvalid hsafe) (stops_of_keyword hends) (stops_of_keyword hends')
      hi⟩
  cases seg with
  | index n => exact hunique trivial
  | field name => exact hunique trivial
  | key k =>
    cases h with
    | index => cases hcontent
    | field => cases hcontent
    | bareField => cases hcontent
    | key hkey =>
      have hvalue := (Key.mk.inj (Segment.key.inj hcontent)).1
      exact hunique (Key.isSafe_of_spelled hkey hvalue hi)

/-- Whatever step comes next, it ends a keyword. -/
theorem stops_flatMap : Scan.Stops Byte.isKeyword (segs.flatMap Segment.wire) := by
  cases segs with
  | nil => exact stops_nil
  | cons seg segs => cases seg <;> exact stops_cons_iff.2 (by decide)

/-- A path of the same content is read back only if each key that needs its length has it told. -/
theorem isSafe_of_parse (hvalid : ∀ seg ∈ p.segments, seg.IsValid) (hparse : parse p.wire = .ok p')
    (hsame : p'.SameContent p) : (∀ seg ∈ p.segments, seg.IsSafe) ∧ p' = p.written := by
  generalize hw : p.wire = text at hparse
  cases parse_eq_ok_iff.1 hparse with
  | mk hseries =>
    obtain ⟨hsafe, rfl⟩ := Series.eq_map_of_content_of_eq
      (fun seg hseg => Segment.eq_of_spelled (hvalid seg hseg)) stops_of_series
      (fun _ => stops_flatMap) hseries hsame hw.symm
    exact ⟨hsafe, rfl⟩

/-- A valid and safe path is read back as it was written. -/
theorem parse_wire (hvalid : ∀ seg ∈ p.segments, seg.IsValid)
    (hsafe : ∀ seg ∈ p.segments, seg.IsSafe) : parse p.wire = .ok p.written :=
  parse_eq_ok_iff.2 (.mk (series_wire hvalid hsafe))

end PacketWire.Path
