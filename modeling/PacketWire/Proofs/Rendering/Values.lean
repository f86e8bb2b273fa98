import PacketWire.Proofs.Writer
import PacketWire.WireForm

namespace PacketWire

open Write

/-!
# Rendering values

Lists, dicts, paths and updates are written as their wire forms, piece by piece, and the wire forms
have the sizes that are computed beforehand. Together this says that rendering goes as a sender sees
it (`Sendable.rendersExactly_of_writes`): the slice that is made for the wire form is filled, no
more and no less.
-/

/-! ### Buffers -/

namespace Sendable

variable {α : Type} [Sendable α] {a : α} {bytes : Bytes}

/-- Rendering goes as a sender sees it, if the bytes are written and have the computed size. -/
theorem rendersExactly_of_writes (hwrites : Writes (write a) bytes)
    (hlength : bytes.length = wireSize a) : RendersExactly a bytes := by
  have hfills : ∀ slice : Bytes, slice.length = wireSize a →
      (write a).run ⟨slice, 0⟩ = some ((), ⟨bytes, wireSize a⟩) := fun slice hslice => by
    rw [← hlength]
    exact hwrites.fills (hslice.trans hlength.symm)
  have hfill : ∀ slice : Bytes, slice.length = wireSize a → fill a slice = some bytes :=
    fun slice hslice => by
      rw [fill, hfills slice hslice]
      exact if_pos rfl
  -- the slice that is filled is the start of the buffer, which is as long as was computed
  have hrenders : ∀ buffer : Bytes, render a buffer = some (writtenTo bytes buffer) :=
    fun buffer => by
      rw [render, writtenTo, hlength]
      split
      · rfl
      · next hlt =>
        rw [hfill _ (List.length_take_of_le (Nat.le_of_not_lt hlt))]
        rfl
  have hencodes : ∀ sent : Bytes, encode a sent = some (sent ++ bytes) := fun sent => by
    rw [encode, hfill _ List.length_replicate]
    rfl
  refine ⟨hlength, hfills, fun buffer => ?_, hrenders, hencodes, hencodes []⟩
  rw [hrenders, writtenTo, hlength]
  split
  · next hlt => exact iff_of_true rfl hlt
  · next hlt => exact iff_of_false nofun hlt

end Sendable

/-! ### Elements and keys -/

namespace Element

variable {e : Element}

/-- An element is written with its type behind the mark, if there is one. -/
theorem writes_write (mark : Option UInt8) :
    Writes (e.write mark)
      ((if e.type.isEmpty then [] else mark.toList ++ e.type) ++ e.valueWire) := by
  have hmark : Writes (mark.forM byte) mark.toList := by
    cases mark with
    | none => exact writes_pure
    | some b => exact writes_byte
  have hlength : Writes (onlyIf e.writesLength do byte Byte.colon; number e.value.length)
      (if e.writesLength then Byte.colon :: Decimal.digits e.value.length else []) :=
    (writes_byte.bind writes_number).onlyIf
  have hvalue : Writes (onlyIf (!e.value.isEmpty) do byte Byte.space; put e.value)
      (if e.value.isEmpty then [] else Byte.space :: e.value) :=
    (writes_byte.bind writes_put).unless
  exact (hmark.bind writes_put).unless.bind (hlength.bind hvalue)

/-- An element of a list or dict is written as its wire form. -/
theorem writes_marked : Writes (e.write (some Byte.equalSign)) e.wire := writes_write _

/-- Without a mark, an element is written as an operand. -/
theorem writes_operand : Writes (e.write none) e.operandWire := by
  have htype :
      (if e.type.isEmpty then [] else (none : Option UInt8).toList ++ e.type) = e.type := by
    cases e.type <;> rfl
  have hwrites := @writes_write e none
  rwa [htype] at hwrites

/-- The length and the value have the size that is computed for them. -/
theorem length_valueWire : e.valueWire.length = e.valueWireSize := by
  rw [valueWire, valueWireSize, List.length_append]
  congr 1
  · split
    · rw [List.length_cons, Decimal.length_digits, Nat.add_comm]
    · rfl
  · split
    · rfl
    · exact Nat.add_comm _ _

/-- An element has the size that is computed for it. -/
theorem length_wire : e.wire.length = e.wireSize := by
  rw [wire, wireSize, List.length_append, length_valueWire]
  congr 1
  split
  · rfl
  · exact Nat.add_comm _ _

/-- An operand has the size that is computed for it. -/
theorem length_operandWire : e.operandWire.length = e.operandWireSize := by
  rw [operandWire, operandWireSize, List.length_append, length_valueWire]

end Element

namespace Key

variable {k : Key}

/-- A key is written in its braces. -/
theorem writes_write : Writes k.write k.wire := by
  have hlength : Writes (onlyIf k.writesLength do number k.value.length; byte Byte.space)
      (if k.writesLength then Decimal.digits k.value.length ++ [Byte.space] else []) :=
    (writes_number.bind writes_byte).onlyIf
  rw [wire, List.append_assoc, List.cons_append]
  exact writes_byte.bind (hlength.bind (writes_put.bind writes_byte))

/-- A key in its braces has the size that is computed for it. -/
theorem length_wire : k.wire.length = k.wireSize := by
  have hlength :
      (if k.writesLength then Decimal.digits k.value.length ++ [Byte.space] else []).length =
        if k.writesLength then Decimal.width k.value.length + 1 else 0 := by
    split
    · rw [List.length_append, Decimal.length_digits, List.length_singleton]
    · rfl
  rw [wire, wireSize, List.length_append, List.length_append, List.length_cons, hlength,
    List.length_singleton]
  omega

end Key

/-! ### Lists and dicts -/

open Sendable

namespace ListValue

variable {l : ListValue}

/-- A list is written element by element. -/
theorem writes_write : Writes l.write l.wire :=
  writes_put.bind (writes_forM fun _ => writes_byte.bind Element.writes_marked)

/-- A list has the size that is computed for it: a byte for each `|`, and the elements. -/
theorem length_wire : l.wire.length = l.wireSize := by
  rw [wire, wireSize, List.length_append, length_flatMap_eq_totalSize fun e _ => ?_]
  rw [List.length_cons, Element.length_wire, Nat.add_comm]

/-- Every list is rendered as its wire form. -/
theorem renders_wire (l : ListValue) : RendersExactly l l.wire :=
  rendersExactly_of_writes writes_write length_wire

end ListValue

namespace DictValue

variable {d : DictValue}

/-- A dict is written entry by entry. -/
theorem writes_write : Writes d.write d.wire :=
  writes_put.bind (writes_forM fun _ => Key.writes_write.bind Element.writes_marked)

/-- A dict has the size that is computed for it. -/
theorem length_wire : d.wire.length = d.wireSize := by
  rw [wire, wireSize, List.length_append, length_flatMap_eq_totalSize fun e _ => ?_]
  rw [Entry.wire, Entry.wireSize, List.length_append, Key.length_wire, Element.length_wire]

/-- Every dict is rendered as its wire form. -/
theorem renders_wire (d : DictValue) : RendersExactly d d.wire :=
  rendersExactly_of_writes writes_write length_wire

end DictValue

/-! ### Paths and updates -/

namespace Path

variable {p : Path} {seg : Segment}

/-- A step is written as its wire form. -/
theorem Segment.writes_write : Writes seg.write seg.wire := by
  cases seg with
  | index n => exact writes_byte.bind writes_number
  | field name => exact writes_put.bind writes_put
  | key k => exact Key.writes_write

/-- A step has the size that is computed for it. -/
theorem Segment.length_wire : seg.wire.length = seg.wireSize := by
  cases seg with
  | index n => exact (congrArg (· + 1) (Decimal.length_digits _)).trans (Nat.add_comm _ _)
  | field name => exact (Nat.add_comm 2 name.length).symm
  | key k => exact Key.length_wire

/-- A path is written step by step. -/
theorem writes_write : Writes p.write p.wire := writes_forM fun _ => Segment.writes_write

/-- A path has the size that is computed for it. -/
theorem length_wire : p.wire.length = p.wireSize :=
  length_flatMap_eq_totalSize fun _ _ => Segment.length_wire

/-- Every path is rendered as its wire form. -/
theorem renders_wire (p : Path) : RendersExactly p p.wire :=
  rendersExactly_of_writes writes_write length_wire

end Path

namespace Update

variable {u : Update}

/-- An update is written as its path, its operator and its operand. -/
theorem writes_write : Writes u.write u.wire := by
  rw [wire, List.append_assoc, List.append_assoc]
  exact Path.writes_write.bind
    (writes_byte.unless.bind (writes_byte.bind Element.writes_operand))

/-- An update has the size that is computed for it. -/
theorem length_wire : u.wire.length = u.wireSize := by
  have hspace : (if u.path.isEmpty then [] else [Byte.space]).length =
      if u.path.isEmpty then 0 else 1 := by
    split <;> rfl
  rw [wire, wireSize, List.length_append, List.length_append, List.length_append, hspace,
    Path.length_wire, Element.length_operandWire, List.length_singleton]

/-- Every update is rendered as its wire form. -/
theorem renders_wire (u : Update) : RendersExactly u u.wire :=
  rendersExactly_of_writes writes_write length_wire

end Update

end PacketWire
