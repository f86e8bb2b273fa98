import PacketWire.Proofs.Packet.Build
import PacketWire.Proofs.Rendering.Values

namespace PacketWire

open Write Sendable

/-!
# Rendering

A packet is written line by line, and what is written has the size that is computed beforehand, if
the packet was built: only then is there no data without a method. So packets that were built are
rendered as a sender sees it, and all lists, dicts, paths and updates are (`rendersExactly`).
-/

/-- A modifier is written as its wire form, with its length or without. -/
theorem Modifier.writes_write {m : Modifier} {counted : Bool} :
    Writes (m.write counted) (m.wire counted) := by
  have hlength : Writes (onlyIf counted do byte Byte.space; number m.value.length)
      (if counted then Byte.space :: Decimal.digits m.value.length else []) :=
    (writes_byte.bind writes_number).onlyIf
  have hline : Writes (do byte Byte.tab; put m.value; byte Byte.lineFeed)
      (Byte.tab :: m.value ++ [Byte.lineFeed]) :=
    writes_byte.bind (writes_put.bind writes_byte)
  rw [wire, List.append_assoc, List.append_assoc]
  exact writes_byte.bind (writes_put.bind (hlength.bind hline))

namespace Packet

variable {d : Draft} {t : Thresholds} {p : Packet}

/-- The fields of content are written line by line. -/
theorem Fields.writes_write {f : Fields} : Writes f.write f.wire := by
  have hstate : Writes (f.state.glyph?.forM fun glyph => do byte glyph; byte Byte.lineFeed)
      (stateWire f.state) := by
    rw [stateWire]
    cases f.state.glyph? with
    | none => exact writes_pure
    | some glyph => exact writes_byte.bind writes_byte
  have hdata : Writes (onlyIf (!f.data.isEmpty) do put f.data; byte Byte.lineFeed)
      (if f.data.isEmpty then [] else f.data ++ [Byte.lineFeed]) :=
    (writes_put.bind writes_byte).unless
  rw [wire, List.append_assoc]
  exact hstate.bind ((writes_forM fun _ => Modifier.writes_write).bind
    (writes_put.bind (writes_byte.bind hdata)).unless)

/-- Content is written as its fields, or as it is. -/
theorem Content.writes_write {c : Content} : Writes c.write c.wire := by
  cases c with
  | fields f => exact Fields.writes_write
  | raw bytes => exact writes_put

/-- A packet is written as its wire form. -/
theorem writes_write : Writes p.write p.wire := by
  rw [wire, List.append_assoc, List.append_assoc, List.append_assoc]
  exact (writes_forM fun _ => Modifier.writes_write).bind
    (writes_number.onlyIf.bind (writes_byte.onlyIf.bind (Content.writes_write.bind writes_put)))

/-- A packet that was built is rendered as its wire form. -/
theorem renders_wire_of_build (h : d.build t = .ok p) : RendersExactly p p.wire :=
  rendersExactly_of_writes writes_write (isValid_of_build h).length_wire

/-- Packets that were built are rendered one after the other. -/
theorem mapM_toBytes_of_build {ps : List Packet}
    (h : ∀ p ∈ ps, ∃ (d : Draft) (t : Thresholds), d.build t = .ok p) :
    ps.mapM toBytes = some (ps.map wire) := by
  induction ps with
  | nil => rfl
  | cons p ps ih =>
    obtain ⟨⟨d, t, hp⟩, hps⟩ := List.forall_mem_cons.1 h
    rw [List.mapM_cons, (renders_wire_of_build hp).toBytes, ih hps]
    rfl

end Packet

/-- A packet that was built is rendered with the size that was computed for it, and so is every
    list, dict, path and update. -/
theorem rendersExactly :
    (∀ (d : Packet.Draft) (t : Thresholds) (p : Packet), d.build t = .ok p →
      RendersExactly p p.wire) ∧
      (∀ l : ListValue, RendersExactly l l.wire) ∧ (∀ d : DictValue, RendersExactly d d.wire) ∧
      (∀ p : Path, RendersExactly p p.wire) ∧ ∀ u : Update, RendersExactly u u.wire :=
  ⟨fun _ _ _ => Packet.renders_wire_of_build, ListValue.renders_wire,
    DictValue.renders_wire, Path.renders_wire, Update.renders_wire⟩

/-- A packet of five bytes is refused by a buffer of four, and comes to the start of one of
    seven. -/
theorem rendersExactly_on_method :
    ∃ p : Packet, Packet.Draft.build ⟨[], [], .none, Bytes.ofText "m", [], none, .automatic⟩ {} =
        .ok p ∧
      render p [7, 7, 7, 7] = some (.error ⟨5, 4⟩, [7, 7, 7, 7]) ∧
      render p [7, 7, 7, 7, 7, 7, 7] = some (.ok 5, Bytes.ofText "\nm\n|\n" ++ [7, 7]) ∧
      encode p [7] = some (7 :: Bytes.ofText "\nm\n|\n") := by
  let p : Packet := ⟨[], .fields { method := Bytes.ofText "m" }, false⟩
  have hbuild : Packet.Draft.build ⟨[], [], .none, Bytes.ofText "m", [], none, .automatic⟩ {} =
      .ok p := rfl
  have hexact := rendersExactly.1 _ _ p hbuild
  exact ⟨p, hbuild, (hexact.refuses [7, 7, 7, 7]).2 (by decide),
    hexact.renders [7, 7, 7, 7, 7, 7, 7], hexact.encodes [7]⟩

end PacketWire
