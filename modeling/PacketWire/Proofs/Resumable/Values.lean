import PacketWire.Proofs.DictValue.Resume
import PacketWire.Proofs.ListValue.Accepts
import PacketWire.Proofs.Path.Resume

namespace PacketWire

open PacketWire.Parser

/-!
# Values that come in parts

Lists, dicts and paths that are accepted as a whole are read to their end, too, where they come in
growing buffers that are cut anywhere, as long as the end of a buffer is not taken for the end of
the value. What is read then is what is read of the whole (`values_read_through`).
-/

/-- A list, a dict or a path that comes in growing buffers is read as if it came all at once. -/
theorem values_read_through :
    (∀ (value : Bytes) (l : ListValue), ListValue.parse value = .ok l →
      ListValue.parser.ReadsThrough ListValue.joined .finish value l.units) ∧
      (∀ (value : Bytes) (d : DictValue), DictValue.parse value = .ok d →
        DictValue.parser.ReadsThrough DictValue.joined .finish value d.units) ∧
      ∀ (value : Bytes) (p : Path), Path.parse value = .ok p →
        Path.parser.ReadsThrough Path.joined .finish value p.units :=
  ⟨fun _ _ => ListValue.readsThrough_of_parse, fun _ _ => DictValue.readsThrough_of_parse,
    fun _ _ => Path.readsThrough_of_parse⟩

/-- They are cut inside a value, behind the digits of a length, inside a key and in front of its
    closing brace. -/
theorem values_read_through_cuts :
    (∃ fs r, Finishes (Bytes.ofText "|:3 abc| d") (⟨.within 1, 6⟩ : Parser ListValue.machine) fs
      .finish r ∧
        ListValue.joined ([.opening [] (Bytes.ofText "a") 3, .piece (Bytes.ofText "b") false] ++
          fs) = ListValue.units
            ⟨[], [⟨[], Bytes.ofText "abc", true⟩, ⟨[], Bytes.ofText "d", false⟩]⟩) ∧
      (∃ fs r, Finishes (Bytes.ofText "\x7b3 abc\x7d d")
        (⟨.value, 6⟩ : Parser DictValue.machine) fs .finish r ∧
          DictValue.joined ([.keyOpening (Bytes.ofText "a") 3,
            .keyPiece (Bytes.ofText "bc") true] ++ fs) = DictValue.units
              ⟨[], [⟨⟨Bytes.ofText "abc", true⟩, ⟨[], Bytes.ofText "d", false⟩⟩]⟩) ∧
      ∃ fs r, Finishes (Bytes.ofText "\x7b3 abc\x7d#1") (⟨.keyEnd, 6⟩ : Parser Path.machine) fs
        .finish r ∧
          Path.joined ([.piece (.keyOpening (Bytes.ofText "a") 3),
            .piece (.keyPiece (Bytes.ofText "bc") true)] ++ fs) =
              Path.units ⟨[.key ⟨Bytes.ofText "abc", true⟩, .index 1]⟩ := by
  refine ⟨?_, ?_, ?_⟩
  -- inside a value, twice
  · have hlist : ListValue.parse (Bytes.ofText "|:3 abc| d") =
        .ok ⟨[], [⟨[], Bytes.ofText "abc", true⟩, ⟨[], Bytes.ofText "d", false⟩]⟩ := rfl
    have hopening : WaitsAfter (Bytes.ofText "|:3 a") ListValue.parser
        [.opening [] (Bytes.ofText "a") 3] ⟨.within 2, 5⟩ :=
      ⟨by decide, ⟨.within 2, 5⟩, .step rfl (.refl _), rfl⟩
    have hpiece : WaitsAfter (Bytes.ofText "|:3 ab")
        (⟨.within 2, 5⟩ : Parser ListValue.machine) [.piece (Bytes.ofText "b") false]
        ⟨.within 1, 6⟩ :=
      ⟨by decide, ⟨.within 1, 6⟩, .step rfl (.refl _), rfl⟩
    exact values_read_through.1 _ _ hlist _ _ _ (by decide) (.cons hopening (.cons hpiece .nil))
  -- behind the digits of a length, then inside the key
  · have hdict : DictValue.parse (Bytes.ofText "\x7b3 abc\x7d d") =
        .ok ⟨[], [⟨⟨Bytes.ofText "abc", true⟩, ⟨[], Bytes.ofText "d", false⟩⟩]⟩ := rfl
    have hlength : WaitsAfter (Bytes.ofText "\x7b3") DictValue.parser [] ⟨.key, 0⟩ :=
      ⟨by decide, DictValue.parser, .refl _, rfl⟩
    have hopening : WaitsAfter (Bytes.ofText "\x7b3 a") (⟨.key, 0⟩ : Parser DictValue.machine)
        [.keyOpening (Bytes.ofText "a") 3] ⟨.keyWithin 2, 4⟩ :=
      ⟨by decide, ⟨.keyWithin 2, 4⟩, .step rfl (.refl _), rfl⟩
    have hpiece : WaitsAfter (Bytes.ofText "\x7b3 abc")
        (⟨.keyWithin 2, 4⟩ : Parser DictValue.machine) [.keyPiece (Bytes.ofText "bc") true]
        ⟨.value, 6⟩ :=
      ⟨by decide, ⟨.value, 6⟩, .step rfl (.refl _), rfl⟩
    exact values_read_through.2.1 _ _ hdict _ _ _ (by decide)
      (.cons hlength (.cons hopening (.cons hpiece .nil)))
  -- inside a key, then in front of its brace
  · have hpath : Path.parse (Bytes.ofText "\x7b3 abc\x7d#1") =
        .ok ⟨[.key ⟨Bytes.ofText "abc", true⟩, .index 1]⟩ := rfl
    have hopening : WaitsAfter (Bytes.ofText "\x7b3 a") Path.parser
        [.piece (.keyOpening (Bytes.ofText "a") 3)] ⟨.keyWithin 2, 4⟩ :=
      ⟨by decide, ⟨.keyWithin 2, 4⟩, .step rfl (.refl _), rfl⟩
    have hpiece : WaitsAfter (Bytes.ofText "\x7b3 abc")
        (⟨.keyWithin 2, 4⟩ : Parser Path.machine) [.piece (.keyPiece (Bytes.ofText "bc") true)]
        ⟨.keyEnd, 6⟩ :=
      ⟨by decide, ⟨.keyEnd, 6⟩, .step rfl (.refl _), rfl⟩
    exact values_read_through.2.2 _ _ hpath _ _ _ (by decide)
      (.cons hopening (.cons hpiece .nil))

end PacketWire
