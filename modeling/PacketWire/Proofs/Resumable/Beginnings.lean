import PacketWire.Proofs.DictValue.Accepts
import PacketWire.Proofs.DictValue.Beginning
import PacketWire.Proofs.ListValue.Accepts
import PacketWire.Proofs.ListValue.Beginning
import PacketWire.Proofs.Update.Beginning

namespace PacketWire

open PacketWire.Parser

/-!
# Values that are cut

A parser that is given the first bytes of a list, a dict, a path or an update asks for more input,
or takes the end of the buffer for the end of the value. There is one exception: where the buffer
ends behind a mark, and the type, the length, the number or the name that has to come is missing
altogether, it meets a fault (`first_bytes_fail_just_at_marks`).
-/

/-- The first bytes of a value make a fault where they end at a bare mark, and nowhere else. -/
theorem first_bytes_fail_just_at_marks (front back : Bytes) :
    (∀ l, ListValue.parse (front ++ back) = .ok l →
      ListValue.parser.FailsJustAt front (ListValue.CutsMark front)) ∧
      (∀ d, DictValue.parse (front ++ back) = .ok d →
        DictValue.parser.FailsJustAt front (DictValue.CutsMark front)) ∧
      (∀ p, Path.parse (front ++ back) = .ok p →
        Path.parser.FailsJustAt front (Path.CutsMark front)) ∧
      ∀ u, Update.parse (front ++ back) = .ok u →
        Update.parser.FailsJustAt front (Update.CutsMark front) :=
  ⟨fun _ h => ListValue.failsJustAt (ListValue.parse_eq_ok_iff.1 h),
    fun _ h => DictValue.failsJustAt (DictValue.parse_eq_ok_iff.1 h),
    fun _ h => Path.failsJustAt (Path.parse_eq_ok_iff.1 h),
    fun _ h => Update.failsJustAt (Update.parse_eq_ok_iff.1 h)⟩

/-- They are cut behind the `:` of a length, behind the `=` of a type, behind the `#` of an index
    and behind the `:` of an operand, and a path is cut inside a key, too. -/
theorem first_bytes_fail_at_colon :
    (∃ es, Fails (Bytes.ofText "|:") ListValue.parser es ⟨.badLength, 2⟩) ∧
      (∃ es, Fails (Bytes.ofText "\x7bk\x7d=") DictValue.parser es ⟨.badType, 4⟩) ∧
      ((∃ es, Fails (Bytes.ofText "._a#") Path.parser es ⟨.badIndex, 4⟩) ∧
        Lasts (Bytes.ofText "._a\x7b2 x") Path.parser) ∧
      ∃ es, Fails (Bytes.ofText "#1 =:") Update.parser es ⟨.badLength, 5⟩ := by
  refine ⟨?_, ?_, ⟨?_, ?_⟩, ?_⟩
  · have hlist : ListValue.parse (Bytes.ofText "|:" ++ Bytes.ofText "1 a") =
        .ok ⟨[], [⟨[], Bytes.ofText "a", true⟩]⟩ := rfl
    have hempty : ListValue.Spelled ⟨[], []⟩ [] := .mk (.inl rfl) .nil
    refine (((first_bytes_fail_just_at_marks _ _).1 _ hlist).fails_iff _).2 ?_
    exact ⟨[], Bytes.ofText "|:", ⟨.badLength, 2⟩, ⟨_, hempty⟩, .bare (.length .absent), rfl, rfl⟩
  · have hdict : DictValue.parse (Bytes.ofText "\x7bk\x7d=" ++ Bytes.ofText "_t") =
        .ok ⟨[], [⟨⟨Bytes.ofText "k", false⟩, ⟨Bytes.ofText "_t", [], false⟩⟩]⟩ := rfl
    have hempty : DictValue.Spelled ⟨[], []⟩ [] := .mk (.inl rfl) .nil
    have hkey : Key.Spelled ⟨Bytes.ofText "k", false⟩ (Bytes.ofText "\x7bk\x7d") :=
      .delimited (by decide) fun b hb => by cases hb; decide
    refine (((first_bytes_fail_just_at_marks _ _).2.1 _ hdict).fails_iff _).2 ?_
    exact ⟨[], Bytes.ofText "\x7bk\x7d=", ⟨.badType, 4⟩, ⟨_, hempty⟩, .bare hkey (.type rfl), rfl,
      rfl⟩
  · have hpath : Path.parse (Bytes.ofText "._a#" ++ Bytes.ofText "1") =
        .ok ⟨[.field (Bytes.ofText "a"), .index 1]⟩ := rfl
    have hfield : Path.Spelled ⟨[.field (Bytes.ofText "a")]⟩ (Bytes.ofText "._a" ++ []) :=
      .mk (.cons (.field (by decide)) .nil)
    refine (((first_bytes_fail_just_at_marks _ _).2.2.1 _ hpath).fails_iff _).2 ?_
    exact ⟨Bytes.ofText "._a", Bytes.ofText "#", ⟨.badIndex, 1⟩, ⟨_, hfield⟩, .bare .index, rfl,
      rfl⟩
  · have hpath : Path.parse (Bytes.ofText "._a\x7b2 x" ++ Bytes.ofText "y\x7d") =
        .ok ⟨[.field (Bytes.ofText "a"), .key ⟨Bytes.ofText "xy", true⟩]⟩ := rfl
    refine ((first_bytes_fail_just_at_marks _ _).2.2.1 _ hpath).lasts_iff.2 ?_
    -- a bare mark would be the last byte
    rintro f ⟨text, head, g, -, hbegins, hi, -⟩
    have hlast : (text ++ head).getLast? = some 120 := by rw [← hi]; rfl
    cases hbegins with
    | bare hbare =>
      cases hbare with
      | index => simp [Byte.hash] at hlast
      | field => simp [Byte.dot] at hlast
      | markedField => simp [Byte.underscore] at hlast
  · have hupdate : Update.parse (Bytes.ofText "#1 =:" ++ Bytes.ofText "1 a") =
        .ok ⟨⟨[.index 1]⟩, .assign, ⟨[], Bytes.ofText "a", true⟩⟩ := rfl
    have hindex : Path.Spelled ⟨[.index 1]⟩ (Bytes.ofText "#1" ++ []) :=
      .mk (.cons (.index ⟨by decide, List.forall_mem_singleton.2 (by decide), rfl, by decide⟩) .nil)
    refine (((first_bytes_fail_just_at_marks _ _).2.2.2 _ hupdate).fails_iff _).2 ?_
    exact ⟨Bytes.ofText "#1", Bytes.ofText " =:", ⟨.badLength, 3⟩, ⟨_, hindex⟩,
      @Update.Begins.bareOperand [Byte.space] [Byte.colon] .assign _ (.inr rfl) (.length .absent),
      rfl, rfl⟩

end PacketWire
