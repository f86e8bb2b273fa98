import PacketWire.Proofs.DictValue.Accepts
import PacketWire.Proofs.DictValue.Derivation
import PacketWire.Proofs.ListValue.Accepts
import PacketWire.Proofs.ListValue.Derivation
import PacketWire.Proofs.Path.Accepts
import PacketWire.Proofs.Update.Derivation

namespace PacketWire

/-!
# The grammars of structured values

Lists, dicts, paths and updates are read where their grammars derive them, and are read as what is
derived. No byte string has two derivations, so none has two meanings.
-/

/-- Lists and dicts are read off what they are derived from, and off nothing else. -/
theorem lists_and_dicts_read_derivations :
    ReadsDerivations ListValue.parse ListValue.Derivation.text ListValue.Derivation.list ∧
      ReadsDerivations DictValue.parse DictValue.Derivation.text DictValue.Derivation.dict :=
  ⟨ListValue.derivedBy_spelled.reads ListValue.parse_eq_ok_iff,
    DictValue.derivedBy_spelled.reads DictValue.parse_eq_ok_iff⟩

/-- A length may start with zeros, and no space needs to follow a length of zero. -/
example : ListValue.parse (Bytes.ofText "|:01 ||:0") =
    .ok ⟨[], [⟨[], Bytes.ofText "|", true⟩, ⟨[], [], true⟩]⟩ := rfl

/-- Paths and updates are read off what they are derived from, and off nothing else. -/
theorem paths_and_updates_read_derivations :
    ReadsDerivations Path.parse Path.Derivation.text Path.Derivation.path ∧
      ReadsDerivations Update.parse Update.Derivation.text Update.Derivation.update :=
  ⟨Path.derivedBy_spelled.reads Path.parse_eq_ok_iff,
    Update.derivedBy_spelled.reads Update.parse_eq_ok_iff⟩

/-- One `_` is no part of the name of a field, and a key with its length may hold a brace. -/
example : Update.parse (Bytes.ofText ".__a\x7b1 \x7d\x7d=:0") =
    .ok ⟨⟨[.field (Bytes.ofText "_a"), .key ⟨Bytes.ofText "\x7d", true⟩]⟩, .assign,
      ⟨[], [], true⟩⟩ := rfl

end PacketWire
