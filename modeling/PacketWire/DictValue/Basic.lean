import PacketWire.Key.Basic
import PacketWire.Sendable

namespace PacketWire

/-!
# Dict values

A dict is written as its default type, if it has one, and its entries, each a key in braces
and a value. Entries keep their order, and a key may occur more than once.
-/

/-- A key and its value. -/
structure DictValue.Entry where
  /-- The key. -/
  key : Key
  /-- The value. -/
  value : Element
deriving DecidableEq, Repr

/-- A dict, as it is sent or was received. -/
structure DictValue where
  /-- The type of the values that have none of their own; empty where there is none. -/
  type : Bytes
  /-- The entries in order. -/
  entries : List DictValue.Entry
deriving DecidableEq, Repr

namespace DictValue

/-- An entry to be built. -/
structure Entry.Draft where
  /-- The key. -/
  key : Key.Draft
  /-- The value. -/
  value : Element.Draft
deriving DecidableEq, Repr

/-- Checks the type of the value, and decides for key and value whether the length is told. -/
def Entry.Draft.build (d : Entry.Draft) (thresholds : Thresholds) : Except BuildError Entry := do
  return ⟨d.key.build thresholds, ← d.value.build thresholds (some Byte.openBrace)⟩

/-- Checks the types, and decides for each key and value whether its length is told. -/
def build (type : Bytes) (entries : List Entry.Draft) (thresholds : Thresholds) :
    Except BuildError DictValue := do
  checkOptionalKeyword type
  return ⟨type, ← entries.mapM fun e => e.build thresholds⟩

/-- The value of the first entry with a given key. -/
def get? (d : DictValue) (key : Bytes) : Option Element :=
  (d.entries.find? fun e => e.key.value == key).map Entry.value

/-- The size of the wire form of an entry. -/
def Entry.wireSize (e : Entry) : Nat := e.key.wireSize + e.value.wireSize

/-- The size of the wire form. -/
def wireSize (d : DictValue) : Nat := d.type.length + totalSize Entry.wireSize d.entries

/-- Writes a dict. -/
def write (d : DictValue) : Write := do
  Write.put d.type
  d.entries.forM fun e => do
    e.key.write
    e.value.write (some Byte.equalSign)

instance : Sendable DictValue := ⟨wireSize, write⟩

end DictValue

end PacketWire
