import PacketWire.Key.Basic
import PacketWire.Sendable

namespace PacketWire

/-!
# Index paths

A path leads into a structured value: to an element of a list (`#n`), a field of a struct
(`._name`), or an entry of a dict (`{key}`), and on from there.
-/

/-- One step of a path. -/
inductive Path.Segment where
  /-- The element of a list with a given index. -/
  | index (n : UInt64)
  /-- The field of a struct with a given name. -/
  | field (name : Bytes)
  /-- The entry of a dict with a given key. -/
  | key (key : Key)
deriving DecidableEq, Repr

/-- A step to be built. -/
inductive Path.Segment.Draft where
  /-- The element of a list with a given index. -/
  | index (n : UInt64)
  /-- The field of a struct with a given name. -/
  | field (name : Bytes)
  /-- The entry of a dict with a given key. -/
  | key (key : Key.Draft)
deriving DecidableEq, Repr

/-- A path, as it is sent or was received. -/
structure Path where
  /-- The steps, from the outside in. -/
  segments : List Path.Segment
deriving DecidableEq, Repr

namespace Path

/-- Checks the name of a field, and decides for a key whether its length is told. -/
def Segment.Draft.build (d : Segment.Draft) (thresholds : Thresholds) : Except BuildError Segment :=
  match d with
  | index n => .ok (.index n)
  | field name => do
    checkKeyword name
    return .field name
  | key k => .ok (.key (k.build thresholds))

/-- Checks the names, and decides for each key whether its length is told. -/
def build (segments : List Segment.Draft) (thresholds : Thresholds) : Except BuildError Path := do
  return ⟨← segments.mapM fun s => s.build thresholds⟩

/-- The size of the wire form of a step. -/
def Segment.wireSize : Segment → Nat
  | index n => 1 + Decimal.width n.toNat
  | field name => 2 + name.length
  | key k => k.wireSize

/-- The path leads nowhere. -/
def isEmpty (p : Path) : Bool := p.segments.isEmpty

/-- The size of the wire form. -/
def wireSize (p : Path) : Nat := totalSize Segment.wireSize p.segments

/-- Writes a step. -/
def Segment.write : Segment → Write
  | index n => do
    Write.byte Byte.hash
    Write.number n.toNat
  | field name => do
    Write.put [Byte.dot, Byte.underscore]
    Write.put name
  | key k => k.write

/-- Writes a path. -/
def write (p : Path) : Write := p.segments.forM Segment.write

instance : Sendable Path := ⟨wireSize, write⟩

end Path

end PacketWire
