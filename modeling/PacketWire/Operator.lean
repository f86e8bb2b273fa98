import PacketWire.Bytes

namespace PacketWire

/-!
# Operators and state actions

A modifier starts with a glyph that says what happens to the variable it names. The same
two glyphs `=` and `?`, alone on the first line of the content, act on the whole entity
state.
-/

/-- What a modifier does to its variable. -/
inductive Operator where
  /-- Set it for this packet only. -/
  | set
  /-- Assign it for the rest of the session. -/
  | assign
  /-- Add to a list or counter. -/
  | augment
  /-- Take from a list or counter. -/
  | diminish
  /-- Change part of a structured value. -/
  | update
  /-- Ask for its value. -/
  | query
deriving DecidableEq, Repr

namespace Operator

/-- The byte that stands for an operator. -/
def glyph : Operator → UInt8
  | set => 58
  | assign => 61
  | augment => 43
  | diminish => 45
  | update => 64
  | query => 63

/-- The operator that a byte stands for. -/
def ofGlyph? (b : UInt8) : Option Operator :=
  if b = 58 then some set
  else if b = 61 then some assign
  else if b = 43 then some augment
  else if b = 45 then some diminish
  else if b = 64 then some update
  else if b = 63 then some query
  else none

/-- The glyph of an operator stands for it. -/
@[simp] theorem ofGlyph?_glyph (o : Operator) : ofGlyph? o.glyph = some o := by
  cases o <;> rfl

/-- A byte stands for an operator only as its glyph. -/
theorem ofGlyph?_eq_some_iff {b : UInt8} {o : Operator} : ofGlyph? b = some o ↔ b = o.glyph := by
  constructor
  · intro h
    unfold ofGlyph? at h
    repeat' split at h
    all_goals simp_all [glyph]
    all_goals subst h; rfl
  · rintro rfl
    exact ofGlyph?_glyph o

end Operator

/-- What the first line of the content does to the entity state. -/
inductive StateAction where
  /-- There is no such line. -/
  | none
  /-- Forget the entity state. -/
  | reset
  /-- Ask the peer to send its entity state again. -/
  | resync
deriving DecidableEq, Repr

namespace StateAction

/-- The byte that stands for a state action. -/
def glyph? : StateAction → Option UInt8
  | none => Option.none
  | reset => some 61
  | resync => some 63

/-- The state action that a byte stands for. -/
def ofGlyph? (b : UInt8) : Option StateAction :=
  if b = 61 then some reset else if b = 63 then some resync else Option.none

end StateAction

end PacketWire
