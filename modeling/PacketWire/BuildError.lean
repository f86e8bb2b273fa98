import PacketWire.Keyword
import PacketWire.Text.Quoted

namespace PacketWire

/-!
# What cannot be built

A packet or a value is checked when it is built, so that everything that exists can be sent.
-/

/-- Why something cannot be built. -/
inductive BuildError where
  /-- A modifier has no name. -/
  | namelessModifier
  /-- A name, a method or a type is no keyword. -/
  | notKeyword (word : Bytes)
  /-- The value of a routing modifier holds a line feed, and routing modifiers have no
      lengths. -/
  | lineFeedInRouting (name : Bytes)
  /-- Raw content is given along with something else that makes up content. -/
  | mixedContent
  /-- Data is given without a method. -/
  | dataWithoutMethod
deriving DecidableEq, Repr

namespace BuildError

/-- What is said of something that cannot be built. -/
def message : BuildError → String
  | namelessModifier => "modifier name is empty"
  | notKeyword word => "invalid keyword " ++ Text.quoted word
  | lineFeedInRouting name =>
    "routing modifier " ++ Text.quoted name ++ " has a value that needs a length"
  | mixedContent => "raw content cannot be combined with entity, method or data"
  | dataWithoutMethod => "packet data requires a method"

end BuildError

/-- A word that has to be a keyword is one. -/
def checkKeyword (word : Bytes) : Except BuildError Unit :=
  if isKeyword word then .ok () else .error (.notKeyword word)

/-- A word that may be left out is empty or a keyword. -/
def checkOptionalKeyword (word : Bytes) : Except BuildError Unit :=
  if word.isEmpty then .ok () else checkKeyword word

/-- The check passes keywords and nothing else. -/
theorem checkKeyword_eq_ok_iff {word : Bytes} {u : Unit} :
    checkKeyword word = .ok u ↔ isKeyword word := by
  rw [checkKeyword]
  split <;> simp [*]

/-- The check passes keywords and the empty word. -/
theorem checkOptionalKeyword_eq_ok_iff {word : Bytes} {u : Unit} :
    checkOptionalKeyword word = .ok u ↔ word = [] ∨ isKeyword word := by
  rw [checkOptionalKeyword]
  cases word with
  | nil => simp
  | cons b word => simp [checkKeyword_eq_ok_iff]

end PacketWire
