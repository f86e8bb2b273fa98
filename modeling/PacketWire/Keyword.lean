import PacketWire.Bytes

namespace PacketWire

/-!
# Keywords

Variable names, methods and types are keywords: letters, digits and `_`. Keywords form a
hierarchy along `_`: `_notice_presence_here` is a `_notice_presence`, and that is a
`_notice`.
-/

/-- A word that may stand as a name, a method or a type. -/
def isKeyword (word : Bytes) : Bool := !word.isEmpty && word.all Byte.isKeyword

theorem isKeyword_iff {word : Bytes} :
    isKeyword word = true ↔ word ≠ [] ∧ ∀ b ∈ word, Byte.isKeyword b := by
  simp [isKeyword]

/-- The first bytes of a keyword are one, too. -/
theorem isKeyword_of_append {front back : Bytes} (h : isKeyword (front ++ back))
    (hne : front ≠ []) : isKeyword front :=
  isKeyword_iff.2 ⟨hne, fun b hb => (isKeyword_iff.1 h).2 b (List.mem_append_left back hb)⟩

/-- The first bytes of a word that may be left out may stand in its place. -/
theorem eq_nil_or_isKeyword_of_append {front back : Bytes}
    (h : front ++ back = [] ∨ isKeyword (front ++ back)) : front = [] ∨ isKeyword front := by
  by_cases hne : front = []
  · exact .inl hne
  · obtain hnil | hword := h
    · exact .inl (List.append_eq_nil_iff.1 hnil).1
    · exact .inr (isKeyword_of_append hword hne)

namespace Keyword

/-- `special` is `general`, or goes on after it with a `_`. Everything specializes the empty
    word. -/
def specializes (special general : Bytes) : Bool :=
  general.isPrefixOf special &&
    (general.isEmpty ||
      match special.drop general.length with
      | [] => true
      | b :: _ => b == Byte.underscore)

/-- The parts of a keyword between its `_`, without the empty ones. -/
def parts (word : Bytes) : List Bytes :=
  (Bytes.split Byte.underscore word).filter fun part => !part.isEmpty

/-- Each wanted part is found behind the one found before it; the first place where a part
    stands is taken. -/
def inOrder : List Bytes → List Bytes → Bool
  | [], _ => true
  | want :: wants, present =>
    match present.dropWhile (· != want) with
    | [] => false
    | _ :: behind => inOrder wants behind

/-- Every part of `wanted` occurs in `word`, in order. -/
def occursIn (wanted word : Bytes) : Bool := inOrder (parts wanted) (parts word)

end Keyword

end PacketWire
