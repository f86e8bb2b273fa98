import PacketWire.Keyword
import PacketWire.Proofs.Bytes
import Mathlib.Data.List.Basic

namespace PacketWire

/-!
# The hierarchy of keywords

A keyword occurs in another one when its parts are found there in order. Each part takes the
first place where it stands, and no later choice could do better (`Keyword.inOrder_iff`): the
first place leaves the most behind it. So the order of keywords is the order of lists under
leaving out entries (`Keyword.occursIn_iff`), and `Keyword.specializes` is a part of it.
-/

namespace Bytes

variable {b : UInt8} {front rest bytes : Bytes}

/-- The pieces are those of the library. -/
theorem split_eq_splitOn : split b bytes = bytes.splitOn b := by
  induction bytes with
  | nil => rw [split, List.splitOn_nil]
  | cons x bytes ih =>
    rw [split, List.splitOn_cons_eq_if_modifyHead, ih]
    by_cases hx : x = b
    · rw [if_pos hx, if_pos (beq_iff_eq.2 hx)]
    · rw [if_neg hx, if_neg (mt beq_iff_eq.1 hx)]
      cases hpieces : bytes.splitOn b with
      | nil => exact absurd hpieces (List.splitOn_ne_nil b bytes)
      | cons piece pieces => rfl

/-- A separator ends the pieces in front of it. -/
theorem split_append_separator : split b (front ++ b :: rest) = split b front ++ split b rest := by
  rw [split_eq_splitOn, split_eq_splitOn, split_eq_splitOn, List.splitOn_append_cons_self]

end Bytes

namespace Keyword

variable {special general front rest a b c : Bytes} {wants present : List Bytes}

/-! ### The parts of a keyword -/

/-- The parts of a keyword are what stands between its `_`, if it is not empty. -/
theorem parts_eq_splitOn (word : Bytes) :
    parts word = (word.splitOn Byte.underscore).filter fun part => !part.isEmpty := by
  rw [parts, Bytes.split_eq_splitOn]

/-- The empty word has no parts. -/
theorem parts_nil : parts [] = [] := rfl

/-- At each `_` the parts fall into those before and those behind. -/
theorem parts_append_underscore :
    parts (front ++ Byte.underscore :: rest) = parts front ++ parts rest := by
  rw [parts, parts, parts, Bytes.split_append_separator, List.filter_append]

/-! ### Found in order -/

/-- Parts are found in order just where they are what is left of the others when some are left
    out. -/
theorem inOrder_iff : inOrder wants present = true ↔ wants.Sublist present := by
  induction wants generalizing present with
  | nil => exact ⟨fun _ => List.nil_sublist present, fun _ => by rw [inOrder]⟩
  | cons want wants ih =>
    rw [inOrder]
    induction present with
    | nil => simp
    | cons part present ihp =>
      by_cases heq : part = want
      · -- what is found behind a later place of the part stands behind its first place, too
        rw [heq, List.dropWhile_cons_of_neg (by simp), List.cons_sublist_cons]
        exact ih
      · rw [List.dropWhile_cons_of_pos (by simpa using heq), ihp, List.sublist_cons_iff]
        refine ⟨.inl, fun h => ?_⟩
        obtain h | ⟨_, hcons, -⟩ := h
        · exact h
        · exact absurd (List.cons.inj hcons).1.symm heq

/-- A keyword occurs in another one just where its parts are some of that one's, in order. -/
theorem occursIn_iff : occursIn a b = true ↔ (parts a).Sublist (parts b) := inOrder_iff

/-- Every keyword occurs in itself. -/
theorem occursIn_refl (a : Bytes) : occursIn a a = true := occursIn_iff.2 (List.Sublist.refl _)

/-- Occurring is transitive. -/
theorem occursIn_trans (hab : occursIn a b = true) (hbc : occursIn b c = true) :
    occursIn a c = true :=
  occursIn_iff.2 ((occursIn_iff.1 hab).trans (occursIn_iff.1 hbc))

/-- Keywords that occur in each other have the same parts; they may differ in their `_`. -/
theorem parts_eq_of_occursIn (hab : occursIn a b = true) (hba : occursIn b a = true) :
    parts a = parts b :=
  (occursIn_iff.1 hab).antisymm (occursIn_iff.1 hba)

/-! ### The hierarchy -/

/-- A keyword below another one is everything, that keyword, or that keyword with a `_` and
    more behind it. -/
theorem specializes_iff : specializes special general = true ↔
    general = [] ∨ special = general ∨ ∃ rest, special = general ++ Byte.underscore :: rest := by
  rw [specializes, Bool.and_eq_true, List.isPrefixOf_iff_prefix, Bool.or_eq_true,
    List.isEmpty_iff]
  constructor
  · rintro ⟨⟨rest, rfl⟩, hnil | hrest⟩
    · exact .inl hnil
    · rw [List.drop_left] at hrest
      cases rest with
      | nil => exact .inr (.inl (List.append_nil _))
      | cons b rest => exact .inr (.inr ⟨rest, by rw [beq_iff_eq.1 hrest]⟩)
  · rintro (rfl | rfl | ⟨rest, rfl⟩)
    · exact ⟨List.nil_prefix, .inl rfl⟩
    · exact ⟨List.prefix_rfl, .inr (by rw [List.drop_length])⟩
    · exact ⟨List.prefix_append _ _, .inr (by rw [List.drop_left]; rfl)⟩

/-- A keyword starts with those it specializes. -/
theorem prefix_of_specializes (h : specializes special general = true) : general <+: special :=
  List.isPrefixOf_iff_prefix.1 (Bool.and_eq_true_iff.1 h).1

/-- What is below a keyword is below whatever that one is below. -/
theorem specializes_trans (hab : specializes a b = true) (hbc : specializes b c = true) :
    specializes a c = true := by
  rw [specializes_iff] at *
  obtain rfl | rfl | ⟨rest, rfl⟩ := hbc
  · exact .inl rfl
  · exact hab
  · -- `b` is not empty, and `a` goes on behind it
    obtain hnil | rfl | ⟨rest', rfl⟩ := hab
    · exact absurd hnil (by simp)
    · exact .inr (.inr ⟨rest, rfl⟩)
    · exact .inr (.inr ⟨rest ++ Byte.underscore :: rest', by simp⟩)

/-- A keyword holds those it specializes. -/
theorem occursIn_of_specializes (h : specializes special general = true) :
    occursIn general special = true := by
  rw [occursIn_iff]
  obtain rfl | rfl | ⟨rest, rfl⟩ := specializes_iff.1 h
  · rw [parts_nil]
    exact List.nil_sublist _
  · exact List.Sublist.refl _
  · rw [parts_append_underscore]
    exact List.sublist_append_left _ _

/-- `occursIn` decides an order of keywords: the nonempty pieces between the `_` of the one are
    those of the other when some of these are left out. Every keyword occurs in itself, what
    occurs in a keyword occurs in whatever that one occurs in, keywords that occur in each other
    have the same parts, and a keyword occurs in all that specialize it. -/
theorem occursIn_decides_sublist :
    (∀ word, parts word = (word.splitOn Byte.underscore).filter fun part => !part.isEmpty) ∧
    (∀ wanted word, occursIn wanted word = true ↔ (parts wanted).Sublist (parts word)) ∧
    (∀ word, occursIn word word = true) ∧
    (∀ a b c, occursIn a b = true → occursIn b c = true → occursIn a c = true) ∧
    (∀ a b, occursIn a b = true → occursIn b a = true → parts a = parts b) ∧
    ∀ special general, specializes special general = true → occursIn general special = true :=
  ⟨parts_eq_splitOn, fun _ _ => occursIn_iff, occursIn_refl, fun _ _ _ => occursIn_trans,
    fun _ _ => parts_eq_of_occursIn, fun _ _ => occursIn_of_specializes⟩

/-- A failed delivery is a failure, and it occurs in an unsuccessful one, past a part and past
    an `_` too many. -/
theorem occursIn_failure_delivery :
    specializes (Bytes.ofText "_failure_delivery") (Bytes.ofText "_failure") = true ∧
    (parts (Bytes.ofText "_failure_delivery")).Sublist
      (parts (Bytes.ofText "_failure__unsuccessful_delivery_death")) ∧
    occursIn (Bytes.ofText "_failure") (Bytes.ofText "_failure__unsuccessful_delivery_death") =
      true ∧
    parts (Bytes.ofText "_failure_delivery") = parts (Bytes.ofText "failure__delivery_") := by
  obtain ⟨-, hiff, -, htrans, hsame, hbelow⟩ := occursIn_decides_sublist
  have hfailure := hbelow (Bytes.ofText "_failure_delivery") (Bytes.ofText "_failure") (by decide)
  refine ⟨by decide, (hiff _ _).1 (by decide), htrans _ _ _ hfailure (by decide),
    hsame _ _ (by decide) (by decide)⟩

end Keyword

end PacketWire
