import PacketWire.Proofs.Element.Beginning
import PacketWire.Proofs.ListValue.Units
import PacketWire.Proofs.Series

namespace PacketWire.ListValue

open Scan Machine

/-!
# Beginnings of lists

What is in front of a cut through a list is a list by itself and a beginning of one more element
(`Spelled.of_append`). The parser fails there just if that element ends at a bare mark
(`failsJustAt`).
-/

variable {front back text head buffer : Bytes} {elements : List Element} {l : ListValue}
  {f : Fault Cause}

/-- The beginning of an element in its place, with the fault that it makes, if there is one. -/
inductive ItemBegins : Option (Fault Cause) → Bytes → Prop where
  /-- Nothing. -/
  | nothing : ItemBegins none []
  /-- An element, or more of it than a bare mark. -/
  | element {text : Bytes} : form.Begins text → ItemBegins none (Byte.pipe :: text)
  /-- A bare mark. -/
  | bare {f : Fault Cause} {text : Bytes} :
      form.Bare f text → ItemBegins (some (f.shift 1)) (Byte.pipe :: text)

/-- A list is cut behind a bare mark: behind a list there is the beginning of an element that makes
    this fault. -/
def CutsMark : Bytes → Fault Cause → Prop :=
  Parser.CutBehind (fun text => ∃ l, Spelled l text) ItemBegins

/-! ### Cuts -/

theorem ItemSpelled.of_append {element : Element} (h : ItemSpelled element (front ++ back)) :
    ∃ f?, ItemBegins f? front := by
  generalize htext : front ++ back = text at h
  cases h with
  | mk hspelled =>
    cases front with
    | nil => exact ⟨none, .nothing⟩
    | cons b front =>
      obtain ⟨rfl, rfl⟩ := List.cons.inj htext
      obtain hbegins | ⟨f, hbare⟩ := ((Element.spells_iff_spelled rfl).2 hspelled :
        form.Spells element (front ++ back)).of_append
      · exact ⟨none, .element hbegins⟩
      · exact ⟨_, .bare hbare⟩

/-- The first bytes of a list are a list and the beginning of an element. -/
theorem Spelled.of_append (h : Spelled l (front ++ back)) :
    ∃ l' text head f?, Spelled l' text ∧ front = text ++ head ∧ ItemBegins f? head := by
  generalize htext : front ++ back = text at h
  cases h with
  | @mk type text elements htype helements =>
    obtain ⟨rest, rfl, -⟩ | ⟨front, rfl, rfl⟩ := List.append_eq_append_iff.1 htext
    · -- the cut is inside the default type
      have hfront := eq_nil_or_isKeyword_of_append htype
      exact ⟨⟨front, []⟩, front ++ [], [], none, .mk hfront .nil, by simp, .nothing⟩
    · obtain ⟨elements', text, head, hseries, rfl, f?, hhead⟩ :=
        helements.of_append ⟨none, .nothing⟩ ItemSpelled.of_append
      exact ⟨_, _, head, f?, .mk htype hseries, (List.append_assoc ..).symm, hhead⟩

/-! ### Runs -/

theorem ItemBegins.endsBefore {f? : Option (Fault Cause)} (h : ItemBegins f? head) :
    Element.EndsBefore (some Byte.pipe) head := by
  cases h with
  | nothing => exact Element.endsBefore_nil
  | element => exact Element.endsBefore_cons_iff.2 rfl
  | bare => exact Element.endsBefore_cons_iff.2 rfl

/-- The run over a list comes to what is behind it. -/
theorem passes_of_series (h : Series ItemSpelled elements text)
    (hends : Element.EndsBefore (some Byte.pipe) head) :
    machine.Passes .elements text .elements head := by
  induction h with
  | nil => exact .refl
  | @cons element elements line text hitem helements ih =>
    cases hitem with
    | mk hspelled =>
      have hbehind : Element.EndsBefore (some Byte.pipe) (text ++ head) :=
        (endsBefore_of_series helements).append hends
      have hstep := step_elements_eq_emit_iff.2 (.inr ⟨_, _, .whole hspelled hbehind, rfl, rfl⟩)
      exact (Passes.of_emit hstep rfl).trans ih

theorem passes_of_spelled (h : Spelled l text) (hends : Element.EndsBefore (some Byte.pipe) head) :
    machine.Passes .type text .elements head := by
  cases h with
  | @mk type text elements htype helements =>
    have hbehind : Element.EndsBefore (some Byte.pipe) (text ++ head) :=
      (endsBefore_of_series helements).append hends
    have hstops : Stops Byte.isKeyword (text ++ head) := hbehind.stops fun d hd => by
      cases hd
      decide
    exact startsTyped.passes htype hstops (passes_of_series helements hends)

/-- A parser of lists fails at the beginning of a list just if this ends at a bare mark. -/
theorem failsJustAt (h : Spelled l (front ++ back)) :
    parser.FailsJustAt front (CutsMark front) := by
  refine Parser.failsJustAt_of_passes isBounded_machine (t := .elements) ?_ ?_ ?_ ?_
  · rintro text head f? ⟨l, hspelled⟩ hbegins
    exact passes_of_spelled hspelled hbegins.endsBefore
  · intro head hbegins
    cases hbegins with
    | nothing => exact .of_final rfl rfl
    | element hbegins => exact hasSlot.lasts_of_begins hbegins
  · intro head g hbegins
    cases hbegins with
    | bare hbare => exact hasSlot.fails_of_bare hbare
  · obtain ⟨l', text, head, f?, hspelled, htext, hbegins⟩ := h.of_append
    exact ⟨text, head, f?, ⟨l', hspelled⟩, htext, hbegins⟩

end PacketWire.ListValue
