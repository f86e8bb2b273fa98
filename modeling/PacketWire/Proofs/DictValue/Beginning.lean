import PacketWire.Proofs.DictValue.Units
import PacketWire.Proofs.Element.Beginning
import PacketWire.Proofs.Key.Beginning
import PacketWire.Proofs.Series

namespace PacketWire.DictValue

open Scan Machine

/-!
# Beginnings of dicts

What is in front of a cut through a dict is a dict by itself and a beginning of one more entry
(`Spelled.of_append`). The parser fails there just if the value of that entry ends at a bare mark
(`failsJustAt`); a key may be cut anywhere.
-/

variable {front back text head inside rest : Bytes} {entries : List Entry} {entry : Entry}
  {key : Key} {d : DictValue} {f? : Option (Fault Cause)}

/-- The beginning of an entry, with the fault that it makes, if there is one. -/
inductive EntryBegins : Option (Fault Cause) → Bytes → Prop where
  /-- Nothing. -/
  | nothing : EntryBegins none []
  /-- A key without its closing brace. -/
  | key {text : Bytes} : Key.Cut text → EntryBegins none text
  /-- A key and a value, or more of it than a bare mark. -/
  | value {key : Key} {keyText text : Bytes} :
      key.Spelled keyText → form.Begins text → EntryBegins none (keyText ++ text)
  /-- A key and a bare mark. -/
  | bare {key : Key} {keyText text : Bytes} {f : Fault Cause} :
      key.Spelled keyText → form.Bare f text →
        EntryBegins (some (f.shift keyText.length)) (keyText ++ text)

/-- A dict is cut behind a bare mark: behind a dict there is the beginning of an entry that makes
    this fault. -/
def CutsMark : Bytes → Fault Cause → Prop :=
  Parser.CutBehind (fun text => ∃ d, Spelled d text) EntryBegins

/-! ### Cuts -/

/-- The beginning of a value is that of the entry with its key. -/
theorem entryBegins_of_value {keyText : Bytes} (hkey : key.Spelled keyText)
    (h : form.Begins text ∨ ∃ f, form.Bare f text) : ∃ f?, EntryBegins f? (keyText ++ text) := by
  obtain hbegins | ⟨f, hbare⟩ := h
  · exact ⟨none, .value hkey hbegins⟩
  · exact ⟨_, .bare hkey hbare⟩

theorem EntrySpelled.of_append (h : EntrySpelled entry (front ++ back)) :
    ∃ f?, EntryBegins f? front := by
  generalize htext : front ++ back = text at h
  cases h with
  | @mk key value keyText valueText hkey hvalue =>
    have hspells : form.Spells value valueText := (Element.spells_iff_spelled rfl).2 hvalue
    obtain ⟨rest, rfl, -⟩ | ⟨behind, rfl, rfl⟩ := List.append_eq_append_iff.1 htext
    · obtain rfl | rfl | hcut := hkey.of_append
      · exact ⟨none, .nothing⟩
      · -- the key is there, and nothing of its value
        have hspells : form.Spells value ([] ++ valueText) := hspells
        have hbegins := entryBegins_of_value hkey hspells.of_append
        rwa [List.append_nil, List.append_nil] at hbegins
      · exact ⟨none, .key hcut⟩
    · exact entryBegins_of_value hkey hspells.of_append

/-- The first bytes of a dict are a dict and the beginning of an entry. -/
theorem Spelled.of_append (h : Spelled d (front ++ back)) :
    ∃ d' text head f?, Spelled d' text ∧ front = text ++ head ∧ EntryBegins f? head := by
  generalize htext : front ++ back = text at h
  cases h with
  | @mk type text entries htype hentries =>
    obtain ⟨rest, rfl, -⟩ | ⟨front, rfl, rfl⟩ := List.append_eq_append_iff.1 htext
    · -- the cut is inside the default type
      have hfront := eq_nil_or_isKeyword_of_append htype
      exact ⟨⟨front, []⟩, front ++ [], [], none, .mk hfront .nil, by simp, .nothing⟩
    · obtain ⟨entries', text, head, hseries, rfl, f?, hhead⟩ :=
        hentries.of_append ⟨none, .nothing⟩ EntrySpelled.of_append
      exact ⟨_, _, head, f?, .mk htype hseries, (List.append_assoc ..).symm, hhead⟩

/-! ### Runs -/

theorem EntryBegins.endsBefore (h : EntryBegins f? head) :
    Element.EndsBefore (some Byte.openBrace) head := by
  have hkeyed : ∀ {key : Key} {keyText text : Bytes}, key.Spelled keyText →
      Element.EndsBefore (some Byte.openBrace) (keyText ++ text) := fun hkey => by
    obtain ⟨inside, rfl, -⟩ := hkey.exists_inside
    exact Element.endsBefore_cons_iff.2 rfl
  cases h with
  | nothing => exact Element.endsBefore_nil
  | key hcut =>
    cases hcut with
    | delimited => exact Element.endsBefore_cons_iff.2 rfl
    | length => exact Element.endsBefore_cons_iff.2 rfl
    | counted => exact Element.endsBefore_cons_iff.2 rfl
  | value hkey => exact hkeyed hkey
  | bare hkey => exact hkeyed hkey

/-- The run over a key comes to its closing brace. -/
theorem exists_passes_of_key {keyText : Bytes} (h : key.Spelled keyText) :
    ∃ line, (∀ rest, keyText ++ rest = line ++ Byte.closeBrace :: rest) ∧
      keyText.length = line.length + 1 ∧
      ∀ rest, machine.Passes .key line .value (Byte.closeBrace :: rest) := by
  obtain ⟨inside, rfl, hinside⟩ := h.exists_inside
  refine ⟨Byte.openBrace :: inside, fun rest => by simp, by simp, fun rest => ?_⟩
  exact .of_emit (step_key_eq_emit_iff.2 ⟨_, _, .key (hinside rest), rfl, rfl⟩) rfl

/-- The run over a dict comes to what is behind it. -/
theorem passes_of_series (h : Series EntrySpelled entries text)
    (hends : Element.EndsBefore (some Byte.openBrace) head) :
    machine.Passes .key text .key head := by
  induction h with
  | nil => exact .refl
  | @cons entry entries line text hentry hentries ih =>
    cases hentry with
    | @mk key value keyText valueText hkey hvalue =>
      obtain ⟨line, hline, -, hpasses⟩ := exists_passes_of_key hkey
      have hbehind : Element.EndsBefore (some Byte.openBrace) (text ++ head) :=
        (endsBefore_of_series hentries).append hends
      have hunit : slot.Unit (Byte.closeBrace :: valueText) (text ++ head) _ _ :=
        .whole hvalue hbehind
      have hbrace : machine.Passes .value (Byte.closeBrace :: valueText) .key (text ++ head) :=
        .of_emit (hasSlot.step_eq_emit_iff.2 ⟨_, _, hunit, rfl, rfl⟩) rfl
      rw [hline]
      exact ((hpasses _).trans hbrace).trans ih

theorem passes_of_spelled (h : Spelled d text)
    (hends : Element.EndsBefore (some Byte.openBrace) head) :
    machine.Passes .type text .key head := by
  cases h with
  | @mk type text entries htype hentries =>
    have hbehind : Element.EndsBefore (some Byte.openBrace) (text ++ head) :=
      (endsBefore_of_series hentries).append hends
    have hstops : Stops Byte.isKeyword (text ++ head) := hbehind.stops fun d hd => by
      cases hd
      decide
    exact startsTyped.passes htype hstops (passes_of_series hentries hends)

/-- A key may be cut anywhere. -/
theorem lasts_of_cut (h : Key.Cut text) : machine.Lasts .key text := by
  obtain ⟨inside, rfl, hmore | ⟨key, hinside⟩ | ⟨value, digits, length, hnum, hlt, rfl⟩⟩ :=
    h.inside Cause.badKeyLength
  · refine .of_wait (Step.ofScan_of_more ?_)
    rw [scanKey_cons, byte_bind_cons, bind_of_more hmore]
    rfl
  · have hstep := step_key_eq_emit_iff.2 ⟨_, [], .key hinside, (List.append_nil _).symm, rfl⟩
    exact .of_emit hstep rfl (.of_wait rfl)
  · have hstep := step_key_eq_emit_iff.2 ⟨_, [], .opening hnum hlt, (List.append_nil _).symm, rfl⟩
    exact .of_emit hstep rfl (.of_wait readsRest_key.step_nil)

/-- A parser of dicts fails at the beginning of a dict just if this ends at a bare mark. -/
theorem failsJustAt (h : Spelled d (front ++ back)) :
    parser.FailsJustAt front (CutsMark front) := by
  refine Parser.failsJustAt_of_passes isBounded_machine (t := .key) ?_ ?_ ?_ ?_
  · rintro text head f? ⟨d, hspelled⟩ hbegins
    exact passes_of_spelled hspelled hbegins.endsBefore
  · intro head hbegins
    cases hbegins with
    | nothing => exact .of_final rfl rfl
    | key hcut => exact lasts_of_cut hcut
    | value hkey hbegins =>
      obtain ⟨line, hline, -, hpasses⟩ := exists_passes_of_key hkey
      rw [hline]
      exact (hpasses _).lasts (hasSlot.lasts_of_begins hbegins)
  · intro head g hbegins
    cases hbegins with
    | @bare key keyText text f hkey hbare =>
      obtain ⟨line, hline, hlength, hpasses⟩ := exists_passes_of_key hkey
      have hfails := (hpasses text).fails (hasSlot.fails_of_bare hbare)
      rw [Fault.shift_shift, ← hlength, ← hline] at hfails
      exact hfails
  · obtain ⟨d', text, head, f?, hspelled, htext, hbegins⟩ := h.of_append
    exact ⟨text, head, f?, ⟨d', hspelled⟩, htext, hbegins⟩

end PacketWire.DictValue
