import PacketWire.Variable
import PacketWire.Proofs.Keyword

namespace PacketWire

/-!
# Known names

No known name is the start of another one, so that a variable specializes one of them at most
(`Variable.eq_of_specializes`). What this one says is what the variable holds
(`Variable.kindOf_of_specializes`).
-/

namespace Variable

variable {name word : Bytes} {kind : Kind} {entry entry' : Bytes × Kind}
  {entries : List (Bytes × Kind)}

theorem eq_of_start (h : entry ∈ kindTable) (h' : entry' ∈ kindTable)
    (hstart : entry.1 <+: entry'.1) : entry = entry' := by
  have hall : ∀ e ∈ kindTable, ∀ e' ∈ kindTable, e.1 <+: e'.1 → e = e' := by decide +kernel
  exact hall entry h entry' h' hstart

/-- A variable specializes one known name at most. -/
theorem eq_of_specializes (h : entry ∈ kindTable) (h' : entry' ∈ kindTable)
    (hname : Keyword.specializes name entry.1 = true)
    (hname' : Keyword.specializes name entry'.1 = true) : entry = entry' := by
  -- of two starts of the name, one is the start of the other
  obtain hstart | hstart := List.prefix_or_prefix_of_prefix
    (Keyword.prefix_of_specializes hname) (Keyword.prefix_of_specializes hname')
  · exact eq_of_start h h' hstart
  · exact (eq_of_start h' h hstart).symm

/-- The entry with the longest name is one of them. -/
theorem foldl_longer_mem : entries.foldl longer entry ∈ entry :: entries := by
  induction entries generalizing entry with
  | nil => exact List.mem_cons_self
  | cons e entries ih =>
    rw [List.foldl_cons]
    obtain hkept | htail := List.mem_cons.1 (@ih (longer entry e))
    · rw [hkept, longer]
      split
      · exact List.mem_cons_self
      · exact List.mem_cons_of_mem _ List.mem_cons_self
    · exact List.mem_cons_of_mem _ (List.mem_cons_of_mem _ htail)

/-- A variable that specializes a known name holds what this name says. -/
theorem kindOf_of_specializes (hword : (word, kind) ∈ kindTable)
    (h : Keyword.specializes name word = true) : kindOf name = kind := by
  have hmem : (word, kind) ∈ kindTable.filter fun e => Keyword.specializes name e.1 :=
    List.mem_filter.2 ⟨hword, h⟩
  rw [kindOf]
  cases hfound : kindTable.filter fun e => Keyword.specializes name e.1 with
  | nil =>
    rw [hfound] at hmem
    cases hmem
  | cons entry entries =>
    have hlongest := @foldl_longer_mem entry entries
    rw [← hfound] at hlongest
    obtain ⟨htable, hname⟩ := List.mem_filter.1 hlongest
    exact congrArg Prod.snd (eq_of_specializes htable hword hname h)

end Variable

end PacketWire
