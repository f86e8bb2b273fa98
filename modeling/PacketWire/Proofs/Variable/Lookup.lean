import PacketWire.Proofs.Variable
import Mathlib.Data.UInt
import Mathlib.Data.List.Lex

namespace PacketWire

/-!
# Looking names up

What a variable holds depends neither on the order in which the known names are tried nor on
how the choice between two of them would be made, since there is never a choice
(`Variable.kindBy_eq_kindOf`); a name below one with a known kind has the same kind. The names
of the routing header are found by halving. That misses none in a table sorted by the order
the halving goes by (`Variable.search_eq_true_iff`), and the routing table is sorted.
-/

namespace Bytes

/-- Byte strings are compared as the library compares lists. -/
theorem compare_eq_ord (a b : Bytes) : Bytes.compare a b = Ord.compare a b := by
  induction a generalizing b with
  | nil => cases b <;> rfl
  | cons x a ih =>
    cases b with
    | nil => rfl
    | cons y b => rw [Bytes.compare, List.compare_cons_cons, ih]

variable {a b : Bytes}

/-- The comparison tells names apart. -/
theorem compare_eq_iff : Bytes.compare a b = .eq ↔ a = b := by
  rw [compare_eq_ord, Std.compare_eq_iff_eq]

/-- The comparison of two names is turned around with them. -/
theorem compare_gt_iff : Bytes.compare a b = .gt ↔ Bytes.compare b a = .lt := by
  rw [compare_eq_ord, compare_eq_ord, Std.OrientedCmp.gt_iff_lt]

end Bytes

namespace Variable

variable {name word : Bytes} {entry : Bytes × Kind} {table : List (Bytes × Kind)}

/-! ### What a variable holds -/

/-- A variable specializes one known name at most. -/
theorem length_filter_specializes_le (name : Bytes) :
    (kindTable.filter fun e => Keyword.specializes name e.1).length ≤ 1 := by
  have hnodup : (kindTable.filter fun e => Keyword.specializes name e.1).Nodup :=
    List.Nodup.filter _ (by decide)
  have hfound : ∀ e ∈ kindTable.filter fun e => Keyword.specializes name e.1,
      e ∈ kindTable ∧ Keyword.specializes name e.1 = true := fun e => List.mem_filter.1
  cases hentries : kindTable.filter fun e => Keyword.specializes name e.1 with
  | nil => exact Nat.zero_le 1
  | cons first entries =>
    cases entries with
    | nil => exact Nat.le_refl 1
    | cons second entries =>
      -- the first two would be one entry, and the table has no entry twice
      rw [hentries] at hnodup hfound
      obtain ⟨hfirst, hname⟩ := hfound first List.mem_cons_self
      obtain ⟨hsecond, hname'⟩ := hfound second (List.mem_cons_of_mem _ List.mem_cons_self)
      have heq := eq_of_specializes hfirst hsecond hname hname'
      exact absurd (heq ▸ List.mem_cons_self) (List.nodup_cons.1 hnodup).1

/-- What a variable holds by a table of known names and a choice between two of them. -/
def kindBy (prefer : Bytes × Kind → Bytes × Kind → Bytes × Kind) (table : List (Bytes × Kind))
    (name : Bytes) : Kind :=
  match table.filter fun entry => Keyword.specializes name entry.1 with
  | [] => .unknown
  | entry :: entries => (entries.foldl prefer entry).2

/-- The lookup of names is that in the table, with the longer name first. -/
theorem kindOf_eq_kindBy : kindOf name = kindBy longer kindTable name := rfl

/-- Neither the order of the known names nor the choice between them matters. -/
theorem kindBy_eq_kindOf (prefer : Bytes × Kind → Bytes × Kind → Bytes × Kind)
    (h : table.Perm kindTable) : kindBy prefer table name = kindOf name := by
  have hperm := h.filter fun e => Keyword.specializes name e.1
  have hlength := length_filter_specializes_le name
  rw [kindOf_eq_kindBy, kindBy, kindBy]
  cases hentries : kindTable.filter fun e => Keyword.specializes name e.1 with
  | nil =>
    rw [hentries] at hperm
    rw [hperm.eq_nil]
  | cons entry entries =>
    rw [hentries] at hperm hlength
    -- a single entry has one order, and is chosen without a choice
    obtain rfl := List.eq_nil_of_length_eq_zero (Nat.le_zero.1 (Nat.le_of_succ_le_succ hlength))
    rw [List.perm_singleton.1 hperm]
    rfl

/-- What a variable of a known kind holds is said by a known name that it specializes. -/
theorem exists_of_kindOf_ne_unknown (h : kindOf name ≠ .unknown) :
    ∃ entry ∈ kindTable, Keyword.specializes name entry.1 = true := by
  cases hentries : kindTable.filter fun e => Keyword.specializes name e.1 with
  | nil => exact absurd (by rw [kindOf, hentries]) h
  | cons entry entries =>
    have hmem : entry ∈ kindTable.filter fun e => Keyword.specializes name e.1 :=
      hentries ▸ List.mem_cons_self
    exact ⟨entry, List.mem_filter.1 hmem⟩

/-- A name below one of a known kind is of this kind. -/
theorem kindOf_eq_of_specializes (h : kindOf name ≠ .unknown)
    (hword : Keyword.specializes word name = true) : kindOf word = kindOf name := by
  obtain ⟨entry, htable, hname⟩ := exists_of_kindOf_ne_unknown h
  rw [kindOf_of_specializes htable hname,
    kindOf_of_specializes htable (Keyword.specializes_trans hword hname)]

/-! ### The names of the routing header -/

/-- Each name stands in front of those behind it. -/
def IsSorted (table : Array Bytes) : Prop := table.toList.Pairwise (Bytes.compare · · = .lt)

/-- The table of routing names is sorted. -/
theorem isSorted_routingTable : IsSorted routingTable := by
  unfold IsSorted
  decide +kernel

/-- Names stand as they compare. -/
theorem IsSorted.lt_of_compare {table : Array Bytes} (h : IsSorted table) {i j : Nat}
    {entry entry' : Bytes} (hi : table[i]? = some entry) (hj : table[j]? = some entry')
    (hcmp : Bytes.compare entry entry' = .lt) : i < j := by
  obtain ⟨hisize, rfl⟩ := Array.getElem?_eq_some_iff.1 hi
  obtain ⟨hjsize, rfl⟩ := Array.getElem?_eq_some_iff.1 hj
  refine Nat.lt_of_not_le fun hle => ?_
  obtain hlt | rfl := Nat.lt_or_eq_of_le hle
  · have hback := Bytes.compare_gt_iff.2 (List.pairwise_iff_getElem.1 h j i hjsize hisize hlt)
    exact absurd (hcmp.symm.trans hback) (by decide)
  · exact absurd (hcmp.symm.trans (Bytes.compare_eq_iff.2 rfl)) (by decide)

/-- Halving a sorted table finds just the names that stand between its bounds. -/
theorem search_eq_true_iff {table : Array Bytes} (hsorted : IsSorted table) {low high : Nat}
    (hhigh : high ≤ table.size) :
    search table name low high = true ↔ ∃ i, low ≤ i ∧ i < high ∧ table[i]? = some name := by
  fun_induction search table name low high with
  | case1 low high hlt middle hnone =>
    exact absurd (Array.getElem?_eq_none_iff.1 hnone) (by omega)
  | case2 low high hlt middle entry hentry hcmp =>
    obtain rfl := Bytes.compare_eq_iff.1 hcmp
    exact iff_of_true rfl ⟨middle, by omega, by omega, hentry⟩
  | case3 low high hlt middle entry hentry hcmp ih =>
    -- what stands up to the middle is in front of the name
    rw [ih hhigh]
    exact ⟨fun ⟨i, hi, hihigh, hname⟩ => ⟨i, by omega, hihigh, hname⟩,
      fun ⟨i, _, hihigh, hname⟩ => ⟨i, hsorted.lt_of_compare hentry hname hcmp, hihigh, hname⟩⟩
  | case4 low high hlt middle entry hentry hcmp ih =>
    -- what stands from the middle on is behind the name
    rw [ih (by omega)]
    exact ⟨fun ⟨i, hi, hihigh, hname⟩ => ⟨i, hi, by omega, hname⟩, fun ⟨i, hi, _, hname⟩ =>
      ⟨i, hi, hsorted.lt_of_compare hname hentry (Bytes.compare_gt_iff.1 hcmp), hname⟩⟩
  | case5 low high hlt => exact iff_of_false Bool.false_ne_true fun ⟨i, hi, hihigh, _⟩ => by omega

/-- So halving finds just the names in it. -/
theorem isRouting_iff : isRouting name = true ↔ name ∈ routingTable := by
  rw [isRouting, search_eq_true_iff isSorted_routingTable (Nat.le_refl _), Array.mem_iff_getElem?]
  refine ⟨fun ⟨i, _, _, h⟩ => ⟨i, h⟩, fun ⟨i, h⟩ => ⟨i, Nat.zero_le i, ?_, h⟩⟩
  exact (Array.getElem?_eq_some_iff.1 h).1

/-- Names are looked up without ambiguity. A name specializes one known name at most, so that
    the known names may be tried in any order, with any choice between two of them; below a
    name of a known kind there are only names of this kind; and a name is found to belong into
    the routing header just where it is one of its names. -/
theorem lookup_unambiguous (name : Bytes) :
    (kindTable.filter fun entry => Keyword.specializes name entry.1).length ≤ 1 ∧
    (∀ prefer table, table.Perm kindTable → kindBy prefer table name = kindOf name) ∧
    (kindOf name ≠ .unknown →
      ∀ word, Keyword.specializes word name = true → kindOf word = kindOf name) ∧
    (isRouting name = true ↔ name ∈ routingTable) :=
  ⟨length_filter_specializes_le name, fun prefer _ => kindBy_eq_kindOf prefer,
    fun h _ => kindOf_eq_of_specializes h, isRouting_iff⟩

/-- The members of a list are a list, as a list is, also when the known names are tried from
    the last one on; `_tag_relay` belongs into the routing header, between `_tag` and
    `_target`. -/
theorem lookup_list_members :
    kindOf (Bytes.ofText "_list_members") = .list ∧
    kindBy (fun first _ => first) kindTable.reverse (Bytes.ofText "_list_members") = .list ∧
    isRouting (Bytes.ofText "_tag_relay") = true := by
  have hmembers : kindOf (Bytes.ofText "_list_members") = .list :=
    ((lookup_unambiguous (Bytes.ofText "_list")).2.2.1 (by decide) _ (by decide)).trans (by decide)
  exact ⟨hmembers,
    ((lookup_unambiguous _).2.1 (fun first _ => first) _ (List.reverse_perm _)).trans hmembers,
    (lookup_unambiguous _).2.2.2.2 (Array.mem_toList_iff.1 (by decide))⟩

end Variable

end PacketWire
