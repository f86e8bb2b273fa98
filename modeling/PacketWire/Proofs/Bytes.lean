import PacketWire.Bytes

namespace PacketWire.Bytes

/-!
# Where byte strings come apart

A byte that does not occur in what is in front of it marks a place: there is only one way to take a
byte string apart at its first occurrence (`append_cons_inj`). `split` and `before` are told in
these terms.
-/

variable {b c : UInt8} {front front' rest rest' : Bytes}

/-- Bytes of a class and the first byte that is not in it are told apart in one way only. -/
theorem append_cons_inj {class? : UInt8 → Bool} (hf : ∀ x ∈ front, class? x)
    (hf' : ∀ x ∈ front', class? x) (hb : class? b = false) (hc : class? c = false)
    (h : front ++ b :: rest = front' ++ c :: rest') : front = front' ∧ b = c ∧ rest = rest' := by
  -- Bytes are taken off both fronts together. Where one of them is at its end first, the byte
  -- behind it is in the class on one side and not on the other.
  induction front generalizing front' with
  | nil =>
    cases front' with
    | nil => simpa using h
    | cons x xs =>
      obtain ⟨rfl, -⟩ := List.cons.inj h
      simp [hb] at hf'
  | cons x xs ih =>
    cases front' with
    | nil =>
      obtain ⟨rfl, -⟩ := List.cons.inj h
      simp [hc] at hf
    | cons y ys =>
      obtain ⟨rfl, htail⟩ := List.cons.inj h
      obtain ⟨rfl, hrest⟩ := ih (fun x hx => hf x (List.mem_cons_of_mem _ hx))
        (fun x hx => hf' x (List.mem_cons_of_mem _ hx)) htail
      exact ⟨rfl, hrest⟩

/-- There is only one way to take bytes apart at the first `b`. -/
theorem append_cons_inj_of_notMem (hf : b ∉ front) (hf' : b ∉ front')
    (h : front ++ b :: rest = front' ++ b :: rest') : front = front' ∧ rest = rest' := by
  have hne : ∀ {bytes : Bytes}, b ∉ bytes → ∀ x ∈ bytes, (x != b) = true := fun hb x hx =>
    bne_iff_ne.2 fun he => hb (he ▸ hx)
  have hb : (b != b) = false := by simp
  obtain ⟨hfront, -, hrest⟩ := append_cons_inj (hne hf) (hne hf') hb hb h
  exact ⟨hfront, hrest⟩

/-- A text that ends at a `b` does not stand in front of itself, behind bytes without `b`. -/
theorem append_append_cons_ne {text : Bytes} (hne : front ≠ []) (hf : b ∉ front) :
    front ++ (text ++ b :: rest) ≠ text ++ b :: rest' := by
  induction hn : text.length using Nat.strongRecOn generalizing text with
  | ind n ih =>
    intro h
    obtain ⟨tail, rfl, htail⟩ | ⟨tail, rfl, htail⟩ := List.append_eq_append_iff.1 h
    · -- the text starts with these bytes, and what is left of it is shorter
      have hpos := List.length_pos_iff.2 hne
      rw [List.append_assoc] at htail
      refine ih tail.length ?_ rfl htail
      rw [List.length_append] at hn
      omega
    · -- these bytes reach behind the text, where the `b` is
      cases tail with
      | nil =>
        rw [List.append_nil] at hne hf
        obtain ⟨c, tail, rfl⟩ := List.exists_cons_of_ne_nil hne
        obtain ⟨rfl, -⟩ := List.cons.inj htail
        exact hf List.mem_cons_self
      | cons c tail =>
        obtain ⟨rfl, -⟩ := List.cons.inj htail
        exact hf (List.mem_append_right _ List.mem_cons_self)

/-- What does not hold the separator is one piece. -/
theorem split_of_notMem (h : b ∉ front) : split b front = [front] := by
  induction front with
  | nil => rfl
  | cons x xs ih =>
    rw [List.mem_cons, not_or] at h
    rw [split, if_neg (Ne.symm h.1), ih h.2]

/-- The first separator ends the first piece. -/
theorem split_append_cons (h : b ∉ front) :
    split b (front ++ b :: rest) = front :: split b rest := by
  induction front with
  | nil => rw [List.nil_append, split, if_pos rfl]
  | cons x xs ih =>
    rw [List.mem_cons, not_or] at h
    rw [List.cons_append, split, if_neg (Ne.symm h.1), ih h.2]

/-- Bytes without `b` in front go to the first piece. -/
theorem split_append_of_notMem (h : b ∉ front) :
    ∃ piece, split b (front ++ rest) = (front ++ piece) :: (split b rest).tail := by
  -- the first piece ends at the first `b` of the rest, or takes all of it
  by_cases hb : b ∈ rest
  · obtain ⟨piece, tail, rfl, hp⟩ := List.eq_append_cons_of_mem hb
    refine ⟨piece, ?_⟩
    rw [← List.append_assoc, split_append_cons (by simp [h, hp]), split_append_cons hp]
    rfl
  · refine ⟨rest, ?_⟩
    rw [split_of_notMem (by simp [h, hb]), split_of_notMem hb]
    rfl

/-- A sequence is not found where its first byte does not occur. -/
theorem before_append_of_notMem {needle : Bytes} (h : b ∉ front) :
    before (b :: needle) (front ++ rest) = (before (b :: needle) rest).map (front ++ ·) := by
  induction front with
  | nil => simp
  | cons x xs ih =>
    rw [List.mem_cons, not_or] at h
    rw [List.cons_append, before, if_neg (by simp [h.1]), ih h.2, Option.map_map]
    rfl

/-- A sequence is found wherever it occurs. -/
theorem holds_eq_true_iff {needle bytes : Bytes} :
    holds needle bytes = true ↔ needle <:+: bytes := by
  rw [holds, Option.isSome_iff_ne_none, Ne, before_eq_none_iff, Classical.not_not]

end PacketWire.Bytes
