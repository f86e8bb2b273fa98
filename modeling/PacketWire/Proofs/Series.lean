import PacketWire.Spelling

namespace PacketWire.Series

/-!
# Sequences that are written one by one

A writer that has one wire form for each thing writes a sequence as `Series` allows it. Where things
of known kinds are read from the front of a text, their wire forms are told apart one by one.
-/

variable {α β : Type} {spelling : Spelling β} {f : α → β} {wire : α → Bytes} {as : List α}
  {text rest rest' : Bytes}

theorem flatMap (h : ∀ a ∈ as, spelling (f a) (wire a)) :
    Series spelling (as.map f) (as.flatMap wire) := by
  induction as with
  | nil => exact .nil
  | cons a as ih =>
    rw [List.map_cons, List.flatMap_cons]
    exact .cons (h a List.mem_cons_self) (ih fun b hb => h b (List.mem_cons_of_mem a hb))

/-- One more thing is written behind a sequence. -/
theorem concat {bs : List β} {b : β} {line : Bytes} (h : Series spelling bs text)
    (hline : spelling b line) : Series spelling (bs ++ [b]) (text ++ line) := by
  induction h with
  | nil =>
    have hone := Series.cons hline .nil
    rwa [List.append_nil] at hone
  | cons hfirst _ ih =>
    rw [List.append_assoc]
    exact .cons hfirst ih

/-- What holds of each thing that may be written holds of each one in a sequence. -/
theorem forall_mem {P : β → Prop} {bs : List β} (hone : ∀ {b line}, spelling b line → P b)
    (h : Series spelling bs text) : ∀ b ∈ bs, P b := by
  induction h with
  | nil => exact nofun
  | cons hline _ ih => exact List.forall_mem_cons.2 ⟨hone hline, ih⟩

/-- Nothing but the empty sequence is written as no bytes, if no thing is. -/
theorem eq_nil {bs : List β} (hne : ∀ {b line}, spelling b line → line ≠ [])
    (h : Series spelling bs []) : bs = [] := by
  generalize hw : ([] : Bytes) = text at h
  cases h with
  | nil => rfl
  | cons hline => exact absurd (List.append_eq_nil_iff.1 hw.symm).1 (hne hline)

/-- There are no more things in a sequence than bytes, if each of them takes one. -/
theorem length_le {bs : List β} (hne : ∀ {b line}, spelling b line → line ≠ [])
    (h : Series spelling bs text) : bs.length ≤ text.length := by
  induction h with
  | nil => exact Nat.le_refl 0
  | cons hline _ ih =>
    have hpos := List.length_pos_iff.2 (hne hline)
    rw [List.length_cons, List.length_append]
    omega

/-- The first bytes of a sequence are things of it as a whole, and what is left of one that is
    cut. -/
theorem of_append {bs : List β} {Cut : Bytes → Prop} {front back : Bytes} (hnil : Cut [])
    (hone : ∀ {b front back}, spelling b (front ++ back) → Cut front)
    (h : Series spelling bs (front ++ back)) :
    ∃ bs' text head, Series spelling bs' text ∧ front = text ++ head ∧ Cut head := by
  generalize htext : front ++ back = text at h
  induction h generalizing front with
  | nil =>
    obtain ⟨rfl, -⟩ := List.append_eq_nil_iff.1 htext
    exact ⟨[], [], [], .nil, rfl, hnil⟩
  | cons hline _ ih =>
    obtain ⟨rest, rfl, -⟩ | ⟨front, rfl, rfl⟩ := List.append_eq_append_iff.1 htext
    · exact ⟨[], [], front, .nil, rfl, hone hline⟩
    · obtain ⟨bs', text, head, hseries, rfl, hhead⟩ := ih rfl
      exact ⟨_, _, head, .cons hline hseries, (List.append_assoc ..).symm, hhead⟩

/-- A sequence in front of a text is written in the wire forms, if each thing is. -/
theorem eq_flatMap {P : α → Prop}
    (hone : ∀ a ∈ as, ∀ {line rest rest' : Bytes}, spelling (f a) line →
      line ++ rest = wire a ++ rest' → line = wire a ∧ P a)
    (h : Series spelling (as.map f) text) (hi : text ++ rest = as.flatMap wire ++ rest') :
    text = as.flatMap wire ∧ ∀ a ∈ as, P a := by
  induction as generalizing text with
  | nil =>
    cases h
    exact ⟨rfl, nofun⟩
  | cons a as ih =>
    rw [List.map_cons] at h
    cases h with
    | @cons _ _ line tail hline htail =>
      rw [List.flatMap_cons, List.append_assoc, List.append_assoc] at hi
      obtain ⟨rfl, hp⟩ := hone a List.mem_cons_self hline hi
      obtain ⟨rfl, hps⟩ := ih (fun b hb => hone b (List.mem_cons_of_mem a hb)) htail
        (List.append_cancel_left hi)
      exact ⟨rfl, List.forall_mem_cons.2 ⟨hp, hps⟩⟩

/-- Things of the same content as others, read one by one from the wire forms of these, are what
    these are read back as, if so is each of them in front of what may come behind it. -/
theorem eq_map_of_content {γ : Type} {spelling : Spelling α} {content : α → γ} {g : α → α}
    {P : α → Prop} {Ends : Bytes → Prop} {tail tail' : Bytes}
    (hone : ∀ a ∈ as, ∀ {b line rest rest'}, spelling b line → content b = content a →
      Ends rest → Ends rest' → line ++ rest = wire a ++ rest' → P a ∧ b = g a ∧ rest = rest')
    (hends : ∀ {bs text}, Series spelling bs text → Ends (text ++ tail))
    (hends' : ∀ as : List α, Ends (as.flatMap wire ++ tail'))
    {bs : List α} (h : Series spelling bs text) (hcontent : bs.map content = as.map content)
    (hi : text ++ tail = as.flatMap wire ++ tail') :
    (∀ a ∈ as, P a) ∧ bs = as.map g ∧ tail = tail' := by
  -- The texts of the first things end at the same place, and so the others go together, too.
  induction as generalizing bs text with
  | nil =>
    obtain rfl : bs = [] := List.map_eq_nil_iff.1 hcontent
    cases h
    exact ⟨nofun, rfl, hi⟩
  | cons a as ih =>
    cases h with
    | nil => cases hcontent
    | @cons b bs line rest hline hrest =>
      obtain ⟨hsame, hmore⟩ := List.cons.inj hcontent
      rw [List.flatMap_cons, List.append_assoc, List.append_assoc] at hi
      obtain ⟨hp, rfl, hbehind⟩ :=
        hone a List.mem_cons_self hline hsame (hends hrest) (hends' as) hi
      obtain ⟨hps, rfl, htail⟩ := ih (fun a' ha' => hone a' (List.mem_cons_of_mem a ha')) hrest
        hmore hbehind
      exact ⟨List.forall_mem_cons.2 ⟨hp, hps⟩, rfl, htail⟩

/-- Where nothing is behind them, neither there nor here, the same holds. -/
theorem eq_map_of_content_of_eq {γ : Type} {spelling : Spelling α} {content : α → γ} {g : α → α}
    {P : α → Prop} {Ends : Bytes → Prop}
    (hone : ∀ a ∈ as, ∀ {b line rest rest'}, spelling b line → content b = content a →
      Ends rest → Ends rest' → line ++ rest = wire a ++ rest' → P a ∧ b = g a ∧ rest = rest')
    (hends : ∀ {bs text}, Series spelling bs text → Ends text)
    (hends' : ∀ as : List α, Ends (as.flatMap wire)) {bs : List α} (h : Series spelling bs text)
    (hcontent : bs.map content = as.map content) (hi : text = as.flatMap wire) :
    (∀ a ∈ as, P a) ∧ bs = as.map g := by
  have hends {bs text} (h : Series spelling bs text) : Ends (text ++ []) := by
    rw [List.append_nil]
    exact hends h
  have hends' (as : List α) : Ends (as.flatMap wire ++ []) := by
    rw [List.append_nil]
    exact hends' as
  obtain ⟨hps, hmap, -⟩ :=
    eq_map_of_content hone hends hends' h hcontent (congrArg (· ++ []) hi)
  exact ⟨hps, hmap⟩

end PacketWire.Series
