namespace PacketWire.Except

/-!
# Checks that succeed

What is built is checked one thing after the other. If a check of several things succeeds, then so
does each check that it is made of.
-/

variable {ε α β : Type}

theorem bind_eq_ok_iff {x : Except ε α} {f : α → Except ε β} {b : β} :
    x >>= f = .ok b ↔ ∃ a, x = .ok a ∧ f a = .ok b := by
  cases x with
  | error e => simp [bind, Except.bind]
  | ok a => simp [bind, Except.bind]

/-- What is made of a list of things is made of the things. -/
theorem exists_of_mem_mapM {f : α → Except ε β} {as : List α} {bs : List β} {b : β}
    (h : as.mapM f = .ok bs) (hb : b ∈ bs) : ∃ a ∈ as, f a = .ok b := by
  induction as generalizing bs with
  | nil =>
    cases h
    cases hb
  | cons a as ih =>
    rw [List.mapM_cons] at h
    obtain ⟨b', hb', hmore⟩ := bind_eq_ok_iff.1 h
    obtain ⟨bs', hbs', hpure⟩ := bind_eq_ok_iff.1 hmore
    cases hpure
    rcases List.mem_cons.1 hb with rfl | hb
    · exact ⟨a, List.mem_cons_self, hb'⟩
    · obtain ⟨a', ha', hf⟩ := ih hbs' hb
      exact ⟨a', List.mem_cons_of_mem a ha', hf⟩

/-- If making a thing leaves no choice, so does making a list of them. -/
theorem eq_map_of_mapM {f : α → Except ε β} {g : α → β} {as : List α} {bs : List β}
    (hone : ∀ {a b}, f a = .ok b → b = g a) (h : as.mapM f = .ok bs) : bs = as.map g := by
  induction as generalizing bs with
  | nil =>
    cases h
    rfl
  | cons a as ih =>
    rw [List.mapM_cons] at h
    obtain ⟨b, hb, hmore⟩ := bind_eq_ok_iff.1 h
    obtain ⟨bs', hbs, hpure⟩ := bind_eq_ok_iff.1 hmore
    cases hpure
    rw [List.map_cons, hone hb, ih hbs]

/-- A thing that is the only one of its kind to be found, and is found just if a condition holds. -/
theorem exists_ok_iff {x : Except ε α} {P : α → Prop} {q : Prop} {a : α}
    (hfound : ∀ b, x = .ok b → P b → q ∧ b = a) (hq : q → x = .ok a ∧ P a) :
    ((∃ b, x = .ok b ∧ P b) ↔ q) ∧ ∀ b, x = .ok b → P b → b = a := by
  refine ⟨⟨?_, fun h => ⟨a, hq h⟩⟩, fun b hb hp => (hfound b hb hp).2⟩
  rintro ⟨b, hb, hp⟩
  exact (hfound b hb hp).1

end PacketWire.Except
