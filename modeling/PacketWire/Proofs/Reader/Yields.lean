import PacketWire.Proofs.Reader.Parts

namespace PacketWire.Reader

open Packet

/-!
# What bytes yield

The packets that a reader makes of the bytes ahead, and how it ends with them, are told by a
relation (`Yields`) that counts no calls and keeps no cursor. It is a function on the states of a
parser (`yields_unique`, `exists_yields`), and what a longer input yields is put together from what
its front yields and what is read behind that (`Yields.append`).
-/

/-- How reading ends. -/
inductive Ending where
  /-- More input is needed; the state, the packet that is coming in, and the bytes that are left. -/
  | more (state : State) (incoming : Incoming) (rest : Bytes)
  /-- The input is malformed. -/
  | malformed (cause : Cause)
  /-- A value of this length is too large. -/
  | tooLarge (length : Nat)

/-- Within the limit `max` on values in parts, the bytes ahead yield these packets, and then reading
    ends like this. -/
inductive Yields (max : Nat) : State → Incoming → Bytes → List Received → Ending → Prop where
  /-- More input is needed. -/
  | more {s t : State} {a : Incoming} {input : Bytes} {n : Nat} :
      step s input = .wait t n → Yields max s a input [] (.more t a (input.drop n))
  /-- The input is malformed. -/
  | malformed {s : State} {a : Incoming} {input : Bytes} {f : Fault Cause} :
      step s input = .fault f → Yields max s a input [] (.malformed f.cause)
  /-- A value is too large. -/
  | tooLarge {s t : State} {a : Incoming} {input : Bytes} {e : Event} {n length : Nat} :
      step s input = .emit e t n → e.announces? = some length → max < length →
        Yields max s a input [] (.tooLarge length)
  /-- A packet is complete, and the next one starts. -/
  | complete {s t : State} {a : Incoming} {input : Bytes} {n : Nat} {packets : List Received}
      {ending : Ending} :
      step s input = .emit .complete t n → Yields max t {} (input.drop n) packets ending →
        Yields max s a input (a.packet :: packets) ending
  /-- A unit of a packet. -/
  | unit {s t : State} {a : Incoming} {input : Bytes} {e : Event} {n : Nat}
      {packets : List Received} {ending : Ending} :
      step s input = .emit e t n → e ≠ .complete →
        (∀ length, e.announces? = some length → length ≤ max) →
        Yields max t (a.apply e) (input.drop n) packets ending →
        Yields max s a input packets ending

variable {max : Nat} {s t : State} {a a' : Incoming} {input more rest : Bytes}
  {packets packets' : List Received} {ending ending' : Ending}

/-! ### A function -/

theorem yields_unique (h : Yields max s a input packets ending)
    (h' : Yields max s a input packets' ending') : packets = packets' ∧ ending = ending' := by
  -- Both make the same step. So they end in the same way, or behind the same unit; and a length is
  -- not both within the limit and beyond it.
  induction h generalizing packets' with
  | more hstep =>
    cases h' with
    | more hstep' => rw [hstep] at hstep'; cases hstep'; exact ⟨rfl, rfl⟩
    | malformed hstep' => rw [hstep] at hstep'; cases hstep'
    | tooLarge hstep' => rw [hstep] at hstep'; cases hstep'
    | complete hstep' => rw [hstep] at hstep'; cases hstep'
    | unit hstep' => rw [hstep] at hstep'; cases hstep'
  | malformed hstep =>
    cases h' with
    | more hstep' => rw [hstep] at hstep'; cases hstep'
    | malformed hstep' => rw [hstep] at hstep'; cases hstep'; exact ⟨rfl, rfl⟩
    | tooLarge hstep' => rw [hstep] at hstep'; cases hstep'
    | complete hstep' => rw [hstep] at hstep'; cases hstep'
    | unit hstep' => rw [hstep] at hstep'; cases hstep'
  | tooLarge hstep ha hlt =>
    cases h' with
    | more hstep' => rw [hstep] at hstep'; cases hstep'
    | malformed hstep' => rw [hstep] at hstep'; cases hstep'
    | tooLarge hstep' ha' =>
      rw [hstep] at hstep'
      cases hstep'
      rw [ha] at ha'
      cases ha'
      exact ⟨rfl, rfl⟩
    | complete hstep' => rw [hstep] at hstep'; cases hstep'; cases ha
    | unit hstep' _ hle =>
      rw [hstep] at hstep'
      cases hstep'
      exact absurd (hle _ ha) (Nat.not_le_of_lt hlt)
  | complete hstep _ ih =>
    cases h' with
    | more hstep' => rw [hstep] at hstep'; cases hstep'
    | malformed hstep' => rw [hstep] at hstep'; cases hstep'
    | tooLarge hstep' ha => rw [hstep] at hstep'; cases hstep'; cases ha
    | complete hstep' h' =>
      rw [hstep] at hstep'
      cases hstep'
      obtain ⟨rfl, rfl⟩ := ih h'
      exact ⟨rfl, rfl⟩
    | unit hstep' hne => rw [hstep] at hstep'; cases hstep'; exact absurd rfl hne
  | unit hstep hne hle _ ih =>
    cases h' with
    | more hstep' => rw [hstep] at hstep'; cases hstep'
    | malformed hstep' => rw [hstep] at hstep'; cases hstep'
    | tooLarge hstep' ha hlt =>
      rw [hstep] at hstep'
      cases hstep'
      exact absurd (hle _ ha) (Nat.not_le_of_lt hlt)
    | complete hstep' => rw [hstep] at hstep'; cases hstep'; exact absurd rfl hne
    | unit hstep' _ _ h' => rw [hstep] at hstep'; cases hstep'; exact ih h'

/-- Reading ends, for every unit takes a byte. -/
theorem exists_yields (max : Nat) (a : Incoming) (hs : s.IsValid) :
    ∃ packets ending, Yields max s a input packets ending := by
  induction hn : input.length using Nat.strongRecOn generalizing s a input with
  | ind n ih =>
    cases hstep : step s input with
    | wait t k => exact ⟨_, _, .more hstep⟩
    | fault f => exact ⟨_, _, .malformed hstep⟩
    | emit e t k =>
      have hsends := hs.sends_of_step hstep
      have hpos := hsends.pos
      have hle := (continues_step s input).used_le hstep
      -- fewer bytes are ahead of the next step
      have hnext : ∀ a', ∃ packets ending, Yields max t a' (input.drop k) packets ending :=
        fun a' => ih (input.drop k).length (by rw [List.length_drop]; omega) a' hsends.isValid rfl
      by_cases hcomplete : e = .complete
      · subst hcomplete
        obtain ⟨packets, ending, h⟩ := hnext {}
        exact ⟨_, _, .complete hstep h⟩
      · by_cases hlarge : ∃ length, e.announces? = some length ∧ max < length
        · obtain ⟨length, ha, hlt⟩ := hlarge
          exact ⟨_, _, .tooLarge hstep ha hlt⟩
        · obtain ⟨packets, ending, h⟩ := hnext (a.apply e)
          refine ⟨_, _, .unit hstep hcomplete (fun length ha => ?_) h⟩
          exact Nat.le_of_not_lt fun hlt => hlarge ⟨length, ha, hlt⟩

/-! ### Longer inputs -/

/-- What is yielded behind the bytes that a step waits behind is yielded. -/
theorem Yields.shift {n : Nat} (hstep : step s input = (step t (input.drop n)).shift n)
    (h : Yields max t a (input.drop n) packets ending) : Yields max s a input packets ending := by
  cases h with
  | more ht =>
    rw [ht] at hstep
    rw [List.drop_drop]
    exact .more hstep
  | @malformed _ _ _ f ht =>
    rw [ht] at hstep
    exact @Yields.malformed _ _ _ _ (f.shift n) hstep
  | tooLarge ht ha hlt =>
    rw [ht] at hstep
    exact .tooLarge hstep ha hlt
  | complete ht h =>
    rw [ht] at hstep
    rw [List.drop_drop] at h
    exact .complete hstep h
  | unit ht hne hle h =>
    rw [ht] at hstep
    rw [List.drop_drop] at h
    exact .unit hstep hne hle h

/-- Nothing is yielded where there is nothing, behind a unit that was cut. -/
theorem yields_nil_of_open (ht : t.HasOpen) (h : Yields max t a [] packets ending) :
    packets = [] ∧ ending = .more t a [] :=
  yields_unique h (.more (step_nil_of_open ht))

/-- A packet in front of what is yielded behind it, in a longer input. -/
theorem Yields.complete_append {n : Nat} (hs : s.IsValid)
    (hstep : step s input = .emit .complete t n)
    (h : Yields max t {} (input.drop n ++ more) packets ending) :
    Yields max s a (input ++ more) (a.packet :: packets) ending := by
  have hc := continues_step s input
  have hg : State.growth (.complete, t) = none := by
    refine Option.eq_none_iff_forall_ne_some.2 fun go hgo => ?_
    exact (hs.sends_of_step hstep).not_hasOpen (growth_eq_some_iff.1 ⟨go, hgo⟩)
  refine .complete (hc.complete hstep hg more) ?_
  rw [List.drop_append_of_le_length (hc.used_le hstep)]
  exact h

/-- A unit in front of what is yielded behind it, in a longer input. If the unit was cut, the longer
    input gives the unit that it goes on to. -/
theorem Yields.unit_append {e : Event} {n : Nat} (hs : s.IsValid)
    (ha : a.Follows s) (hstep : step s input = .emit e t n) (hne : e ≠ .complete)
    (hle : ∀ length, e.announces? = some length → length ≤ max)
    (hcut : t.HasOpen → input.drop n = [] → Yields max t (a.apply e) more packets ending)
    (hwhole : ¬ t.HasOpen → Yields max t (a.apply e) (input.drop n ++ more) packets ending) :
    Yields max s a (input ++ more) packets ending := by
  have hsends := hs.sends_of_step hstep
  have hc := continues_step s input
  cases hg : State.growth (e, t) with
  | none =>
    have hopen : ¬ t.HasOpen := fun h => by
      obtain ⟨go, hgo⟩ := growth_eq_some_iff.2 h
      rw [hg] at hgo
      cases hgo
    refine .unit (hc.complete hstep hg more) hne hle ?_
    rw [List.drop_append_of_le_length (hc.used_le hstep)]
    exact hwhole hopen
  | some go =>
    have hopen : t.HasOpen := growth_eq_some_iff.1 ⟨go, hg⟩
    obtain ⟨rfl, hgo⟩ := hc.cut hstep hg
    -- a unit that was cut has taken all bytes
    have h := hcut hopen List.drop_length
    by_cases hmore : more = []
    · subst hmore
      rw [List.append_nil]
      exact .unit hstep hne hle (by rw [List.drop_length]; exact h)
    · -- the longer input is read as the joined unit, and `more` as the further part
      obtain ⟨slot, bytes, isLast, hjoin, hpiece⟩ := step_of_cut hg hmore
      obtain ⟨slot', missing, ho⟩ := hopen
      have hleaves := hsends.leaves
      rw [ho] at hleaves
      have happly : (a.apply e).apply (.piece slot bytes isLast) =
          a.apply (e.join bytes isLast) := by
        refine Incoming.apply_join hleaves ?_
        by_cases hopen : s.HasOpen
        · exact .inr (hsends.isPiece.1 hopen)
        · exact .inl (ha hopen)
      have hstep' := hgo more
      rw [hjoin] at hstep'
      cases h with
      | more hwait => rw [hpiece] at hwait; cases hwait
      | malformed hfault => rw [hpiece] at hfault; cases hfault
      | tooLarge hemit hann => rw [hpiece] at hemit; cases hemit; cases hann
      | complete hemit => rw [hpiece] at hemit; cases hemit
      | unit hemit _ _ h =>
        rw [hpiece] at hemit
        cases hemit
        rw [happly] at h
        refine .unit hstep' (join_ne_complete hne) (fun length hann => ?_) ?_
        · exact hle length (announces?_join hann)
        · rw [List.drop_append, List.drop_of_length_le (by omega), List.nil_append,
            Nat.add_sub_cancel_left]
          exact h

/-- What a longer input yields is what its front yields, and what is yielded behind that. -/
theorem Yields.append (hs : s.IsValid) (ha : a.Follows s)
    (h : Yields max s a input packets (.more t a' rest))
    (h' : Yields max t a' (rest ++ more) packets' ending) :
    Yields max s a (input ++ more) (packets ++ packets') ending := by
  generalize hend : Ending.more t a' rest = ending₀ at h
  -- On what the front yields. A value that is cut by the end of the front is cut later in the
  -- whole, or not at all, so the last unit of the front may be longer there.
  induction h with
  | @more s u a input n hstep =>
    cases hend
    obtain ⟨hle, hgo⟩ := (continues_step s input).wait hstep
    have hdrop : (input ++ more).drop n = input.drop n ++ more :=
      List.drop_append_of_le_length hle
    refine .shift (n := n) (t := t) ?_ ?_
    · rw [hgo, hdrop]
      rfl
    · rw [hdrop]
      exact h'
  | malformed => cases hend
  | tooLarge => cases hend
  | @complete s u a input n packets _ hstep h ih =>
    have hsends := hs.sends_of_step hstep
    exact .complete_append hs hstep (ih hsends.isValid Incoming.follows_empty hend)
  | @unit s u a input e n packets _ hstep hne hle h ih =>
    have hsends := hs.sends_of_step hstep
    refine .unit_append hs ha hstep hne hle (fun hopen hnil => ?_) fun _ => ?_
    · rw [hnil] at h
      obtain ⟨rfl, hmore⟩ := yields_nil_of_open hopen h
      rw [hmore] at hend
      cases hend
      exact h'
    · exact ih hsends.isValid (ha.apply hsends) hend

/-- Malformed bytes are malformed in a longer input. -/
theorem Yields.append_malformed {cause : Cause} (hs : s.IsValid) (ha : a.Follows s)
    (h : Yields max s a input packets (.malformed cause)) :
    Yields max s a (input ++ more) packets (.malformed cause) := by
  generalize hend : Ending.malformed cause = ending₀ at h
  induction h with
  | more => cases hend
  | tooLarge => cases hend
  | malformed hstep => exact .malformed ((continues_step _ _).fault hstep more)
  | complete hstep _ ih =>
    have hsends := hs.sends_of_step hstep
    exact .complete_append hs hstep (ih hsends.isValid Incoming.follows_empty hend)
  | unit hstep hne hle h ih =>
    have hsends := hs.sends_of_step hstep
    refine .unit_append hs ha hstep hne hle (fun hopen hnil => ?_) fun _ => ?_
    · rw [hnil] at h
      obtain ⟨-, hmore⟩ := yields_nil_of_open hopen h
      rw [hmore] at hend
      cases hend
    · exact ih hsends.isValid (ha.apply hsends) hend

/-- No value in the input is beyond the limit once all of it has come: the limit is as long as the
    input, or no length is beyond it. -/
def Permits (max : Nat) (input : Bytes) : Prop := input.length ≤ max ∨ Decimal.bound ≤ max + 1

theorem Permits.mono {input' : Bytes} (h : Permits max input) (hle : input'.length ≤ input.length) :
    Permits max input' := h.imp_left (Nat.le_trans hle)

/-- A value that is too large is so in a longer input that the limit permits: the value is not
    complete then, either. -/
theorem Yields.append_tooLarge {length : Nat} (hs : s.IsValid) (ha : a.Follows s)
    (hpermits : Permits max (input ++ more))
    (h : Yields max s a input packets (.tooLarge length)) :
    Yields max s a (input ++ more) packets (.tooLarge length) := by
  generalize hend : Ending.tooLarge length = ending₀ at h
  have hdrop : ∀ {input : Bytes} {n : Nat}, Permits max (input ++ more) →
      Permits max (input.drop n ++ more) := fun h => h.mono (by simp)
  induction h with
  | more => cases hend
  | malformed => cases hend
  | @tooLarge s t a input e n length' hstep hann hlt =>
    cases hend
    have hsends := hs.sends_of_step hstep
    have hbound := hsends.length_lt hann
    -- the value is open, so what the longer input adds is all a part of it, and it is still open
    obtain ⟨slot, missing, ho⟩ := hsends.hasOpen hann
    obtain ⟨go, hg⟩ := growth_eq_some_iff.2 ⟨slot, missing, ho⟩
    obtain ⟨rfl, hgo⟩ := (continues_step s input).cut hstep hg
    have hmissing := hsends.length_le hann ho
    have hlength : (input ++ more).length ≤ max := hpermits.resolve_right (by omega)
    rw [List.length_append] at hlength
    have hstep' := hgo more
    rw [growth_of_lt hg ho (by omega)] at hstep'
    exact .tooLarge hstep' (announces?_join_false.trans hann) hlt
  | complete hstep _ ih =>
    have hsends := hs.sends_of_step hstep
    exact .complete_append hs hstep
      (ih hsends.isValid Incoming.follows_empty (hdrop hpermits) hend)
  | unit hstep hne hle h ih =>
    have hsends := hs.sends_of_step hstep
    refine .unit_append hs ha hstep hne hle (fun hopen hnil => ?_) fun _ => ?_
    · rw [hnil] at h
      obtain ⟨-, hmore⟩ := yields_nil_of_open hopen h
      rw [hmore] at hend
      cases hend
    · exact ih hsends.isValid (ha.apply hsends) (hdrop hpermits) hend

end PacketWire.Reader
