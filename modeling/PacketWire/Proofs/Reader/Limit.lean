import PacketWire.Proofs.Reader.Chunks

namespace PacketWire.Reader

open Packet

/-!
# The limit on values

The limit is looked at when the first part of a value comes, and a value that comes whole has no
first part. So what a reader with a limit gives is told by what a reader without one holds between
the chunks (`receive_tooLarge_iff`): a value that is too large stops it if a chunk ends inside the
value, and passes otherwise.
-/

/-- No length of 64 bits is beyond this limit. -/
abbrev noLimit : Nat := Decimal.bound - 1

/-- A reader that accepts every value. -/
def unlimited (mode : ModeBits) : Reader := start mode noLimit

/-- How reading ends within a limit, from how it ends without one. -/
def Ending.within (max : Nat) : Ending → Ending
  | .more t a rest =>
    match a.value with
    | some v => if max < v.length then .tooLarge v.length else .more t a rest
    | none => .more t a rest
  | ending => ending

variable {max : Nat} {s t : State} {a a' : Incoming} {input buffer rest : Bytes}
  {packets : List Received} {ending : Ending} {chunks : List Bytes}

/-- A value that fits does not end anything. -/
theorem within_of_fits (h : a.Fits max) :
    (Ending.more t a rest).within max = .more t a rest := by
  rw [Ending.within]
  cases hv : a.value with
  | none => rfl
  | some v => exact if_neg (Nat.not_lt_of_le (h v hv))

/-- A value beyond the limit ends the stream with its length. -/
theorem within_of_lt {v : OpenValue} (hv : a.value = some v) (hlt : max < v.length) :
    (Ending.more t a rest).within max = .tooLarge v.length := by
  rw [Ending.within, hv]
  exact if_pos hlt

/-- No value is too large for a reader without a limit. -/
theorem ne_tooLarge {length : Nat} (hs : s.IsValid) (h : Yields noLimit s a input packets ending) :
    ending ≠ .tooLarge length := by
  rintro rfl
  generalize hend : Ending.tooLarge length = ending₀ at h
  induction h with
  | more => cases hend
  | malformed => cases hend
  | tooLarge hstep hann hlt =>
    have hbound := (hs.sends_of_step hstep).length_lt hann
    exact absurd hlt (Nat.not_lt_of_le (Nat.le_sub_one_of_lt hbound))
  | complete hstep _ ih => exact ih (hs.sends_of_step hstep).isValid hend
  | unit hstep _ _ _ ih => exact ih (hs.sends_of_step hstep).isValid hend

/-- Within a limit the same is yielded as without one, up to a value that is open and beyond it. -/
theorem Yields.within (hs : s.IsValid) (hfits : a.Fits max)
    (h : Yields noLimit s a input packets ending) :
    Yields max s a input packets (ending.within max) := by
  induction h with
  | more hstep =>
    rw [within_of_fits hfits]
    exact .more hstep
  | malformed hstep => exact .malformed hstep
  | tooLarge hstep hann hlt =>
    have hbound := (hs.sends_of_step hstep).length_lt hann
    exact absurd hlt (Nat.not_lt_of_le (Nat.le_sub_one_of_lt hbound))
  | complete hstep _ ih =>
    exact .complete hstep (ih (hs.sends_of_step hstep).isValid Incoming.fits_empty)
  | @unit s t a input e n packets ending hstep hne _ h ih =>
    have hsends := hs.sends_of_step hstep
    cases hann : e.announces? with
    | none =>
      refine .unit hstep hne (fun length hlength => ?_) (ih hsends.isValid (hfits.apply hann))
      rw [hann] at hlength
      cases hlength
    | some length =>
      -- the value reaches up to the end of the input, and reading ends with it
      have hopen := hsends.hasOpen hann
      obtain ⟨go, hg⟩ := growth_eq_some_iff.2 hopen
      obtain ⟨rfl, -⟩ := (continues_step s input).cut hstep hg
      rw [List.drop_length] at h
      obtain ⟨rfl, rfl⟩ := yields_nil_of_open hopen h
      obtain ⟨v, hv, rfl⟩ := @Incoming.value_apply e a _ hann
      by_cases hlt : max < v.length
      · rw [within_of_lt hv hlt]
        exact .tooLarge hstep hann hlt
      · have hfits' : (a.apply e).Fits max := fun w hw => by
          rw [hv] at hw
          cases hw
          exact Nat.le_of_not_lt hlt
        rw [within_of_fits hfits']
        refine .unit hstep hne (fun length hlength => ?_) ?_
        · rw [hann] at hlength
          cases hlength
          exact Nat.le_of_not_lt hlt
        · rw [List.drop_length]
          exact .more (step_nil_of_open hopen)

/-! ### Streams -/

/-- A reader waits for more of a value that is beyond the limit. -/
def IsBeyond (max : Nat) (last : Except ReaderError Reader) : Prop :=
  ∃ r v, last = .ok r ∧ r.incoming.value = some v ∧ max < v.length

/-- Some chunk ends inside a value that is beyond the limit. -/
def Cuts (max : Nat) (r : Reader) (chunks : List Bytes) : Prop :=
  ∃ front, front <+: chunks ∧ IsBeyond max (r.receive front).last

/-- A reader that waits is beyond the limit if the value it is in is. -/
theorem isBeyond_waiting_iff {n : Nat} :
    IsBeyond max (.ok (waiting n s a buffer)) ↔ ∃ v, a.value = some v ∧ max < v.length := by
  constructor
  · rintro ⟨_, v, hr, hv, hlt⟩
    cases hr
    exact ⟨v, hv, hlt⟩
  · rintro ⟨v, hv, hlt⟩
    exact ⟨_, v, rfl, hv, hlt⟩

/-- A reader whose value fits is not beyond the limit. -/
theorem not_isBeyond_of_fits {n : Nat} (h : a.Fits max) :
    ¬ IsBeyond max (.ok (waiting n s a buffer)) := by
  rw [isBeyond_waiting_iff]
  rintro ⟨v, hv, hlt⟩
  exact absurd (h v hv) (Nat.not_le_of_lt hlt)

/-- A stream is cut in a value before its first chunk, or later. -/
theorem cuts_cons_iff {r : Reader} {chunk : Bytes} :
    Cuts max r (chunk :: chunks) ↔
      IsBeyond max (.ok r) ∨ ∃ front, front <+: chunks ∧
        IsBeyond max (r.receive (chunk :: front)).last := by
  constructor
  · rintro ⟨front, hprefix, hbeyond⟩
    obtain rfl | ⟨front, rfl, hfront⟩ := List.prefix_cons_iff.1 hprefix
    · exact .inl hbeyond
    · exact .inr ⟨front, hfront, hbeyond⟩
  · rintro (hbeyond | ⟨front, hfront, hbeyond⟩)
    · exact ⟨[], List.nil_prefix, hbeyond⟩
    · exact ⟨chunk :: front, (List.prefix_cons_inj chunk).2 hfront, hbeyond⟩

/-- What a reader gives within a limit, from what it gives without one: it is stopped by a value
    that is too large if a chunk ends inside such a value, and otherwise gives the same. -/
structure Limits (max : Nat) (r r' : Reader) (chunks : List Bytes) : Prop where
  /-- What stops the reader. -/
  stopped : (∃ length, (r.receive chunks).last = .error (.valueTooLarge length max)) ↔
    Cuts max r' chunks
  /-- What it gives if it is not stopped. -/
  agrees : ¬ Cuts max r' chunks → (r.receive chunks).Agrees (r'.receive chunks)
  /-- What it gives in any case. -/
  packets : (r.receive chunks).packets <+: (r'.receive chunks).packets

/-- Without chunks a limit makes no difference to a value that fits. -/
theorem limits_nil (hfits : a.Fits max) :
    Limits max (waiting max s a buffer) (waiting noLimit s a buffer) [] where
  stopped := by
    constructor
    · rintro ⟨length, hlast⟩
      cases hlast
    · rintro ⟨front, hfront, hbeyond⟩
      obtain rfl := List.prefix_nil.1 hfront
      exact absurd hbeyond (not_isBeyond_of_fits hfits)
  agrees _ := ⟨rfl, .waiting rfl rfl rfl⟩
  packets := List.prefix_rfl

/-- Readers stop at a fault with or without a limit. -/
theorem limits_malformed {chunk : Bytes} {cause : Cause} (hs : s.IsValid) (hfits : a.Fits max)
    (h : Yields noLimit s a (buffer ++ chunk) packets (.malformed cause))
    (hwithin : Yields max s a (buffer ++ chunk) packets (.malformed cause)) :
    Limits max (waiting max s a buffer) (waiting noLimit s a buffer) (chunk :: chunks) := by
  -- Both readers meet the fault with the first chunk, and the other chunks are not read.
  obtain ⟨f, hf, hreceive⟩ := @receive_cons_malformed _ _ _ _ _ _ chunks _ hs hwithin
  obtain ⟨f', hf', hreceive'⟩ := @receive_cons_malformed _ _ _ _ _ _ chunks _ hs h
  have hagrees : ((waiting max s a buffer).receive (chunk :: chunks)).Agrees
      ((waiting noLimit s a buffer).receive (chunk :: chunks)) := by
    rw [hreceive, hreceive']
    exact ⟨rfl, .malformed (hf.trans hf'.symm)⟩
  refine ⟨?_, fun _ => hagrees, ?_⟩
  · rw [cuts_cons_iff, hreceive]
    constructor
    · rintro ⟨length, hlast⟩
      cases hlast
    · rintro (hbeyond | ⟨front, -, r, v, hlast, -⟩)
      · exact absurd hbeyond (not_isBeyond_of_fits hfits)
      · obtain ⟨g, -, hfront⟩ := @receive_cons_malformed _ _ _ _ _ _ front _ hs h
        rw [hfront] at hlast
        cases hlast
  · exact hagrees.packets ▸ List.prefix_rfl

/-- The reader within the limit stops at a chunk that ends inside a value beyond it. -/
theorem limits_tooLarge {chunk : Bytes} {v : OpenValue} (hs : s.IsValid)
    (h : Yields noLimit s a (buffer ++ chunk) packets (.more t a' rest))
    (hwithin : Yields max s a (buffer ++ chunk) packets (.tooLarge v.length))
    (hv : a'.value = some v) (hlt : max < v.length) :
    Limits max (waiting max s a buffer) (waiting noLimit s a buffer) (chunk :: chunks) := by
  have hcuts : Cuts max (waiting noLimit s a buffer) (chunk :: chunks) := by
    refine cuts_cons_iff.2 (.inr ⟨[], List.nil_prefix, ?_⟩)
    rw [receive_cons_more hs h]
    exact isBeyond_waiting_iff.2 ⟨v, hv, hlt⟩
  refine ⟨?_, fun hnot => absurd hcuts hnot, ?_⟩
  · rw [receive_cons_tooLarge hs hwithin]
    exact ⟨fun _ => hcuts, fun _ => ⟨_, rfl⟩⟩
  · rw [receive_cons_tooLarge hs hwithin, receive_cons_more hs h]
    exact List.prefix_append _ _

/-- Readers that both wait go on. -/
theorem limits_more {chunk : Bytes} (hs : s.IsValid) (hfits : a.Fits max)
    (h : Yields noLimit s a (buffer ++ chunk) packets (.more t a' rest))
    (hwithin : Yields max s a (buffer ++ chunk) packets (.more t a' rest))
    (hlimits : Limits max (waiting max t a' rest) (waiting noLimit t a' rest) chunks) :
    Limits max (waiting max s a buffer) (waiting noLimit s a buffer) (chunk :: chunks) := by
  have hcuts : Cuts max (waiting noLimit s a buffer) (chunk :: chunks) ↔
      Cuts max (waiting noLimit t a' rest) chunks := by
    rw [cuts_cons_iff, or_iff_right (not_isBeyond_of_fits hfits)]
    simp only [receive_cons_more hs h]
    rfl
  refine ⟨?_, fun hnot => ?_, ?_⟩
  · rw [hcuts, ← hlimits.stopped, receive_cons_more hs hwithin]
  · obtain ⟨hpackets, hlast⟩ := hlimits.agrees (fun hc => hnot (hcuts.2 hc))
    rw [receive_cons_more hs hwithin, receive_cons_more hs h, hpackets]
    exact ⟨rfl, hlast⟩
  · rw [receive_cons_more hs hwithin, receive_cons_more hs h]
    exact (List.prefix_append_right_inj packets).2 hlimits.packets

/-- Of two readers that wait with the same bytes one has a limit. -/
theorem limits_waiting (h : Idle s a buffer) (hfits : a.Fits max) :
    Limits max (waiting max s a buffer) (waiting noLimit s a buffer) chunks := by
  induction chunks generalizing s a buffer with
  | nil => exact limits_nil hfits
  | cons chunk chunks ih =>
    obtain ⟨packets, ending, hyields⟩ := @exists_yields _ (buffer ++ chunk) noLimit a h.isValid
    -- the reader without a limit decides which of the cases this is
    have hwithin := hyields.within h.isValid hfits
    cases ending with
    | tooLarge length => exact absurd rfl (ne_tooLarge h.isValid hyields)
    | malformed cause => exact limits_malformed h.isValid hfits hyields hwithin
    | more t a' rest =>
      obtain ⟨hidle, -⟩ := hyields.idle h.isValid h.follows
      by_cases hbeyond : ∃ v, a'.value = some v ∧ max < v.length
      · obtain ⟨v, hv, hlt⟩ := hbeyond
        rw [within_of_lt hv hlt] at hwithin
        exact limits_tooLarge h.isValid hyields hwithin hv hlt
      · have hfits' : a'.Fits max := fun v hv =>
          Nat.le_of_not_lt fun hlt => hbeyond ⟨v, hv, hlt⟩
        rw [within_of_fits hfits'] at hwithin
        exact limits_more h.isValid hfits hyields hwithin (ih hidle hfits')

/-- Without a limit a stream gives the same in any chunks as in one piece. -/
theorem unlimited_agrees_flatten (mode : ModeBits) (chunks : List Bytes) :
    ((unlimited mode).receive chunks).Agrees ((unlimited mode).receive [chunks.flatten]) :=
  agrees_flatten_of_permits (.inr (Nat.le_of_eq rfl))

/-- Being beyond the limit is told by the end alone. -/
theorem isBeyond_of_sameEnd {last last' : Except ReaderError Reader} (h : SameEnd last last')
    (hbeyond : IsBeyond max last) : IsBeyond max last' := by
  obtain ⟨r, v, hlast, hv, hlt⟩ := hbeyond
  subst hlast
  cases h with
  | @waiting _ r' _ _ hincoming =>
    rw [hincoming] at hv
    exact ⟨r', v, rfl, hv, hlt⟩

/-- A stream stops a reader with a limit if, and only if, a chunk ends inside a value beyond the
    limit: the bytes up to there leave such a value open. Otherwise the reader gives all that is in
    the stream, values beyond the limit included; and if it is stopped it has given the first
    packets of the stream, among them those with values beyond the limit that came whole. -/
theorem receive_tooLarge_iff (mode : ModeBits) (max : Nat) (chunks : List Bytes) :
    ((∃ length, ((start mode max).receive chunks).last = .error (.valueTooLarge length max)) ↔
        ∃ front, front <+: chunks ∧ IsBeyond max ((unlimited mode).receive [front.flatten]).last) ∧
      ((¬ ∃ length, ((start mode max).receive chunks).last =
          .error (.valueTooLarge length max)) →
        ((start mode max).receive chunks).Agrees ((unlimited mode).receive [chunks.flatten])) ∧
      ((start mode max).receive chunks).packets <+:
        ((unlimited mode).receive [chunks.flatten]).packets := by
  have hlimits : Limits max (start mode max) (unlimited mode) chunks :=
    limits_waiting (idle_initial mode) Incoming.fits_empty
  -- Where a reader without a limit is behind the front does not depend on how this was cut.
  have hcuts : Cuts max (unlimited mode) chunks ↔
      ∃ front, front <+: chunks ∧ IsBeyond max ((unlimited mode).receive [front.flatten]).last := by
    constructor
    · rintro ⟨front, hfront, hbeyond⟩
      exact ⟨front, hfront, isBeyond_of_sameEnd (unlimited_agrees_flatten mode front).last hbeyond⟩
    · rintro ⟨front, hfront, hbeyond⟩
      exact ⟨front, hfront,
        isBeyond_of_sameEnd (unlimited_agrees_flatten mode front).symm.last hbeyond⟩
  have hflatten := unlimited_agrees_flatten mode chunks
  refine ⟨hlimits.stopped.trans hcuts, fun hnot => ?_, ?_⟩
  · have hagrees := hlimits.agrees fun hc => hnot (hlimits.stopped.2 hc)
    exact hagrees.trans hflatten
  · rw [← hflatten.packets]
    exact hlimits.packets

/-- A value of five bytes passes a limit of three if it comes whole, and does not if it is cut. -/
example :
    ((start {} 3).receive [Bytes.ofText "\n:_a 5\tabcde\n|\n"]).packets =
        [{ entity := [⟨.set, Bytes.ofText "_a", Bytes.ofText "abcde"⟩] }] ∧
      ((start {} 3).receive [Bytes.ofText "\n:_a 5\tab", Bytes.ofText "cde\n|\n"]).packets =
        [] := by
  decide +kernel

end PacketWire.Reader
