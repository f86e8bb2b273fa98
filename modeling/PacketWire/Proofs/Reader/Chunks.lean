import PacketWire.Proofs.Reader.Receive

namespace PacketWire.Reader

open Packet

/-!
# Streams in chunks

A stream gives the same packets and the same end in whatever chunks it comes, if no value in it can
be beyond the limit (`receive_agrees_flatten`).
-/

/-- The same end of two streams. The places of faults are counted from the start of a buffer, and
    may differ. -/
inductive SameEnd : Except ReaderError Reader → Except ReaderError Reader → Prop where
  /-- Both readers wait in the same state, with the same bytes. -/
  | waiting {r r' : Reader} :
      r.parser = r'.parser → r.buffer = r'.buffer → r.incoming = r'.incoming →
        SameEnd (.ok r) (.ok r')
  /-- Both have met the same fault. -/
  | malformed {f f' : Fault Cause} :
      f.cause = f'.cause → SameEnd (.error (.malformed f)) (.error (.malformed f'))
  /-- Both have met the same value that is too large. -/
  | tooLarge {length max : Nat} :
      SameEnd (.error (.valueTooLarge length max)) (.error (.valueTooLarge length max))

/-- The same packets, and the same end. -/
structure Reception.Agrees (x y : Reception) : Prop where
  /-- The packets are the same, in the same order. -/
  packets : x.packets = y.packets
  /-- The end is the same. -/
  last : SameEnd x.last y.last

/-- To end alike is symmetric. -/
theorem SameEnd.symm {last last' : Except ReaderError Reader} (h : SameEnd last last') :
    SameEnd last' last := by
  cases h with
  | waiting hparser hbuffer hincoming =>
    exact .waiting hparser.symm hbuffer.symm hincoming.symm
  | malformed hcause => exact .malformed hcause.symm
  | tooLarge => exact .tooLarge

/-- To end alike is transitive. -/
theorem SameEnd.trans {last last' last'' : Except ReaderError Reader} (h : SameEnd last last')
    (h' : SameEnd last' last'') : SameEnd last last'' := by
  cases h with
  | waiting hparser hbuffer hincoming =>
    cases h' with
    | waiting hparser' hbuffer' hincoming' =>
      exact .waiting (hparser.trans hparser') (hbuffer.trans hbuffer')
        (hincoming.trans hincoming')
  | malformed hcause =>
    cases h' with
    | malformed hcause' => exact .malformed (hcause.trans hcause')
  | tooLarge =>
    cases h' with
    | tooLarge => exact .tooLarge

/-- To agree is symmetric. -/
theorem Reception.Agrees.symm {x y : Reception} (h : x.Agrees y) : y.Agrees x :=
  ⟨h.packets.symm, h.last.symm⟩

/-- To agree is transitive. -/
theorem Reception.Agrees.trans {x y z : Reception} (h : x.Agrees y) (h' : y.Agrees z) :
    x.Agrees z := ⟨h.packets.trans h'.packets, h.last.trans h'.last⟩

variable {max : Nat} {s t : State} {a a' : Incoming} {input buffer rest : Bytes}
  {packets : List Received} {ending : Ending} {chunks : List Bytes}

/-! ### Readers that wait -/

/-- A reader waits, in a state, with a packet that is coming in and some bytes. -/
structure Idle (s : State) (a : Incoming) (buffer : Bytes) : Prop where
  /-- The state is one of a parser for whole packets. -/
  isValid : s.IsValid
  /-- A value is open only if the parser has one. -/
  follows : a.Follows s
  /-- The parser takes nothing. -/
  waits : step s buffer = .wait s 0

/-- No reader parses content by itself. -/
theorem ofBits_ne_contentOnly (mode : ModeBits) (length : Nat) :
    Mode.ofBits mode ≠ .contentOnly length := by
  unfold Mode.ofBits
  split <;> nofun

/-- A reader that has read nothing is idle. -/
theorem idle_initial (mode : ModeBits) : Idle (.initial (.ofBits mode)) {} [] where
  isValid := State.isValid_initial (ofBits_ne_contentOnly mode)
  follows := Incoming.follows_empty
  waits := by
    unfold Mode.ofBits
    split <;> rfl

/-- A reader that asks for more input waits. -/
theorem Yields.idle (hs : s.IsValid) (ha : a.Follows s)
    (h : Yields max s a input packets (.more t a' rest)) :
    Idle t a' rest ∧ rest.length ≤ input.length := by
  generalize hend : Ending.more t a' rest = ending₀ at h
  induction h with
  | malformed => cases hend
  | tooLarge => cases hend
  | @more s u a input n hstep =>
    cases hend
    obtain ⟨hu, hopen⟩ := hs.wait_of_step hstep
    obtain ⟨hle, hgo⟩ := (continues_step s input).wait hstep
    refine ⟨⟨hu, fun h => ha (fun hs => h (hopen.1 hs)), ?_⟩, by simp⟩
    -- the step is the same as the step behind its wait, so that takes nothing
    have hself := hgo []
    rw [List.append_nil, List.append_nil, hstep] at hself
    obtain ⟨k, hwait, hk⟩ := Step.shift_eq_wait_iff.1 hself.symm
    obtain rfl : k = 0 := by omega
    exact hwait
  | complete hstep _ ih =>
    obtain ⟨hidle, hle⟩ := ih (hs.sends_of_step hstep).isValid Incoming.follows_empty hend
    exact ⟨hidle, Nat.le_trans hle (by simp)⟩
  | unit hstep _ _ _ ih =>
    have hsends := hs.sends_of_step hstep
    obtain ⟨hidle, hle⟩ := ih hsends.isValid (ha.apply hsends) hend
    exact ⟨hidle, Nat.le_trans hle (by simp)⟩

/-! ### The end of a stream -/

/-- The end of a stream, from how reading ends. -/
inductive Shows (max : Nat) : Ending → Except ReaderError Reader → Prop where
  /-- The reader waits. -/
  | more {t : State} {a : Incoming} {rest : Bytes} :
      Shows max (.more t a rest) (.ok (waiting max t a rest))
  /-- The fault of the parser. -/
  | malformed {f : Fault Cause} : Shows max (.malformed f.cause) (.error (.malformed f))
  /-- The length of a value. -/
  | tooLarge {length : Nat} : Shows max (.tooLarge length) (.error (.valueTooLarge length max))

/-- What a run has come to tells its end, but for places. -/
theorem Shows.sameEnd {last last' : Except ReaderError Reader} (h : Shows max ending last)
    (h' : Shows max ending last') : SameEnd last last' := by
  cases h with
  | more => cases h'; exact .waiting rfl rfl rfl
  | tooLarge => cases h'; exact .tooLarge
  | @malformed f =>
    generalize hcause : f.cause = cause at h'
    cases h' with
    | malformed => exact .malformed hcause

/-- What a stream in chunks gives is what its bytes yield. -/
theorem receive_yields (h : Idle s a buffer)
    (hpermits : Permits max (buffer ++ chunks.flatten)) :
    ∃ ending, Yields max s a (buffer ++ chunks.flatten)
        ((waiting max s a buffer).receive chunks).packets ending ∧
      Shows max ending ((waiting max s a buffer).receive chunks).last := by
  induction chunks generalizing s a buffer with
  | nil =>
    rw [List.flatten_nil, List.append_nil]
    exact ⟨.more s a buffer, .more h.waits, .more⟩
  | cons chunk chunks ih =>
    rw [List.flatten_cons, ← List.append_assoc] at hpermits ⊢
    obtain ⟨packets, ending, hyields⟩ := @exists_yields _ (buffer ++ chunk) max a h.isValid
    -- the chunk ends the stream for the reader, or leaves one that waits for the other chunks
    cases ending with
    | more t a' rest =>
      obtain ⟨hidle, hle⟩ := hyields.idle h.isValid h.follows
      have hpermits' : Permits max (rest ++ chunks.flatten) :=
        hpermits.mono (by simp at hle ⊢; omega)
      obtain ⟨ending, hrest, hshows⟩ := ih hidle hpermits'
      rw [receive_cons_more h.isValid hyields]
      exact ⟨ending, hyields.append h.isValid h.follows hrest, hshows⟩
    | malformed cause =>
      obtain ⟨f, rfl, hreceive⟩ := @receive_cons_malformed _ _ _ _ _ _ chunks _ h.isValid hyields
      rw [hreceive]
      exact ⟨_, hyields.append_malformed h.isValid h.follows, .malformed⟩
    | tooLarge length =>
      rw [receive_cons_tooLarge h.isValid hyields]
      exact ⟨_, hyields.append_tooLarge h.isValid h.follows hpermits, .tooLarge⟩

/-- Chunks do not matter if no value in them can be beyond the limit. -/
theorem agrees_flatten_of_permits {mode : ModeBits} (h : Permits max chunks.flatten) :
    ((start mode max).receive chunks).Agrees ((start mode max).receive [chunks.flatten]) := by
  have hflatten : [chunks.flatten].flatten = chunks.flatten := by simp
  obtain ⟨ending, hyields, hshows⟩ := @receive_yields max _ _ [] chunks (idle_initial mode) h
  obtain ⟨ending', hyields', hshows'⟩ :=
    @receive_yields max _ _ [] [chunks.flatten] (idle_initial mode) (by rw [hflatten]; exact h)
  -- both yields are those of the same bytes
  rw [hflatten] at hyields'
  obtain ⟨hpackets, rfl⟩ := yields_unique hyields hyields'
  exact ⟨hpackets, hshows.sameEnd hshows'⟩

/-- A stream gives the same in any chunks as in one piece, if the limit is not below the length of
    the stream. -/
theorem receive_agrees_flatten (mode : ModeBits) (max : Nat) (chunks : List Bytes)
    (h : chunks.flatten.length ≤ max) :
    ((start mode max).receive chunks).Agrees ((start mode max).receive [chunks.flatten]) :=
  agrees_flatten_of_permits (.inl h)

/-- A packet whose value is cut gives the same as the packet in one piece. -/
theorem receive_agrees_cut_value :
    [Bytes.ofText "\n:_a 5\tab", Bytes.ofText "cde\n|\n"].flatten.length ≤ 15 ∧
      ((start {} 15).receive [Bytes.ofText "\n:_a 5\tab", Bytes.ofText "cde\n|\n"]).Agrees
        ((start {} 15).receive
          [[Bytes.ofText "\n:_a 5\tab", Bytes.ofText "cde\n|\n"].flatten]) :=
  ⟨by decide +kernel, receive_agrees_flatten {} 15 _ (by decide +kernel)⟩

end PacketWire.Reader
