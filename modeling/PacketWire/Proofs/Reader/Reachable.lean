import PacketWire.Proofs.Reader.Limit
import PacketWire.Proofs.Reader.Streams

namespace PacketWire

/-!
# What a reader can come to

A reader is fed, and asked for packets, in any order (`Reader.Reachable`). The bytes that it has
read of a packet are dropped, but what the bytes ahead yield is still what some bytes yield from the
start of a packet on (`Reader.Tracks`). So every packet that a reader ever gives is one that a
parser reads off some text in one go (`Reader.Reachable.exists_parses`).
-/

namespace Packet.State

variable {s : State} {input : Bytes} {r : Step State Event Cause}

/-- What a step keeps to: the mode, and behind the end of a packet the start of the next one. -/
def KeepsTo (s : State) : Step State Event Cause → Prop
  | .emit e t _ => t.mode = s.mode ∧ (e = .complete → t = .initial s.mode)
  | .wait t _ => t.mode = s.mode
  | .fault _ => True

/-- What a step does leads to a state of the same packet. -/
theorem Does.keepsTo (h : s.Does input r) : s.KeepsTo r := by
  induction h with
  | unit h =>
    refine ⟨h.mode_eq, fun he => ?_⟩
    subst he
    exact h.eq_initial
  | wait => exact rfl
  | fault => trivial
  | @move s t _ _ r hm _ ih =>
    have hmode := hm.mode_eq
    cases r with
    | fault f => trivial
    | wait u n => exact Eq.trans ih hmode
    | emit e u n =>
      obtain ⟨hu, hcomplete⟩ := ih
      rw [hmode] at hu hcomplete
      exact ⟨hu, hcomplete⟩

/-- A step never changes the mode. -/
theorem keepsTo_step (s : State) (input : Bytes) : s.KeepsTo (step s input) :=
  (does_step s input).keepsTo

/-- A call that gives a unit keeps to the same. -/
theorem keepsTo_parse {p q : Parser machine} {buffer : Bytes} {e : Event}
    (h : p.parse buffer = (.event e, q)) :
    q.state.mode = p.state.mode ∧ (e = .complete → q.state = .initial p.state.mode) := by
  obtain ⟨input, n, hstep⟩ := Parser.exists_step_of_event h
  have hkeeps := keepsTo_step p.state input
  have hgiven : step p.state input = .emit e q.state n := hstep
  rwa [hgiven] at hkeeps

end Packet.State

namespace Reader

open Packet

/-- The readers for a mode and a limit that are reached by feeding bytes and asking for packets. -/
inductive Reachable (mode : ModeBits) (max : Nat) : Reader → Prop where
  /-- A reader at the start of a stream. -/
  | start : Reachable mode max (start mode max)
  /-- More bytes. -/
  | feed {r : Reader} (bytes : Bytes) : Reachable mode max r → Reachable mode max (r.feed bytes)
  /-- A call for the next packet, whatever it gives. -/
  | next {r : Reader} : Reachable mode max r → Reachable mode max r.next.2

variable {mode : ModeBits} {max : Nat} {s t : State} {a a' : Incoming} {input buffer rest : Bytes}
  {p : Received} {packets : List Received} {ending : Ending} {r r' : Reader}

/-! ### Starting over -/

/-- Where a call leaves a reader that does not wait: at the start of a packet, and behind a fault
    without any bytes. -/
def StartsOver (mode : Mode) (max : Nat) : Result × Reader → Prop
  | (.ok none, _) => True
  | (.ok (some _), r) => ∃ rest, r = waiting max (.initial mode) {} rest
  | (.error _, r) => r = waiting max (.initial mode) {} []

/-- After however many calls, the reader has started over or goes on. -/
theorem startsOver_nextWithin (r : Reader) (calls : Nat) :
    StartsOver r.parser.state.mode r.maxValue (r.nextWithin calls) := by
  -- On the calls that are left: a unit that goes into the packet leaves mode and limit as they are.
  induction calls generalizing r with
  | zero => trivial
  | succ calls ih =>
    rw [nextWithin_succ]
    have hturns := turns_turn r
    generalize r.turn = given at hturns
    cases hturns with
    | more => trivial
    | malformed hparse =>
      obtain rfl := Parser.eq_reset_of_fault hparse
      exact rfl
    | @complete q hparse =>
      refine ⟨r.buffer.drop q.cursor, ?_⟩
      rw [← (State.keepsTo_parse hparse).2 rfl]
      rfl
    | tooLarge hparse =>
      rw [← (State.keepsTo_parse hparse).1]
      exact rfl
    | unit hparse =>
      rw [← (State.keepsTo_parse hparse).1]
      exact ih _

/-! ### The packet that is yielded first -/

/-- Reading stays in the mode. -/
theorem Yields.mode_eq (h : Yields max s a input packets (.more t a' rest)) :
    t.mode = s.mode := by
  generalize hend : Ending.more t a' rest = ending at h
  induction h with
  | @more s u a input n hstep =>
    cases hend
    have hkeeps := State.keepsTo_step s input
    rw [hstep] at hkeeps
    exact hkeeps
  | malformed => cases hend
  | tooLarge => cases hend
  | @complete s u a input n packets ending hstep _ ih =>
    have hkeeps := State.keepsTo_step s input
    rw [hstep] at hkeeps
    exact (ih hend).trans hkeeps.1
  | @unit s u a input e n packets ending hstep _ _ _ ih =>
    have hkeeps := State.keepsTo_step s input
    rw [hstep] at hkeeps
    exact (ih hend).trans hkeeps.1

/-- The first packet that is yielded is put together from the units of a text in front. -/
theorem Yields.exists_parses (h : Yields max s a input (p :: packets) ending) :
    ∃ text rest es, input = text ++ rest ∧ s.Parses text rest es ∧
      p = (es.foldl Incoming.apply a).packet := by
  generalize hps : p :: packets = ps at h
  induction h with
  | more => cases hps
  | malformed => cases hps
  | tooLarge => cases hps
  | @complete s t a input n ps ending hstep _ _ =>
    cases hps
    have hn : (input.take n).length = n :=
      List.length_take_of_le ((continues_step s input).used_le hstep)
    refine ⟨input.take n, input.drop n, [], (List.take_append_drop ..).symm,
      State.parses_nil_iff.2 ⟨t, ?_⟩, rfl⟩
    rw [List.take_append_drop, hn]
    exact hstep
  | @unit s t a input e n ps ending hstep hne _ _ ih =>
    have hn : (input.take n).length = n :=
      List.length_take_of_le ((continues_step s input).used_le hstep)
    obtain ⟨text, rest, es, hdrop, hparses, rfl⟩ := ih hps
    -- the text of the unit, and then what is read behind it
    have hinput : input = input.take n ++ text ++ rest := by
      rw [List.append_assoc, ← hdrop, List.take_append_drop]
    refine ⟨input.take n ++ text, rest, e :: es, hinput,
      State.parses_cons_iff.2 ⟨hne, t, input.take n, text, rfl, ?_, hparses⟩, rfl⟩
    rw [← hinput, hn]
    exact hstep

/-! ### The start of the packet -/

/-- How a reader waits for a mode and with a limit: in a state, with a packet that is coming in and
    some bytes. -/
structure Tracks (mode : ModeBits) (max : Nat) (s : State) (a : Incoming) (buffer : Bytes) :
    Prop where
  /-- The state is one of a parser for whole packets. -/
  isValid : s.IsValid
  /-- It is one of a parser for the mode. -/
  mode_eq : s.mode = .ofBits mode
  /-- A value is open only if the parser has one. -/
  follows : a.Follows s
  /-- An open value is within the limit. -/
  fits : a.Fits max
  /-- What the bytes ahead yield is what some bytes yield from the start of a packet on. -/
  exists_stream : ∃ stream, ∀ {more packets ending},
    Yields noLimit s a (buffer ++ more) packets ending →
      Yields noLimit (.initial (.ofBits mode)) {} (stream ++ more) packets ending

/-- A new reader has read nothing of any packet. -/
theorem tracks_initial (mode : ModeBits) (max : Nat) (buffer : Bytes) :
    Tracks mode max (.initial (.ofBits mode)) {} buffer where
  isValid := (idle_initial mode).isValid
  mode_eq := rfl
  follows := Incoming.follows_empty
  fits := Incoming.fits_empty
  exists_stream := ⟨buffer, fun {_ _ _} h => h⟩

/-- What is fed comes behind what has been read. -/
theorem Tracks.feed (h : Tracks mode max s a buffer) (bytes : Bytes) :
    Tracks mode max s a (buffer ++ bytes) := by
  obtain ⟨stream, hstream⟩ := h.exists_stream
  refine { h with exists_stream := ⟨stream ++ bytes, fun {_ _ _} hyields => ?_⟩ }
  rw [List.append_assoc] at hyields ⊢
  exact hstream hyields

/-- What is yielded within the limit is yielded without it, but for the end. -/
theorem Tracks.yields_noLimit (h : Tracks mode max s a buffer)
    (hyields : Yields max s a buffer packets ending) :
    ∃ ending', Yields noLimit s a buffer packets ending' ∧ ending'.within max = ending := by
  obtain ⟨packets', ending', hno⟩ := exists_yields noLimit a h.isValid
  obtain ⟨rfl, rfl⟩ := yields_unique (hno.within h.isValid h.fits) hyields
  exact ⟨ending', hno, rfl⟩

/-- Where reading waits within the limit, it waits there without it, and the value that is open is
    within the limit. -/
theorem eq_more_of_within (h : ending.within max = .more t a rest) :
    ending = .more t a rest ∧ a.Fits max := by
  cases ending with
  | malformed cause => cases h
  | tooLarge length => cases h
  | more u a' rest' =>
    by_cases hbeyond : ∃ v, a'.value = some v ∧ max < v.length
    · obtain ⟨v, hv, hlt⟩ := hbeyond
      rw [within_of_lt hv hlt] at h
      cases h
    · have hfits : a'.Fits max := fun v hv => Nat.le_of_not_lt fun hlt => hbeyond ⟨v, hv, hlt⟩
      rw [within_of_fits hfits] at h
      cases h
      exact ⟨rfl, hfits⟩

/-- A reader that waits for more input has dropped what it has read, and still tracks it. -/
theorem Tracks.waits (h : Tracks mode max s a buffer)
    (hyields : Yields max s a buffer [] (.more t a' rest)) : Tracks mode max t a' rest := by
  obtain ⟨ending, hno, hwithin⟩ := h.yields_noLimit hyields
  obtain ⟨rfl, hfits⟩ := eq_more_of_within hwithin
  obtain ⟨hidle, -⟩ := hyields.idle h.isValid h.follows
  obtain ⟨stream, hstream⟩ := h.exists_stream
  exact
    { isValid := hidle.isValid
      mode_eq := hyields.mode_eq.trans h.mode_eq
      follows := hidle.follows
      fits := hfits
      exists_stream := ⟨stream, fun {_ _ _} hmore =>
        hstream (hno.append h.isValid h.follows hmore)⟩ }

/-- A call leads from a reader that tracks its packet to another one. -/
theorem Tracks.next (h : Tracks mode max s a buffer) :
    ∃ t a' rest, (waiting max s a buffer).next.2 = waiting max t a' rest ∧
      Tracks mode max t a' rest := by
  obtain ⟨packets, ending, hyields⟩ := @exists_yields _ buffer max a h.isValid
  have hgives : Gives max buffer.length ((waiting max s a buffer).next) packets ending :=
    nextWithin_of_yields h.isValid hyields List.drop_zero (Nat.zero_le _) (Nat.lt_succ_self _)
  have hstarts : StartsOver s.mode max ((waiting max s a buffer).next) :=
    startsOver_nextWithin _ _
  rw [h.mode_eq] at hstarts
  generalize (waiting max s a buffer).next = answer at hgives hstarts
  cases hgives with
  | packet =>
    obtain ⟨rest, hr⟩ := hstarts
    exact ⟨_, _, rest, hr, tracks_initial mode max rest⟩
  | ends hends =>
    cases hends with
    | more => exact ⟨_, _, _, rfl, h.waits hyields⟩
    | malformed => exact ⟨_, _, [], hstarts, tracks_initial mode max []⟩
    | tooLarge => exact ⟨_, _, [], hstarts, tracks_initial mode max []⟩

/-- Every reader that can be come to has read the beginning of a packet. -/
theorem Reachable.tracks (h : Reachable mode max r) :
    ∃ s a buffer, r = waiting max s a buffer ∧ Tracks mode max s a buffer := by
  induction h with
  | start => exact ⟨_, _, [], rfl, tracks_initial mode max []⟩
  | feed bytes _ ih =>
    obtain ⟨s, a, buffer, rfl, htracks⟩ := ih
    exact ⟨s, a, _, rfl, htracks.feed bytes⟩
  | next _ ih =>
    obtain ⟨s, a, buffer, rfl, htracks⟩ := ih
    exact htracks.next

/-- A packet that a reader gives is put together from the units of some text, which is read from the
    start of a packet to its end. -/
theorem Reachable.exists_parses (h : Reachable mode max r) (hnext : r.next = (.ok (some p), r')) :
    ∃ text rest es, (State.initial (.ofBits mode)).Parses text rest es ∧
      p = (es.foldl Incoming.apply {}).packet := by
  obtain ⟨s, a, buffer, rfl, htracks⟩ := h.tracks
  obtain ⟨packets, ending, hyields⟩ := @exists_yields _ buffer max a htracks.isValid
  have hgives : Gives max buffer.length ((waiting max s a buffer).next) packets ending :=
    nextWithin_of_yields htracks.isValid hyields List.drop_zero (Nat.zero_le _)
      (Nat.lt_succ_self _)
  rw [hnext] at hgives
  cases hgives with
  | ends hends => cases hends
  | packet =>
    obtain ⟨ending', hno, -⟩ := htracks.yields_noLimit hyields
    obtain ⟨stream, hstream⟩ := htracks.exists_stream
    rw [← List.append_nil buffer] at hno
    obtain ⟨text, rest, es, -, hparses, hp⟩ := (hstream hno).exists_parses
    exact ⟨text, rest, es, hparses, hp⟩

end Reader

end PacketWire
