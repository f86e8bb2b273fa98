import PacketWire.Proofs.Packet.Steps
import PacketWire.Proofs.Resumable.Calls

namespace PacketWire.Packet

/-!
# Packets, move by move

The text from a state to the end of the packet is made of moves and units (`State.Parses`). The
calls of a parser that reach the end of a packet read exactly such a text (`finishes_iff`).
-/

/-- From a state on, a text is read up to the end of the packet, with these units. -/
inductive State.Parses : State → Bytes → Bytes → List Event → Prop where
  /-- The end of the packet. -/
  | complete {s t : State} {text rest : Bytes} :
      s.Reads text rest .complete t → Parses s text rest []
  /-- A move. -/
  | move {s t : State} {text text' rest : Bytes} {es : List Event} :
      s.Moves text (text' ++ rest) t → Parses t text' rest es → Parses s (text ++ text') rest es
  /-- A unit. -/
  | unit {s t : State} {text text' rest : Bytes} {e : Event} {es : List Event} :
      e ≠ .complete → s.Reads text (text' ++ rest) e t → Parses t text' rest es →
        Parses s (text ++ text') rest (e :: es)

namespace State

variable {s t : State} {input text text' rest rest' : Bytes} {e : Event} {es es' : List Event}

/-- A move that takes nothing. -/
theorem Parses.skip (hm : s.Moves [] (text ++ rest) t) (h : t.Parses text rest es) :
    s.Parses text rest es := .move hm h

/-- Moves may stand in front of what is read. -/
theorem Parses.of_goesTo {front : Bytes} (hgo : s.GoesTo front (text ++ rest) t)
    (h : t.Parses text rest es) : s.Parses (front ++ text) rest es := by
  generalize hi : text ++ rest = input at hgo
  induction hgo with
  | here => exact h
  | @move s u t line front _ hm _ ih =>
    subst hi
    rw [List.append_assoc]
    rw [← List.append_assoc] at hm
    exact .move hm (ih h rfl)

/-- What a step reads is in front of what is parsed behind it. -/
theorem Does.parses {n : Nat} (h : s.Does input (.emit e t n)) :
    ∃ front behind, input = front ++ behind ∧ n = front.length ∧
      (e = .complete → s.Parses front behind []) ∧
      (e ≠ .complete → ∀ {text rest es}, behind = text ++ rest → t.Parses text rest es →
        s.Parses (front ++ text) rest (e :: es)) := by
  obtain ⟨front, line, behind, u, hgo, hreads, rfl, rfl⟩ := h.exists_reads
  refine ⟨front ++ line, behind, rfl, rfl, ?_, ?_⟩
  · rintro rfl
    exact .of_goesTo hgo (.complete hreads)
  · rintro he text rest es rfl h
    rw [← List.append_assoc] at hgo
    rw [List.append_assoc]
    exact .of_goesTo hgo (.unit he hreads h)

/-- With no more units, the next step completes the packet. -/
theorem parses_nil_iff :
    s.Parses text rest [] ↔ ∃ t, step s (text ++ rest) = .emit .complete t text.length := by
  constructor
  · intro h
    generalize hes : ([] : List Event) = es at h
    induction h with
    | complete hreads => exact ⟨_, step_of_reads hreads⟩
    | unit => cases hes
    | @move s u front behind rest es hm _ ih =>
      obtain ⟨t, ht⟩ := ih hes
      refine ⟨t, ?_⟩
      rw [List.append_assoc, step_of_moves hm, ht, List.length_append]
      rfl
  · rintro ⟨t, ht⟩
    have hdoes := does_step s (text ++ rest)
    rw [ht] at hdoes
    obtain ⟨front, behind, hi, hn, hcomplete, -⟩ := hdoes.parses
    obtain ⟨rfl, rfl⟩ := List.append_inj hi hn
    exact hcomplete rfl

/-- With more units, the next step gives the first of them. -/
theorem parses_cons_iff :
    s.Parses text rest (e :: es) ↔
      e ≠ .complete ∧ ∃ t front behind, text = front ++ behind ∧
        step s (text ++ rest) = .emit e t front.length ∧ t.Parses behind rest es := by
  constructor
  · intro h
    generalize hes : e :: es = es' at h
    -- On the way to read it: moves in front of the first unit are made in the same step.
    induction h with
    | complete => cases hes
    | @unit s t front behind rest e' es' he hreads h =>
      cases hes
      refine ⟨he, t, front, behind, rfl, ?_, h⟩
      rw [List.append_assoc]
      exact step_of_reads hreads
    | @move s u first text' rest es' hm _ ih =>
      obtain ⟨he, t, front, behind, rfl, ht, h⟩ := ih hes
      refine ⟨he, t, first ++ front, behind, (List.append_assoc ..).symm, ?_, h⟩
      rw [List.append_assoc, step_of_moves hm, ht, List.length_append]
      rfl
  · rintro ⟨he, t, front, behind, rfl, ht, h⟩
    -- The step is taken apart into moves and a unit again.
    have hdoes := does_step s (front ++ behind ++ rest)
    rw [ht] at hdoes
    obtain ⟨front', behind', hi, hn, -, hunit⟩ := hdoes.parses
    rw [List.append_assoc] at hi
    obtain ⟨rfl, rfl⟩ := List.append_inj hi hn
    exact hunit he rfl h

/-- No packet is complete while a value is open. -/
theorem not_parses_of_open (ho : s.HasOpen) : ¬ s.Parses [] [] es := by
  intro h
  have hstep := step_nil_of_open ho
  cases es with
  | nil =>
    obtain ⟨t, ht⟩ := parses_nil_iff.1 h
    rw [List.append_nil, hstep] at ht
    cases ht
  | cons e es =>
    obtain ⟨-, t, front, behind, -, ht, -⟩ := parses_cons_iff.1 h
    rw [List.append_nil, hstep] at ht
    cases ht

/-- There is one way to read a packet. -/
theorem parses_unique (h : s.Parses text rest es) (h' : s.Parses text' rest' es')
    (hi : text ++ rest = text' ++ rest') : text = text' ∧ es = es' := by
  -- On the units: a step is what it is, so both ways start with the same unit or with the end.
  induction es generalizing s text text' es' with
  | nil =>
    obtain ⟨t, ht⟩ := parses_nil_iff.1 h
    rw [hi] at ht
    cases es' with
    | nil =>
      obtain ⟨t', ht'⟩ := parses_nil_iff.1 h'
      rw [ht] at ht'
      injection ht' with _ _ hn
      exact ⟨(List.append_inj hi hn).1, rfl⟩
    | cons e' es' =>
      obtain ⟨he', t', front, behind, rfl, ht', -⟩ := parses_cons_iff.1 h'
      rw [ht] at ht'
      injection ht' with he
      exact absurd he.symm he'
  | cons e es ih =>
    obtain ⟨he, t, front, behind, rfl, ht, hbehind⟩ := parses_cons_iff.1 h
    rw [hi] at ht
    cases es' with
    | nil =>
      obtain ⟨t', ht'⟩ := parses_nil_iff.1 h'
      rw [ht] at ht'
      injection ht' with he'
      exact absurd he' he
    | cons e' es' =>
      obtain ⟨he', t', front', behind', rfl, ht', hbehind'⟩ := parses_cons_iff.1 h'
      rw [ht] at ht'
      injection ht' with he' ht' hn
      subst he' ht'
      rw [List.append_assoc, List.append_assoc] at hi
      obtain ⟨rfl, hrest⟩ := List.append_inj hi hn
      obtain ⟨rfl, rfl⟩ := ih hbehind hbehind' hrest
      exact ⟨rfl, rfl⟩

end State

/-! ### Calls of a parser -/

variable {s : State} {buffer : Bytes} {e : Event} {es : List Event} {c : Nat}

/-- Calls that give units and then the end of a packet read a text up to the end of the packet. -/
theorem reads_iff (hc : c ≤ buffer.length) {last : Nat} :
    ((∀ e ∈ es, e ≠ .complete) ∧ ∃ q : Parser machine,
        Parser.Reads buffer ⟨s, c⟩ (es ++ [.complete]) q ∧ q.cursor = last) ↔
      ∃ text rest, buffer.drop c = text ++ rest ∧ last = c + text.length ∧
        s.Parses text rest es := by
  induction es generalizing s c with
  | nil =>
    rw [List.nil_append, and_iff_right (by simp)]
    constructor
    · rintro ⟨q, hreads, rfl⟩
      obtain ⟨r, hparse, hnil⟩ := Parser.reads_cons_iff.1 hreads
      obtain rfl := Parser.reads_nil_iff.1 hnil
      obtain ⟨t, n, hstep, rfl⟩ := (Parser.parse_eq_event_iff hc).1 hparse
      -- the text is what the last step takes
      have hle := (continues_step _ _).used_le hstep
      have htake : ((buffer.drop c).take n).length = n := by simp at hle ⊢; omega
      refine ⟨(buffer.drop c).take n, (buffer.drop c).drop n, (List.take_append_drop ..).symm,
        by rw [htake], State.parses_nil_iff.2 ⟨t, ?_⟩⟩
      rw [List.take_append_drop, htake]
      exact hstep
    · rintro ⟨text, rest, hdrop, rfl, h⟩
      obtain ⟨t, hstep⟩ := State.parses_nil_iff.1 h
      rw [← hdrop] at hstep
      refine ⟨⟨t, c + text.length⟩, Parser.reads_cons_iff.2 ⟨_, ?_, .refl _⟩, rfl⟩
      exact (Parser.parse_eq_event_iff hc).2 ⟨t, text.length, hstep, rfl⟩
  | cons e es ih =>
    constructor
    · rintro ⟨hne, q, hreads, rfl⟩
      obtain ⟨r, hparse, hmore⟩ := Parser.reads_cons_iff.1 hreads
      obtain ⟨t, n, hstep, rfl⟩ := (Parser.parse_eq_event_iff hc).1 hparse
      have hle := (continues_step _ _).used_le hstep
      have hc' : c + n ≤ buffer.length := by simp at hle; omega
      have htake : ((buffer.drop c).take n).length = n := by simp at hle ⊢; omega
      obtain ⟨text, rest, hdrop, hlast, h⟩ :=
        (ih hc').1 ⟨fun e' he' => hne e' (List.mem_cons_of_mem _ he'), q, hmore, rfl⟩
      -- the first unit's text, and then what the calls behind it read
      have hsplit : buffer.drop c = (buffer.drop c).take n ++ text ++ rest := by
        rw [List.append_assoc, ← hdrop, ← List.drop_drop, List.take_append_drop]
      refine ⟨(buffer.drop c).take n ++ text, rest, hsplit, ?_, State.parses_cons_iff.2 ?_⟩
      · rw [List.length_append, htake, hlast]
        omega
      · refine ⟨hne e List.mem_cons_self, t, _, text, rfl, ?_, h⟩
        rw [← hsplit, htake]
        exact hstep
    · rintro ⟨text, rest, hdrop, rfl, h⟩
      obtain ⟨he, t, front, behind, rfl, hstep, h⟩ := State.parses_cons_iff.1 h
      rw [← hdrop] at hstep
      have hlength := congrArg List.length hdrop
      have hc' : c + front.length ≤ buffer.length := by simp at hlength; omega
      have hdrop' : buffer.drop (c + front.length) = behind ++ rest := by
        rw [← List.drop_drop, hdrop, List.append_assoc, List.drop_left]
      obtain ⟨hne, q, hreads, hq⟩ := (ih hc').2
        ⟨behind, rest, hdrop', by rw [List.length_append]; omega, h⟩
      refine ⟨?_, q, Parser.reads_cons_iff.2 ⟨_, ?_, hreads⟩, ?_⟩
      · intro e' he'
        rcases List.mem_cons.1 he' with rfl | he'
        · exact he
        · exact hne e' he'
      · exact (Parser.parse_eq_event_iff hc).2 ⟨t, front.length, hstep, rfl⟩
      · exact hq

/-- Only the end of a packet is final. -/
theorem isFinal_eq_true_iff : machine.isFinal e = true ↔ e = .complete := by
  show (e == .complete) = true ↔ _
  exact beq_iff_eq

/-- A parser of whole buffers finishes a packet where it parses the text up to the cursor. -/
theorem finishes_iff {mode : Mode} {last : Nat} :
    (∃ q : Parser machine, Parser.Finishes buffer (parser mode) es .complete q ∧ q.cursor = last) ↔
      ∃ text rest, buffer = text ++ rest ∧ last = text.length ∧
        (State.initial mode).Parses text rest es := by
  have hreads := @reads_iff (.initial mode) buffer es 0 (Nat.zero_le _) last
  simp only [List.drop_zero, Nat.zero_add] at hreads
  rw [← hreads]
  constructor
  · rintro ⟨q, ⟨hne, -, hq⟩, hlast⟩
    refine ⟨fun e he hcomplete => ?_, q, hq, hlast⟩
    have hfinal := isFinal_eq_true_iff.2 hcomplete
    rw [hne e he] at hfinal
    cases hfinal
  · rintro ⟨hne, q, hq, hlast⟩
    refine ⟨q, ⟨fun e he => ?_, isFinal_eq_true_iff.2 rfl, hq⟩, hlast⟩
    exact Bool.eq_false_iff.2 fun hfinal => hne e he (isFinal_eq_true_iff.1 hfinal)

/-- The first packet of a buffer ends at one place. -/
theorem finishes_unique {mode : Mode} {es' : List Event} {q q' : Parser machine}
    (h : Parser.Finishes buffer (parser mode) es .complete q)
    (h' : Parser.Finishes buffer (parser mode) es' .complete q') : q.cursor = q'.cursor := by
  obtain ⟨text, rest, hi, hn, hparses⟩ := finishes_iff.1 ⟨q, h, rfl⟩
  obtain ⟨text', rest', hi', hn', hparses'⟩ := finishes_iff.1 ⟨q', h', rfl⟩
  obtain ⟨rfl, -⟩ := State.parses_unique hparses hparses' (hi.symm.trans hi')
  rw [hn, hn']

end PacketWire.Packet
