import PacketWire.Proofs.Packet.Parses

namespace PacketWire.Packet

/-!
# The end of a packet

What a parser reads behind the modifiers of a packet: the closing line (`parses_closing_iff`), and
the method with the data in front of it (`body_of_parses`, `parses_body`). The bytes of the content
are counted all along, and have to be as many as the length line told (`State.Measures`).
-/

/-- The units of a method and its data. -/
def bodyUnits (method data : Bytes) : List Event :=
  if method.isEmpty then [] else [.body method data]

namespace State

/-- So many more bytes make up the content, if its length is told. -/
def Measures (s : State) (n : Nat) : Prop :=
  ∀ announced, s.announced = some announced → s.consumed + n = announced

variable {s : State} {text rest : Bytes} {es : List Event} {line : LineEnd} {n : Nat}

/-- What has been read is not missing any more. -/
theorem measures_consume {k : Nat} (h : s.Measures (k + n)) : (s.consume k).Measures n :=
  fun announced ha => (Nat.add_assoc ..).trans (h announced ha)

/-! ### The end -/

/-- A line feed that is owed comes first. -/
theorem parses_lineFeed_iff (ho : s.owed = .lineFeed line) :
    s.Parses text rest es ↔ ∃ text', text = Byte.lineFeed :: text' ∧
      Parses { s.consume 1 with owed := .nothing } text' rest es := by
  constructor
  · intro h
    cases h with
    | complete hreads => exact absurd hreads (not_reads_of_lineFeed ho)
    | unit _ hreads => exact absurd hreads (not_reads_of_lineFeed ho)
    | move hm h =>
      obtain ⟨rfl, rfl⟩ := hm.inv_lineFeed ho
      exact ⟨_, rfl, h⟩
  · rintro ⟨text', rfl, h⟩
    exact .move (.lineFeed ho) h

/-- The end is read just where the content has its length and the ending stands. -/
theorem parses_closing_iff (hpart : s.part = .closing) (ho : s.owed = .nothing) :
    s.Parses text rest es ↔ text = ending s.mode ∧ es = [] ∧ s.Measures 0 := by
  constructor
  · intro h
    cases h with
    | complete hreads =>
      obtain ⟨hexact, rfl, -, -⟩ := hreads.inv ho hpart
      exact ⟨rfl, rfl, hexact⟩
    | move hm =>
      exact (hm.inv ho hpart).elim
    | unit he hreads =>
      exact absurd (hreads.inv ho hpart).2.2.1 he
  · rintro ⟨rfl, rfl, hexact⟩
    exact .complete (.closing ho hpart hexact)

/-! ### The method and the data -/

/-- What is read from the method on is a body that is spelled. -/
theorem body_of_parses (h : s.Parses text rest es) (hmode : s.mode = .whole)
    (hpart : s.part = .method) (ho : s.owed = .nothing) :
    ∃ method data body, BodySpelled method data body ∧ s.Measures body.length ∧
      (s.announced = none → [Byte.pipe] ∉ Bytes.split Byte.lineFeed data) ∧
      text = body ++ closingLine ∧ es = bodyUnits method data := by
  have hending : ending s.mode = closingLine := by rw [hmode]; rfl
  have hunits : ∀ {method data : Bytes}, isKeyword method →
      [Event.body method data] = bodyUnits method data := fun hkey => by
    rw [bodyUnits, if_neg (by simpa using (isKeyword_iff.1 hkey).1)]
  cases h with
  | complete hreads =>
    obtain ⟨method, data, owed, -, hunit, -, -⟩ := hreads.inv ho hpart
    cases hunit
  | move hm h =>
    obtain ⟨rfl, rfl, -⟩ := hm.inv ho hpart
    obtain ⟨rfl, rfl, hexact⟩ := (parses_closing_iff (by rfl) (by exact ho)).1 h
    exact ⟨[], [], [], .absent, hexact, fun _ => by decide, hending, rfl⟩
  | unit he hreads h =>
    obtain ⟨method, data, owed, hkey, hunit, rfl, rfl⟩ := hreads.inv ho hpart
    -- the bytes behind the unit are those that are parsed then
    generalize hbehind : _ ++ rest = behind at hunit
    cases hunit with
    | lines hann hu =>
      obtain ⟨rfl, rfl, -⟩ := (parses_closing_iff (by rfl) (by rfl)).1 h
      have hmeasure : ∀ n, s.Measures n := fun n announced ha => by rw [hann] at ha; cases ha
      by_cases hne : data = []
      · subst hne
        exact ⟨method, [], _, .method hkey, hmeasure _, fun _ => by decide, by rw [← hending]; rfl,
          hunits hkey⟩
      · obtain ⟨front, rfl⟩ := hu.eq_append hne
        refine ⟨method, front, _, .data hkey, hmeasure _, fun _ => unclosed_lineFeed_iff.1 hu,
          ?_, ?_⟩
        · rw [← hending]
          simp [consume]
        · rw [List.dropLast_concat]
          exact hunits hkey
    | bare hann =>
      obtain ⟨rfl, rfl, hexact⟩ := (parses_closing_iff (by rfl) (by rfl)).1 h
      refine ⟨method, [], _, .method hkey, fun announced ha => ?_, fun hnone => ?_,
        by rw [← hending]; rfl, hunits hkey⟩
      · have hsum := hexact announced ha
        simpa [consume] using hsum
      · rw [hann] at hnone
        cases hnone
    | counted hann =>
      obtain ⟨text', rfl, h'⟩ := (parses_lineFeed_iff (by rfl)).1 h
      obtain ⟨rfl, rfl, hexact⟩ := (parses_closing_iff (by rfl) (by rfl)).1 h'
      refine ⟨method, data, _, .data hkey, fun announced ha => ?_, fun hnone => ?_, ?_,
        hunits hkey⟩
      · have hsum := hexact announced ha
        simp only [consume, List.length_append, List.length_cons, List.length_nil] at hsum ⊢
        omega
      · rw [hann] at hnone
        cases hnone
      · rw [← hending]
        simp [consume]
    -- nothing is behind a value that was cut, so there is no end of the packet
    | opening hann hlt =>
      obtain ⟨rfl, rfl⟩ := List.append_eq_nil_iff.1 hbehind
      exact absurd h (not_parses_of_open ⟨_, _, rfl⟩)

/-- A body that is spelled is read. -/
theorem parses_body {method data body : Bytes} (hpart : s.part = .method) (ho : s.owed = .nothing)
    (hbody : BodySpelled method data body) (hmeasure : s.Measures body.length)
    (hlines : s.announced = none → [Byte.pipe] ∉ Bytes.split Byte.lineFeed data)
    (hending : s.announced = none ∨ body = [] → ending s.mode = closingLine) :
    s.Parses (body ++ ending s.mode) rest (bodyUnits method data) := by
  have hunits : ∀ {method data : Bytes}, isKeyword method →
      bodyUnits method data = [Event.body method data] := fun hkey => by
    rw [bodyUnits, if_neg (by simpa using (isKeyword_iff.1 hkey).1)]
  cases hbody with
  | absent =>
    have hclosing := hending (.inr rfl)
    rw [hclosing]
    refine .skip (@Moves.method _ Byte.pipe _ ho hpart (by decide)) ?_
    exact (parses_closing_iff (by rfl) (by exact ho)).2 ⟨hclosing.symm, rfl, hmeasure⟩
  | method hkey =>
    rw [hunits hkey]
    cases hann : s.announced with
    | none =>
      have hclosing := hending (.inl hann)
      rw [hclosing]
      refine .unit nofun (.body ho hpart hkey (.lines hann .nil)) ?_
      refine (parses_closing_iff (by rfl) (by rfl)).2 ⟨hclosing.symm, rfl, fun announced ha => ?_⟩
      exact absurd (hann.symm.trans ha) nofun
    | some announced =>
      have hsum := hmeasure announced hann
      have hannounced : s.announced = some (s.consumed + method.length + 1) := by
        rw [hann, ← hsum, List.length_append]
        rfl
      refine .unit nofun (.body ho hpart hkey (.bare hannounced)) ?_
      exact (parses_closing_iff (by rfl) (by rfl)).2 ⟨rfl, rfl, hmeasure⟩
  | data hkey =>
    rw [hunits hkey]
    cases hann : s.announced with
    | none =>
      have hclosing := hending (.inl hann)
      have hu : Unclosed (data ++ [Byte.lineFeed]) := unclosed_lineFeed_iff.2 (hlines hann)
      -- the data goes up to the last line feed, which is not reported
      have hunit : BodyUnit s method (data ++ [Byte.lineFeed]) (closingLine ++ rest)
          (.body method data) .nothing := by
        have hlines := @BodyUnit.lines s method _ rest hann hu
        rwa [List.dropLast_concat] at hlines
      have htext : method ++ Byte.lineFeed :: data ++ [Byte.lineFeed] ++ closingLine =
          method ++ Byte.lineFeed :: (data ++ [Byte.lineFeed]) ++ closingLine := by simp
      rw [hclosing, htext]
      refine .unit nofun (.body ho hpart hkey hunit) ?_
      refine (parses_closing_iff (by rfl) (by rfl)).2 ⟨hclosing.symm, rfl, fun announced ha => ?_⟩
      exact absurd (hann.symm.trans ha) nofun
    | some announced =>
      have hsum := hmeasure announced hann
      have hannounced : s.announced =
          some (s.consumed + method.length + data.length + 2) := by
        rw [hann, ← hsum]
        simp
        omega
      rw [List.append_assoc]
      refine .unit nofun (.body ho hpart hkey (.counted hannounced)) ?_
      refine (parses_lineFeed_iff (by rfl)).2 ⟨ending s.mode, rfl, ?_⟩
      refine (parses_closing_iff (by rfl) (by rfl)).2 ⟨rfl, rfl, fun announced' ha => ?_⟩
      have hsum' := hmeasure announced' ha
      simp only [consume, List.length_append, List.length_cons, List.length_nil] at hsum' ⊢
      omega

end State

end PacketWire.Packet
