import PacketWire.Spelling.Values
import PacketWire.Proofs.Element

namespace PacketWire.Element

open Scan

/-!
# Elements that are there as a whole

An element is found as a whole where a way to write it stands in front of a delimiter or of the end
of the input, and nowhere else (`scan_eq_whole_iff`). The type, the length, the space and the value
are scanned one after the other, and each is told apart from what may stand behind it.
-/

variable {κ : Type} {form : Form κ} {input type value text rest : Bytes} {n length : Nat}
  {head head' : Head} {element element' : Element} {isLast : Bool}

/-- The delimiter is none of the bytes that may stand in front of a value. -/
def Form.Separates (form : Form κ) : Prop :=
  ∀ d, form.delimiter = some d → Byte.isKeyword d = false ∧ d ≠ Byte.colon ∧
    d ≠ Byte.equalSign ∧ d ≠ Byte.space

/-- An element may end in front of these bytes: there are none, or the delimiter comes first. -/
def EndsBefore (delimiter : Option UInt8) (rest : Bytes) : Prop :=
  Stops (fun b => some b != delimiter) rest

/-- The end of the input ends any element. -/
theorem endsBefore_nil {delimiter : Option UInt8} : EndsBefore delimiter [] := stops_nil

/-- Of all bytes only the delimiter ends an element. -/
theorem endsBefore_cons_iff {delimiter : Option UInt8} {b : UInt8} :
    EndsBefore delimiter (b :: rest) ↔ delimiter = some b := by
  rw [EndsBefore, stops_cons_iff, bne_eq_false_iff_eq, eq_comm]

/-- The delimiter ends every word that holds none. -/
theorem EndsBefore.stops {delimiter : Option UInt8} {class? : UInt8 → Bool}
    (h : EndsBefore delimiter rest) (hd : ∀ d, delimiter = some d → class? d = false) :
    Stops class? rest := by
  cases rest with
  | nil => exact stops_nil
  | cons b rest => exact stops_cons_iff.2 (hd b (endsBefore_cons_iff.1 h))

/-! ### Types -/

/-- The ways to write a type in front of a value. -/
inductive TypeSpelled : Bool → Bytes → Bytes → Prop where
  /-- The default type is not written. -/
  | absent {bareType : Bool} : TypeSpelled bareType [] []
  /-- A type that stands bare. -/
  | bare {type : Bytes} : isKeyword type → TypeSpelled true type type
  /-- A type behind a `=`. -/
  | marked {type : Bytes} : isKeyword type → TypeSpelled false type (Byte.equalSign :: type)

/-- The ways to write an element in one kind of value. -/
inductive Form.Spells (form : Form κ) : Spelling Element where
  /-- The type stands in front of the value. -/
  | mk {type value typeText valueText : Bytes} {counted : Bool} :
      TypeSpelled form.bareType type typeText →
        ValueSpelling form.delimiter value counted valueText →
        Spells form ⟨type, value, counted⟩ (typeText ++ valueText)

/-- Lists and dicts mark the types of their elements. -/
theorem spells_iff_spelled (hmarked : form.bareType = false) :
    form.Spells element text ↔ element.Spelled form.delimiter text := by
  constructor
  · intro h
    cases h with
    | @mk type value typeText valueText counted htype hvalue =>
      rw [hmarked] at htype
      cases htype with
      | absent => exact .untyped hvalue
      | marked htype => exact .typed htype hvalue
  · intro h
    have hspells : ∀ {type value typeText valueText : Bytes} {counted : Bool},
        TypeSpelled false type typeText → ValueSpelling form.delimiter value counted valueText →
        form.Spells ⟨type, value, counted⟩ (typeText ++ valueText) := by
      rw [← hmarked]
      exact .mk
    cases h with
    | untyped hvalue => exact hspells .absent hvalue
    | typed htype hvalue => exact hspells (.marked htype) hvalue

/-- The type of an operand stands bare, and nothing ends its value. -/
theorem spells_iff_operandSpelled (hbare : form.bareType = true) (hnone : form.delimiter = none) :
    form.Spells element text ↔ element.OperandSpelled text := by
  constructor
  · intro h
    cases h with
    | mk htype hvalue =>
      rw [hbare] at htype
      rw [hnone] at hvalue
      cases htype with
      | absent => exact .mk (.inl rfl) hvalue
      | bare htype => exact .mk (.inr htype) hvalue
  · intro h
    have hspells : ∀ {type value typeText valueText : Bytes} {counted : Bool},
        TypeSpelled true type typeText → ValueSpelling none value counted valueText →
        form.Spells ⟨type, value, counted⟩ (typeText ++ valueText) := by
      rw [← hbare, ← hnone]
      exact .mk
    cases h with
    | mk htype hvalue =>
      rcases htype with rfl | htype
      · exact hspells .absent hvalue
      · exact hspells (.bare htype) hvalue

/-- A type that is found is spelled. -/
theorem typeSpelled_of_scanType (h : scanType form input = .done type n) :
    ∃ text rest, TypeSpelled form.bareType type text ∧ input = text ++ rest ∧
      n = text.length := by
  unfold scanType at h
  split at h
  · next hbare =>
    obtain ⟨rfl, hall, rest, -, rfl⟩ := wordOrEnd_eq_done_iff.1 h
    rw [hbare]
    by_cases hne : type = []
    · subst hne
      exact ⟨[], rest, .absent, rfl, rfl⟩
    · exact ⟨type, rest, .bare (isKeyword_iff.2 ⟨hne, hall⟩), rfl, rfl⟩
  · next hbare =>
    have hbare : form.bareType = false := by simpa using hbare
    rw [peek?_bind] at h
    rw [hbare]
    split at h
    · next hmark =>
      cases input with
      | nil => cases hmark
      | cons b tail =>
        obtain rfl : b = Byte.equalSign := by simpa using hmark
        rw [skip_bind_cons, Outcome.shift_eq_done_iff] at h
        obtain ⟨k, hk, rfl⟩ := h
        obtain ⟨word, i, l, hword, hl, rfl⟩ := bind_eq_done_iff.1 hk
        obtain ⟨rfl, hall, rest, -, rfl⟩ := wordOrEnd_eq_done_iff.1 hword
        split at hl
        · cases hl
        · next hne =>
          cases hl
          refine ⟨Byte.equalSign :: type, rest,
            .marked (isKeyword_iff.2 ⟨by simpa using hne, hall⟩), rfl, ?_⟩
          rw [List.length_cons]
          omega
    · cases h
      exact ⟨[], input, .absent, rfl, rfl⟩

/-- A type that is spelled is found, if what follows cannot go on with it. -/
theorem scanType_of_typeSpelled (h : TypeSpelled form.bareType type text)
    (hrest : Stops (fun b => Byte.isKeyword b || b == Byte.equalSign) rest) :
    scanType form (text ++ rest) = .done type text.length := by
  have hkey : Stops Byte.isKeyword rest := fun b hb => (Bool.or_eq_false_iff.1 (hrest b hb)).1
  -- the word of a type is all that stands in front of the bytes behind it
  have hword : ∀ {word : Bytes}, (∀ b ∈ word, Byte.isKeyword b) →
      (keywordOrEnd : Scan κ Bytes) (word ++ rest) = .done word word.length := fun hall =>
    wordOrEnd_eq_done_iff.2 ⟨rfl, hall, rest, hkey, rfl⟩
  unfold scanType
  generalize form.bareType = bareType at h
  cases h with
  | bare htype =>
    rw [if_pos rfl]
    exact hword (isKeyword_iff.1 htype).2
  | marked htype =>
    rw [if_neg Bool.false_ne_true, peek?_bind, List.cons_append, List.head?_cons, if_pos rfl,
      skip_bind_cons, bind_of_done (hword (isKeyword_iff.1 htype).2),
      if_neg (by simpa using (isKeyword_iff.1 htype).1)]
    show Outcome.done type _ = _
    rw [Nat.add_zero, List.length_cons, Nat.add_comm]
  | absent =>
    cases bareType with
    | true =>
      rw [if_pos rfl]
      exact hword nofun
    | false =>
      have hmark : ¬ rest.head? = some Byte.equalSign := fun hb => by
        have hnot := hrest _ hb
        simp at hnot
      rw [if_neg Bool.false_ne_true, peek?_bind, List.nil_append, if_neg hmark]
      rfl

/-! ### Lengths -/

/-- There is no length just where no colon comes. -/
theorem scanLength_eq_none_iff :
    scanLength form input = .done none n ↔ input.head? ≠ some Byte.colon ∧ n = 0 := by
  constructor
  · intro h
    by_cases hcolon : input.head? = some Byte.colon
    · rw [scanLength, peek?_bind, if_pos hcolon] at h
      obtain ⟨_, _, _, -, hk, -⟩ := bind_eq_done_iff.1 h
      obtain ⟨reading, _, _, -, hl, -⟩ := bind_eq_done_iff.1 hk
      cases reading <;> cases hl
    · rw [scanLength, peek?_bind, if_neg hcolon] at h
      cases h
      exact ⟨hcolon, rfl⟩
  · rintro ⟨hcolon, rfl⟩
    rw [scanLength, peek?_bind, if_neg hcolon]
    rfl

/-- A head ends at a space, or else it tells no length but zero and the element ends, too. -/
theorem scanHeadEnd_eq_done_iff (hform : form.Separates) :
    scanHeadEnd form head input = .done head' n ↔
      head' = head ∧ ((n = 1 ∧ ∃ rest, input = Byte.space :: rest) ∨
        (n = 0 ∧ (∀ length, head.length = some length → length = 0) ∧
          EndsBefore form.delimiter input)) := by
  -- With a length other than zero a value has to come, and only a space may be in front of it.
  have hzero : (head.length.any (0 < ·)) = false ↔
      ∀ length, head.length = some length → length = 0 := by
    cases head.length <;> simp
  rw [← hzero]
  constructor
  · intro h
    cases input with
    | nil =>
      rw [scanHeadEnd, peek?_bind] at h
      dsimp only [List.head?_nil] at h
      split at h
      · cases h
      · next hnot =>
        cases h
        exact ⟨rfl, .inr ⟨rfl, by simpa using hnot, endsBefore_nil⟩⟩
    | cons b rest =>
      by_cases hspace : b = Byte.space
      · subst hspace
        rw [scanHeadEnd_space] at h
        cases h
        exact ⟨rfl, .inl ⟨rfl, rest, rfl⟩⟩
      · rw [scanHeadEnd, peek?_bind] at h
        simp only [List.head?_cons, if_neg hspace] at h
        split at h
        · next hends =>
          cases h
          exact ⟨rfl, .inr ⟨rfl, hends.2, endsBefore_cons_iff.2 hends.1.symm⟩⟩
        · split at h <;> cases h
  · rintro ⟨rfl, ⟨rfl, rest, rfl⟩ | ⟨rfl, hnot, hends⟩⟩
    · exact scanHeadEnd_space
    · rw [scanHeadEnd, peek?_bind]
      cases input with
      | nil =>
        dsimp only [List.head?_nil]
        rw [if_neg (by rw [hnot]; exact Bool.false_ne_true)]
        rfl
      | cons b rest =>
        have hdelimiter := endsBefore_cons_iff.1 hends
        dsimp only [List.head?_cons]
        rw [if_neg (hform b hdelimiter).2.2.2, if_pos ⟨hdelimiter.symm, hnot⟩]
        rfl

/-! ### Values -/

/-- Behind a value of known length the element ends, or it is none. -/
theorem scanCountedEnd_eq_whole_iff :
    scanCountedEnd form element input = .done (.whole element' isLast) n ↔
      element' = element ∧ n = 0 ∧ EndsBefore form.delimiter input ∧ isLast = input.isEmpty := by
  rw [scanCountedEnd, peek?_bind]
  cases input with
  | nil =>
    simp only [List.head?_nil, pure_apply, endsBefore_nil, List.isEmpty_nil]
    constructor
    · intro h
      cases h
      exact ⟨rfl, rfl, trivial, rfl⟩
    · rintro ⟨rfl, rfl, -, rfl⟩
      rfl
  | cons b rest =>
    simp only [List.head?_cons, endsBefore_cons_iff]
    by_cases hdelimiter : some b = form.delimiter
    · rw [if_pos hdelimiter]
      constructor
      · intro h
        cases h
        exact ⟨rfl, rfl, hdelimiter.symm, rfl⟩
      · rintro ⟨rfl, rfl, -, rfl⟩
        rfl
    · rw [if_neg hdelimiter]
      constructor
      · intro h
        cases h
      · rintro ⟨-, -, hends, -⟩
        exact absurd hends.symm hdelimiter

/-- A value without a length reaches up to the delimiter. -/
theorem scanValue_none_eq_whole_iff :
    scanValue form ⟨type, none⟩ input = .done (.whole element isLast) n ↔
      ∃ value rest, element = ⟨type, value, false⟩ ∧
        (∀ d, form.delimiter = some d → d ∉ value) ∧ EndsBefore form.delimiter rest ∧
        isLast = rest.isEmpty ∧ input = value ++ rest ∧ n = value.length := by
  have hvalue : scanValue form ⟨type, none⟩ = upToOrEnd form.delimiter >>= fun found =>
      pure (Portion.whole ⟨type, found.1, false⟩ (!found.2)) := rfl
  have hall : ∀ value : Bytes, (∀ b ∈ value, (some b != form.delimiter) = true) ↔
      ∀ d, form.delimiter = some d → d ∉ value := by
    intro value
    constructor
    · intro h d hd hmem
      have hne := h d hmem
      rw [hd] at hne
      simp at hne
    · intro h b hb
      exact bne_iff_ne.2 fun he => h b he.symm hb
  have hlast : ∀ rest : Bytes, (!rest.head?.isSome) = rest.isEmpty := fun rest => by
    cases rest <;> rfl
  rw [hvalue, bind_eq_done_iff]
  constructor
  · rintro ⟨⟨value, delimited⟩, j, k, hfound, hk, rfl⟩
    cases hk
    obtain ⟨taken, i, l, hword, hl, rfl⟩ := bind_eq_done_iff.1 hfound
    obtain ⟨rfl, hin, rest, hends, rfl⟩ := wordOrEnd_eq_done_iff.1 hword
    rw [List.drop_left, peek?_bind] at hl
    cases hl
    exact ⟨value, rest, rfl, (hall _).1 hin, hends, hlast rest, rfl, rfl⟩
  · rintro ⟨value, rest, rfl, hin, hends, rfl, rfl, rfl⟩
    refine ⟨(value, rest.head?.isSome), value.length, 0, ?_, ?_, rfl⟩
    · refine bind_eq_done_iff.2 ⟨value, value.length, 0, ?_, ?_, rfl⟩
      · exact wordOrEnd_eq_done_iff.2 ⟨rfl, (hall _).2 hin, rest, hends, rfl⟩
      · rw [List.drop_left, peek?_bind]
        rfl
    · rw [hlast]
      rfl

/-- A value of told length is followed by the delimiter, or by nothing. -/
theorem scanValue_some_eq_whole_iff :
    scanValue form ⟨type, some length⟩ input = .done (.whole element isLast) n ↔
      ∃ value rest, element = ⟨type, value, true⟩ ∧ value.length = length ∧
        EndsBefore form.delimiter rest ∧ isLast = rest.isEmpty ∧ input = value ++ rest ∧
        n = length := by
  constructor
  · intro h
    by_cases hlt : input.length < length
    · rw [scanValue_of_lt hlt] at h
      cases h
    · have hle := Nat.le_of_not_lt hlt
      rw [scanValue_of_le hle, Outcome.shift_eq_done_iff] at h
      obtain ⟨k, hk, rfl⟩ := h
      obtain ⟨rfl, rfl, hends, rfl⟩ := scanCountedEnd_eq_whole_iff.1 hk
      exact ⟨input.take length, input.drop length, rfl, List.length_take_of_le hle, hends, rfl,
        (List.take_append_drop length input).symm, rfl⟩
  · rintro ⟨value, rest, rfl, rfl, hends, rfl, rfl, rfl⟩
    rw [scanValue_of_le (by simp), List.take_left, List.drop_left]
    exact Outcome.shift_eq_done_iff.2
      ⟨0, scanCountedEnd_eq_whole_iff.2 ⟨rfl, rfl, hends, rfl⟩, rfl⟩

/-! ### Behind the type -/

/-- The length and the value, behind a type. -/
def scanBehindType (form : Form κ) (type : Bytes) : Scan κ Portion := do
  let length ← scanLength form
  let head ← scanHeadEnd form ⟨type, length⟩
  scanValue form head

/-- An element is its type, and what is behind it. -/
theorem scan_eq : scan form = scanType form >>= scanBehindType form := by
  have hscan : scan form = scanHead form >>= scanValue form := rfl
  rw [hscan, scanHead_eq, bind_assoc]
  refine congrArg (scanType form >>= ·) (funext fun type => ?_)
  rw [bind_assoc]
  rfl

/-- What is found behind a type is spelled, with or without its length. -/
theorem valueSpelling_of_scanBehindType (hform : form.Separates)
    (h : scanBehindType form type input = .done (.whole element isLast) n) :
    ∃ text rest, element.type = type ∧
      ValueSpelling form.delimiter element.value element.counted text ∧
      EndsBefore form.delimiter rest ∧ isLast = rest.isEmpty ∧ input = text ++ rest ∧
      n = text.length := by
  obtain ⟨length?, j, k, hlength, hk, rfl⟩ := bind_eq_done_iff.1 h
  obtain ⟨head, i, l, hhead, hl, rfl⟩ := bind_eq_done_iff.1 hk
  obtain ⟨rfl, hend⟩ := (scanHeadEnd_eq_done_iff hform).1 hhead
  cases length? with
  | none =>
    obtain ⟨-, rfl⟩ := scanLength_eq_none_iff.1 hlength
    rw [List.drop_zero] at hend hl
    obtain ⟨value, rest, rfl, hnot, hends, rfl, hi, rfl⟩ := scanValue_none_eq_whole_iff.1 hl
    obtain ⟨rfl, behind, rfl⟩ | ⟨rfl, -, hnone⟩ := hend
    · obtain rfl : behind = value ++ rest := hi
      exact ⟨Byte.space :: value, rest, rfl, .delimited hnot, hends, rfl, rfl, by simp; omega⟩
    · -- the element ends where its value would start
      obtain rfl : input = value ++ rest := hi
      cases value with
      | nil => exact ⟨[], rest, rfl, .absent, hends, rfl, rfl, rfl⟩
      | cons b value =>
        exact absurd List.mem_cons_self (hnot b (endsBefore_cons_iff.1 hnone))
  | some length =>
    obtain ⟨digits, behind, hnum, -, rfl, rfl⟩ := scanLength_eq_some_iff.1 hlength
    have hdrop : (Byte.colon :: digits ++ behind).drop (digits.length + 1) = behind :=
      List.drop_left
    rw [hdrop] at hend hl
    obtain ⟨value, rest, rfl, rfl, hends, rfl, hi, rfl⟩ := scanValue_some_eq_whole_iff.1 hl
    obtain ⟨rfl, tail, rfl⟩ | ⟨rfl, hzero, -⟩ := hend
    · obtain rfl : tail = value ++ rest := hi
      exact ⟨Byte.colon :: digits ++ Byte.space :: value, rest, rfl, .counted hnum, hends, rfl,
        by simp, by simp; omega⟩
    · obtain rfl := List.eq_nil_of_length_eq_zero (hzero _ rfl)
      obtain rfl : behind = rest := hi
      exact ⟨Byte.colon :: digits, behind, rfl, .zero hnum, hends, rfl, rfl, rfl⟩

/-- What is spelled behind a type is found. -/
theorem scanBehindType_of_valueSpelling {counted : Bool} (hform : form.Separates)
    (h : ValueSpelling form.delimiter value counted text) (hends : EndsBefore form.delimiter rest) :
    scanBehindType form type (text ++ rest) =
      .done (.whole ⟨type, value, counted⟩ rest.isEmpty) text.length := by
  have hcolon : ∀ {b : UInt8} {tail : Bytes}, b ≠ Byte.colon →
      scanLength form (b :: tail) = .done none 0 := fun hne =>
    scanLength_eq_none_iff.2 ⟨by simpa using hne, rfl⟩
  cases h with
  | absent =>
    have hlength : scanLength form rest = .done none 0 := by
      refine scanLength_eq_none_iff.2 ⟨fun hb => ?_, rfl⟩
      have hstop := hends _ hb
      exact (hform _ (bne_eq_false_iff_eq.1 hstop).symm).2.1 rfl
    refine bind_eq_done_iff.2 ⟨none, 0, 0, hlength, bind_eq_done_iff.2 ⟨_, 0, 0,
      (scanHeadEnd_eq_done_iff hform).2 ⟨rfl, .inr ⟨rfl, nofun, hends⟩⟩, ?_, rfl⟩, rfl⟩
    exact scanValue_none_eq_whole_iff.2 ⟨[], rest, rfl, nofun, hends, rfl, rfl, rfl⟩
  | @delimited value hnot =>
    refine bind_eq_done_iff.2 ⟨none, 0, value.length + 1, hcolon (by decide),
      bind_eq_done_iff.2 ⟨_, 1, value.length,
        (scanHeadEnd_eq_done_iff hform).2 ⟨rfl, .inl ⟨rfl, value ++ rest, rfl⟩⟩, ?_,
          Nat.add_comm _ _⟩, by simp⟩
    exact scanValue_none_eq_whole_iff.2 ⟨value, rest, rfl, hnot, hends, rfl, rfl, rfl⟩
  | @zero digits hnum =>
    have hdigit : Stops Byte.isDigit rest := hends.stops fun d hd => by
      have hkey := (hform d hd).1
      simp only [Byte.isKeyword, Bool.or_eq_false_iff] at hkey
      exact hkey.1.2
    have hlength : scanLength form (Byte.colon :: digits ++ rest) =
        .done (some 0) (digits.length + 1) :=
      scanLength_eq_some_iff.2 ⟨digits, rest, hnum, hdigit, rfl, rfl⟩
    have hdrop : (Byte.colon :: digits ++ rest).drop (digits.length + 1) = rest := List.drop_left
    refine bind_eq_done_iff.2 ⟨some 0, digits.length + 1, 0, hlength, bind_eq_done_iff.2
      ⟨⟨type, some 0⟩, 0, 0, (scanHeadEnd_eq_done_iff hform).2 ⟨rfl, .inr ⟨rfl, ?_, ?_⟩⟩, ?_, rfl⟩,
      rfl⟩
    · rintro length hlength
      cases hlength
      rfl
    · rw [hdrop]
      exact hends
    · rw [hdrop]
      exact scanValue_some_eq_whole_iff.2 ⟨[], rest, rfl, rfl, hends, rfl, rfl, rfl⟩
  | @counted value digits hnum =>
    have htext : Byte.colon :: digits ++ Byte.space :: value ++ rest =
        Byte.colon :: digits ++ Byte.space :: (value ++ rest) := by simp
    have hlength : scanLength form (Byte.colon :: digits ++ Byte.space :: (value ++ rest)) =
        .done (some value.length) (digits.length + 1) :=
      scanLength_eq_some_iff.2 ⟨digits, _, hnum, stops_cons_iff.2 (by decide), rfl, rfl⟩
    have hdrop : (Byte.colon :: digits ++ Byte.space :: (value ++ rest)).drop (digits.length + 1) =
        Byte.space :: (value ++ rest) := List.drop_left
    rw [htext]
    refine bind_eq_done_iff.2 ⟨some value.length, digits.length + 1, 1 + value.length, hlength,
      bind_eq_done_iff.2 ⟨⟨type, some value.length⟩, 1, value.length,
        (scanHeadEnd_eq_done_iff hform).2 ⟨rfl, .inl ⟨rfl, value ++ rest, hdrop⟩⟩, ?_, rfl⟩, ?_⟩
    · rw [hdrop]
      exact scanValue_some_eq_whole_iff.2 ⟨value, rest, rfl, rfl, hends, rfl, rfl, rfl⟩
    · simp
      omega

/-! ### Elements -/

/-- An element is found as a whole where a way to write it stands in front of a delimiter or of the
    end of the input. -/
theorem scan_eq_whole_iff (hform : form.Separates) :
    scan form input = .done (.whole element isLast) n ↔
      ∃ text rest, form.Spells element text ∧ EndsBefore form.delimiter rest ∧
        isLast = rest.isEmpty ∧ input = text ++ rest ∧ n = text.length := by
  rw [scan_eq, bind_eq_done_iff]
  constructor
  · rintro ⟨type, j, k, htype, hk, rfl⟩
    obtain ⟨typeText, behind, hspelled, rfl, rfl⟩ := typeSpelled_of_scanType htype
    rw [List.drop_left] at hk
    obtain ⟨valueText, rest, rfl, hvalue, hends, rfl, rfl, rfl⟩ :=
      valueSpelling_of_scanBehindType hform hk
    exact ⟨typeText ++ valueText, rest, .mk hspelled hvalue, hends, rfl, by simp, by simp⟩
  · rintro ⟨text, rest, hspells, hends, rfl, rfl, rfl⟩
    cases hspells with
    | @mk type value typeText valueText counted htype hvalue =>
      -- no byte of a type follows, be it a space, a colon or a delimiter
      have hstops :
          Stops (fun b => Byte.isKeyword b || b == Byte.equalSign) (valueText ++ rest) := by
        cases hvalue with
        | absent =>
          refine hends.stops fun d hd => ?_
          obtain ⟨hkey, -, hmark, -⟩ := hform d hd
          rw [hkey, Bool.false_or, beq_eq_false_iff_ne]
          exact hmark
        | delimited => exact stops_cons_iff.2 (by decide)
        | zero => exact stops_cons_iff.2 (by decide)
        | counted => exact stops_cons_iff.2 (by decide)
      rw [List.append_assoc]
      refine ⟨type, typeText.length, valueText.length,
        scanType_of_typeSpelled htype hstops, ?_, List.length_append⟩
      rw [List.drop_left]
      exact scanBehindType_of_valueSpelling hform hvalue hends

/-- There is one way to read an element in front of a delimiter or of the end of the input. -/
theorem Form.Spells.unique {text' rest' : Bytes} (hform : form.Separates)
    (h : form.Spells element text) (h' : form.Spells element' text')
    (hends : EndsBefore form.delimiter rest) (hends' : EndsBefore form.delimiter rest')
    (hi : text ++ rest = text' ++ rest') : element = element' ∧ rest = rest' := by
  -- both are found by the same scan
  have hfound := (scan_eq_whole_iff hform).2 ⟨text, rest, h, hends, rfl, rfl, rfl⟩
  have hfound' := (scan_eq_whole_iff hform).2 ⟨text', rest', h', hends', rfl, hi, rfl⟩
  obtain ⟨hportion, hlength⟩ := Outcome.done.inj (hfound.symm.trans hfound')
  exact ⟨(Portion.whole.inj hportion).1, (List.append_inj hi hlength).2⟩

end PacketWire.Element
