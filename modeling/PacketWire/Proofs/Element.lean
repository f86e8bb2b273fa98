import PacketWire.Element.Scan
import PacketWire.Proofs.Decimal
import PacketWire.Proofs.Scan.Bounded

namespace PacketWire.Element

open Scan

/-!
# Elements whose length is told

The length of an element stands behind a `:` (`scanLength_eq_some_iff`) and ends at a space
(`scanHeadEnd_eq_counted_iff`). Behind the space there is the first part of its value
(`scanValue_eq_opening`), or all of it and what has to come next.
-/

variable {κ : Type} {form : Form κ} {input type value rest digits : Bytes} {n length : Nat}
  {head : Head}

/-- A length is a numeral behind a colon, as long as it goes. -/
theorem scanLength_eq_some_iff :
    scanLength form input = .done (some length) n ↔
      ∃ digits rest, Numeral length digits ∧ Stops Byte.isDigit rest ∧
        input = Byte.colon :: digits ++ rest ∧ n = digits.length + 1 := by
  rw [scanLength, peek?_bind]
  constructor
  · intro h
    split at h
    · next hcolon =>
      cases input with
      | nil => cases hcolon
      | cons b tail =>
        obtain rfl : b = Byte.colon := by simpa using hcolon
        rw [skip_bind_cons, Outcome.shift_eq_done_iff] at h
        obtain ⟨k, hk, rfl⟩ := h
        obtain ⟨reading, i, l, hr, hl, rfl⟩ := bind_eq_done_iff.1 hk
        obtain ⟨ds, rest, rfl, rfl, hall, hrest, rfl⟩ := numberOrEnd_eq_done_iff.1 hr
        -- Without digits, or with too many of them, there is a fault and no length.
        cases hread : Decimal.read ds with
        | absent => rw [hread] at hl; cases hl
        | overflow => rw [hread] at hl; cases hl
        | number length =>
          rw [hread] at hl
          cases hl
          have hnum := (Decimal.read_eq_number_iff hall).1 hread
          exact ⟨ds, rest, hnum, hrest, rfl, by omega⟩
    · cases h
  · rintro ⟨digits, rest, hnum, hrest, rfl, rfl⟩
    have hread := (Decimal.read_eq_number_iff hnum.isDigit).2 hnum
    have hnumber : (numberOrEnd : Scan κ Decimal.Reading) (digits ++ rest) =
        .done (.number length) digits.length :=
      numberOrEnd_eq_done_iff.2 ⟨digits, rest, hread.symm, rfl, hnum.isDigit, hrest, rfl⟩
    rw [List.cons_append, List.head?_cons, if_pos rfl, skip_bind_cons, bind_of_done hnumber]
    show Outcome.done (some length) _ = _
    rw [Nat.add_zero, Nat.add_comm]

/-- The space behind a head. -/
def scanHeadEnd (form : Form κ) (head : Head) : Scan κ Head := do
  let announced := head.length.any (0 < ·)
  match ← peek? with
  | none => if announced then more else return head
  | some b =>
    if b = Byte.space then
      skip 1
      return head
    else if some b = form.delimiter ∧ announced = false then return head
    else if form.bareType ∧ head.length = none then fault form.badType
    else fault form.badLength

/-- The head of an element is its type, its length, and what ends the two. -/
theorem scanHead_eq :
    scanHead form = scanType form >>= fun type => scanLength form >>= fun length =>
      scanHeadEnd form ⟨type, length⟩ := rfl

/-- A space ends any head. -/
theorem scanHeadEnd_space : scanHeadEnd form head (Byte.space :: rest) = .done head 1 := by
  rw [scanHeadEnd, peek?_bind]
  exact skip_bind_cons

/-- A head with a length other than zero ends at a space. -/
theorem scanHeadEnd_eq_counted_iff (hlength : 0 < length) :
    scanHeadEnd form head input = .done ⟨type, some length⟩ n ↔
      head = ⟨type, some length⟩ ∧ n = 1 ∧ ∃ rest, input = Byte.space :: rest := by
  constructor
  · intro h
    -- Only a length of zero may end the element without a space, at the end of the buffer or in
    -- front of a delimiter.
    cases input with
    | nil =>
      rw [scanHeadEnd, peek?_bind] at h
      dsimp only [List.head?_nil] at h
      split at h
      · cases h
      · next hnot =>
        cases h
        exact absurd (by simpa using hlength) hnot
    | cons b rest =>
      by_cases hspace : b = Byte.space
      · subst hspace
        rw [scanHeadEnd_space] at h
        cases h
        exact ⟨rfl, rfl, rest, rfl⟩
      · rw [scanHeadEnd, peek?_bind] at h
        simp only [List.head?_cons, if_neg hspace] at h
        split at h
        · next hdelimiter =>
          cases h
          exact absurd hdelimiter.2 (by simpa using Nat.pos_iff_ne_zero.1 hlength)
        · split at h <;> cases h
  · rintro ⟨rfl, rfl, rest, rfl⟩
    exact scanHeadEnd_space

/-- What stands in front of a value of told length, behind the text of its type. -/
def countedHead (type digits : Bytes) : Bytes := type ++ Byte.colon :: digits ++ [Byte.space]

/-! ### Values -/

/-- What has to come behind a value of told length. -/
def scanCountedEnd (form : Form κ) (element : Element) : Scan κ Portion := do
  match ← peek? with
  | none => return .whole element true
  | some b =>
    if some b = form.delimiter then return .whole element false
    else fault form.trailingBytes

/-- Of a value that is longer than the input, what there is of it is the first part. -/
theorem scanValue_of_lt (h : input.length < length) :
    scanValue form ⟨type, some length⟩ input = .done (.opening type input length) input.length :=
  bind_of_done (take_eq_part_iff.2 ⟨rfl, rfl, h⟩)

/-- Behind a value that is there as a whole, its end is looked at. -/
theorem scanValue_of_le (h : length ≤ input.length) :
    scanValue form ⟨type, some length⟩ input =
      (scanCountedEnd form ⟨type, input.take length, true⟩ (input.drop length)).shift length :=
  bind_of_done (take_eq_whole_iff.2
    ⟨rfl, List.length_take_of_le h, input.drop length, (List.take_append_drop length input).symm⟩)

/-- Behind a value that is there as a whole, the element is whole. -/
theorem scanCountedEnd_eq_done {element : Element} {portion : Portion}
    (h : scanCountedEnd form element input = .done portion n) :
    ∃ isLast, portion = .whole element isLast := by
  rw [scanCountedEnd, peek?_bind] at h
  cases input with
  | nil =>
    cases h
    exact ⟨true, rfl⟩
  | cons b rest =>
    dsimp only [List.head?_cons] at h
    split at h
    · cases h
      exact ⟨false, rfl⟩
    · cases h

/-- A first part is all of the input, and fewer bytes than were told. -/
theorem scanValue_eq_opening
    (h : scanValue form head input = .done (.opening type value length) n) :
    head = ⟨type, some length⟩ ∧ value = input ∧ input.length < length ∧ n = input.length := by
  obtain ⟨type', length?⟩ := head
  cases length? with
  | none =>
    obtain ⟨_, _, _, -, hk, -⟩ := bind_eq_done_iff.1 h
    cases hk
  | some length' =>
    by_cases hlt : input.length < length'
    · rw [scanValue_of_lt hlt] at h
      cases h
      exact ⟨rfl, rfl, hlt, rfl⟩
    · rw [scanValue_of_le (Nat.le_of_not_lt hlt), Outcome.shift_eq_done_iff] at h
      obtain ⟨k, hk, rfl⟩ := h
      obtain ⟨isLast, hportion⟩ := scanCountedEnd_eq_done hk
      cases hportion

/-! ### What is taken -/

/-- The type takes no more than there is. -/
theorem isBounded_scanType : (scanType form).IsBounded := by
  unfold scanType
  split
  · exact isBounded_wordOrEnd _
  · refine .bind isBounded_peek? fun b? => ?_
    split
    · refine .bind (isBounded_skip 1) fun _ => .bind (isBounded_wordOrEnd _) fun word => ?_
      split
      · exact isBounded_fault _
      · exact isBounded_pure _
    · exact isBounded_pure _

/-- The length takes no more than there is. -/
theorem isBounded_scanLength : (scanLength form).IsBounded := by
  refine .bind isBounded_peek? fun b? => ?_
  split
  · refine .bind (isBounded_skip 1) fun _ => .bind isBounded_numberOrEnd fun reading => ?_
    cases reading
    · exact isBounded_fault _
    · exact isBounded_pure _
    · exact isBounded_fault _
  · exact isBounded_pure _

/-- The end of the head takes a space at most. -/
theorem isBounded_scanHeadEnd : (scanHeadEnd form head).IsBounded := by
  refine .bind isBounded_peek? fun b? => ?_
  cases b? with
  | none =>
    dsimp only
    split
    · exact isBounded_more
    · exact isBounded_pure _
  | some b =>
    dsimp only
    split
    · exact .bind (isBounded_skip 1) fun _ => isBounded_pure _
    · split
      · exact isBounded_pure _
      · split <;> exact isBounded_fault _

/-- Looking at what is behind a value takes nothing. -/
theorem isBounded_scanCountedEnd {element : Element} :
    (scanCountedEnd form element).IsBounded := by
  refine .bind isBounded_peek? fun b? => ?_
  cases b? with
  | none => exact isBounded_pure _
  | some b =>
    dsimp only
    split
    · exact isBounded_pure _
    · exact isBounded_fault _

/-- The value takes no more than there is. -/
theorem isBounded_scanValue : (scanValue form head).IsBounded := by
  obtain ⟨type, length?⟩ := head
  cases length? with
  | none => exact .bind (isBounded_upToOrEnd _) fun _ => isBounded_pure _
  | some length =>
    refine .bind (isBounded_take length) fun portion => ?_
    cases portion with
    | part value => exact isBounded_pure _
    | whole value => exact isBounded_scanCountedEnd

/-- An element takes no more than there is. -/
theorem isBounded_scan : (scan form).IsBounded := by
  rw [scan, scanHead_eq]
  exact .bind (.bind isBounded_scanType fun _ => .bind isBounded_scanLength fun _ =>
    isBounded_scanHeadEnd) fun _ => isBounded_scanValue

end PacketWire.Element
