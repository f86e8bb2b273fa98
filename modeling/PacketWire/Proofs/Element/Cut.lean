import PacketWire.Proofs.Element.Whole

namespace PacketWire.Element

open Scan

/-!
# Elements that are cut

An element whose length is told may be longer than the input (`Form.Opens`, `scan_eq_opening_iff`).
With more bytes behind the input it is scanned as if its value went on there
(`Form.Opens.scan_append`); so if all of it comes, what was missing is in front of a delimiter or of
the end of the input (`Form.Opens.exists_of_scan_eq_whole`).
-/

variable {κ : Type} {form : Form κ} {input type value text rest back : Bytes} {n length : Nat}
  {element : Element} {isLast : Bool}

/-- A head tells a length other than zero where the text of the type, a `:`, a number and a space
    are. -/
theorem scanHead_eq_counted_iff (hlength : 0 < length) :
    scanHead form input = .done ⟨type, some length⟩ n ↔
      ∃ typeText digits rest, TypeSpelled form.bareType type typeText ∧ Numeral length digits ∧
        input = countedHead typeText digits ++ rest ∧
        n = (countedHead typeText digits).length := by
  rw [scanHead_eq, bind_eq_done_iff]
  constructor
  · rintro ⟨type', j, k, htype, hk, rfl⟩
    obtain ⟨length?, i, l, hlen, hl, rfl⟩ := bind_eq_done_iff.1 hk
    obtain ⟨hhead, rfl, rest, hi⟩ := (scanHeadEnd_eq_counted_iff hlength).1 hl
    cases hhead
    obtain ⟨typeText, behind, hspelled, rfl, rfl⟩ := typeSpelled_of_scanType htype
    rw [List.drop_left] at hi hlen
    obtain ⟨digits, behind, hnum, -, rfl, rfl⟩ := scanLength_eq_some_iff.1 hlen
    obtain rfl : behind = Byte.space :: rest := by simpa using hi
    exact ⟨typeText, digits, rest, hspelled, hnum, by simp [countedHead], by simp [countedHead]⟩
  · rintro ⟨typeText, digits, rest, htype, hnum, rfl, rfl⟩
    have htext : countedHead typeText digits ++ rest =
        typeText ++ (Byte.colon :: digits ++ Byte.space :: rest) := by simp [countedHead]
    have hword := @scanType_of_typeSpelled _ form _ _ _ htype
      (stops_cons_iff.2 (by decide) : Stops _ (Byte.colon :: digits ++ Byte.space :: rest))
    have hlen : scanLength form (Byte.colon :: digits ++ Byte.space :: rest) =
        .done (some length) (digits.length + 1) :=
      scanLength_eq_some_iff.2 ⟨digits, _, hnum, stops_cons_iff.2 (by decide), rfl, rfl⟩
    have hdrop : (Byte.colon :: digits ++ Byte.space :: rest).drop (digits.length + 1) =
        Byte.space :: rest := List.drop_left
    refine ⟨type, typeText.length, digits.length + 1 + 1, ?_, ?_, by simp [countedHead]⟩
    · rw [htext]
      exact hword
    · rw [htext, List.drop_left, bind_of_done hlen, hdrop, scanHeadEnd_space]
      rfl

/-- The beginning of an element of told length that is not there as a whole. -/
inductive Form.Opens (form : Form κ) : Bytes → Bytes → Nat → Bytes → Prop where
  /-- The first bytes of the value stand behind the type and the length. -/
  | mk {type typeText digits value : Bytes} {length : Nat} :
      TypeSpelled form.bareType type typeText → Numeral length digits → value.length < length →
        Opens form type value length (countedHead typeText digits ++ value)

theorem Form.Opens.lt (h : form.Opens type value length text) : value.length < length := by
  cases h with
  | mk _ _ hlt => exact hlt

/-- With more bytes behind its beginning the value is scanned as it goes on there. -/
theorem Form.Opens.scan_append (h : form.Opens type value length text) :
    ∃ k, text.length = k + value.length ∧ ∀ back, scan form (text ++ back) =
      (scanValue form ⟨type, some length⟩ (value ++ back)).shift k := by
  cases h with
  | @mk typeText digits _ _ htype hnum hlt =>
    refine ⟨(countedHead typeText digits).length, List.length_append, fun back => ?_⟩
    have hhead := (scanHead_eq_counted_iff (Nat.zero_lt_of_lt hlt)).2
      ⟨typeText, digits, value ++ back, htype, hnum, rfl, rfl⟩
    rw [List.append_assoc, scan, bind_of_done hhead, List.drop_left]

/-- The first part of an element is found where the input ends inside its value. -/
theorem scan_eq_opening_iff :
    scan form input = .done (.opening type value length) n ↔
      form.Opens type value length input ∧ n = input.length := by
  constructor
  · intro h
    obtain ⟨head, j, k, hhead, hk, rfl⟩ := bind_eq_done_iff.1 h
    obtain ⟨rfl, rfl, hlt, rfl⟩ := scanValue_eq_opening hk
    obtain ⟨typeText, digits, rest, htype, hnum, rfl, rfl⟩ :=
      (scanHead_eq_counted_iff (Nat.zero_lt_of_lt hlt)).1 hhead
    rw [List.drop_left] at hlt ⊢
    exact ⟨.mk htype hnum hlt, List.length_append.symm⟩
  · rintro ⟨h, rfl⟩
    obtain ⟨k, hk, happend⟩ := h.scan_append
    have hscan := happend []
    rw [List.append_nil, List.append_nil, scanValue_of_lt h.lt] at hscan
    rw [hscan, hk]
    rfl

/-- An element that was cut is found as a whole where all of it has come. -/
theorem Form.Opens.exists_of_scan_eq_whole (h : form.Opens type value length text)
    (hwhole : scan form (text ++ back) = .done (.whole element isLast) n) :
    ∃ piece rest, back = piece ++ rest ∧ element = ⟨type, value ++ piece, true⟩ ∧
      piece.length = length - value.length ∧ EndsBefore form.delimiter rest ∧
      n = text.length + piece.length := by
  have hlt := h.lt
  obtain ⟨k, hk, happend⟩ := h.scan_append
  rw [happend, Outcome.shift_eq_done_iff] at hwhole
  obtain ⟨j, hj, rfl⟩ := hwhole
  obtain ⟨all, rest, rfl, hall, hends, -, hi, rfl⟩ := scanValue_some_eq_whole_iff.1 hj
  obtain ⟨piece, rfl, rfl⟩ | ⟨excess, rfl, -⟩ := List.append_eq_append_iff.1 hi
  · rw [List.length_append] at hall
    exact ⟨piece, rest, rfl, rfl, by omega, hends, by omega⟩
  · rw [List.length_append] at hlt
    omega

/-- Where nothing else ends an element, it ends with the input. -/
theorem endsBefore_none_iff : EndsBefore none rest ↔ rest = [] := by
  cases rest with
  | nil => exact iff_of_true endsBefore_nil rfl
  | cons b rest => exact iff_of_false (fun h => by cases endsBefore_cons_iff.1 h) nofun

end PacketWire.Element
