import PacketWire.Writer

namespace PacketWire

/-!
# What is written into a slice

A piece of writing amounts to a text where it puts this text into the next places of any slice that
has as many places left (`Write.Writes`). What is put together from such pieces then is written,
too, and in particular it never fails in a slice of the right size (`Write.Writes.fills`).
-/

namespace Write

variable {α : Type} {m m' : Write} {s t text : Bytes} {b : UInt8} {c : Bool} {n : Nat}

/-- The text comes into the next places of a slice; what was written in front of it and what stands
    behind it stays. -/
def Writes (m : Write) (text : Bytes) : Prop :=
  ∀ written slot rest : Bytes, slot.length = text.length →
    m ⟨written ++ slot ++ rest, written.length⟩ =
      some ((), ⟨written ++ text ++ rest, (written ++ text).length⟩)

/-- A slice of the right size is filled. -/
theorem Writes.fills (h : Writes m text) {slice : Bytes} (hlength : slice.length = text.length) :
    m ⟨slice, 0⟩ = some ((), ⟨text, text.length⟩) := by
  have hall := h [] slice [] hlength
  rwa [List.append_nil, List.append_nil] at hall

/-! ### Pieces -/

/-- Putting a text writes it. -/
theorem writes_put : Writes (put text) text := by
  intro written slot rest hslot
  rw [put, if_pos (by simp [hslot])]
  have htake : (written ++ slot ++ rest).take written.length = written := by
    rw [List.append_assoc, List.take_left]
  have hdrop : (written ++ slot ++ rest).drop (written.length + text.length) = rest := by
    rw [← hslot, ← List.length_append, List.drop_left]
  simp only [htake, hdrop, List.length_append]

/-- Putting a byte writes it. -/
theorem writes_byte : Writes (byte b) [b] := by
  intro written slot rest hslot
  obtain ⟨x, rfl⟩ := List.length_eq_one_iff.1 hslot
  rw [byte, if_pos (by simp)]
  simp

/-- The places that a number is wide are set to its digits. -/
theorem setDigits_width {written slot rest : Bytes} (hslot : slot.length = Decimal.width n) :
    setDigits (written ++ slot ++ rest) written.length (Decimal.width n) n =
      written ++ Decimal.digits n ++ rest := by
  induction n using Decimal.digits.induct generalizing slot rest with
  | case1 n hn =>
    rw [Decimal.width, if_pos hn] at hslot
    obtain ⟨x, rfl⟩ := List.length_eq_one_iff.1 hslot
    rw [Decimal.width, Decimal.digits, if_pos hn, if_pos hn, setDigits, setDigits]
    simp
  | case2 n hn ih =>
    rw [Decimal.width, if_neg hn] at hslot
    obtain ⟨slot, x, rfl⟩ : ∃ front x, slot = front ++ [x] :=
      ⟨_, _, (List.dropLast_concat_getLast (List.ne_nil_of_length_eq_add_one hslot)).symm⟩
    rw [List.length_append, List.length_singleton, Nat.add_right_cancel_iff] at hslot
    -- the last place is set first, and counts as behind the others from then on
    have hset : (written ++ (slot ++ [x]) ++ rest).set
        (written.length + Decimal.width (n / 10)) (Decimal.digit n) =
          written ++ slot ++ Decimal.digit n :: rest := by
      rw [← hslot, ← List.length_append]
      simp
    rw [Decimal.width, Decimal.digits, if_neg hn, if_neg hn, setDigits, hset, ih hslot]
    simp

/-- Putting a number writes its digits. -/
theorem writes_number : Writes (number n) (Decimal.digits n) := by
  intro written slot rest hslot
  rw [Decimal.length_digits] at hslot
  rw [number, if_pos (by simp [hslot])]
  simp only [setDigits_width hslot, List.length_append, Decimal.length_digits]

/-! ### Together -/

/-- Doing nothing writes nothing. -/
theorem writes_pure : Writes (pure ()) [] := by
  intro written slot rest hslot
  obtain rfl := List.eq_nil_of_length_eq_zero hslot
  rw [List.append_nil]
  rfl

/-- Pieces one after the other write their texts in a row. -/
theorem Writes.bind (h : Writes m s) (h' : Writes m' t) :
    Writes (m >>= fun _ => m') (s ++ t) := by
  intro written slot rest hslot
  rw [List.length_append] at hslot
  have hfirst : (slot.take s.length).length = s.length := List.length_take_of_le (by omega)
  have hsecond : (slot.drop s.length).length = t.length := by
    rw [List.length_drop]
    omega
  have hm := h written (slot.take s.length) (slot.drop s.length ++ rest) hfirst
  have hm' := h' (written ++ s) (slot.drop s.length) rest hsecond
  have hslice : written ++ slot.take s.length ++ (slot.drop s.length ++ rest) =
      written ++ slot ++ rest := by
    rw [← List.append_assoc, List.append_assoc written, List.take_append_drop]
  rw [hslice] at hm
  show (m ⟨written ++ slot ++ rest, written.length⟩).bind (fun r => m' r.2) = _
  rw [hm, Option.bind_some, ← List.append_assoc (written ++ s), hm']
  simp only [List.append_assoc]

/-- A piece that may be left out writes its text or nothing. -/
theorem Writes.onlyIf (h : Writes m s) : Writes (onlyIf c m) (if c then s else []) := by
  cases c with
  | true => exact h
  | false => exact writes_pure

/-- What is written only where something is there. -/
theorem Writes.unless (h : Writes m s) : Writes (Write.onlyIf (!c) m) (if c then [] else s) := by
  cases c with
  | true => exact writes_pure
  | false => exact h

/-- Things are written one behind the other. -/
theorem writes_forM {f : α → Write} {wire : α → Bytes} {as : List α}
    (h : ∀ a, Writes (f a) (wire a)) : Writes (as.forM f) (as.flatMap wire) := by
  induction as with
  | nil => exact writes_pure
  | cons a as ih => exact (h a).bind ih

end Write

end PacketWire
