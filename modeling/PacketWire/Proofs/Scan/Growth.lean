import PacketWire.Proofs.Scan.Found

namespace PacketWire

/-!
# Scans on longer inputs

A buffer grows and is scanned again, so what a scan makes of an input has to agree with what it
makes of the same input with more bytes behind it.

* `Scan.Grows` — the agreement: a fault stays, and so does a value that is complete; a value that
  is cut by the end of the input goes on as its `Growth` tells.
* `Scan.Settles` — the case without values that can be cut, which is that of all scans but
  those for values of announced length.
* `Scan.Grows.bind` — scans in a row agree if each of them does, at the bytes it comes to.
-/

/-- How the values of some type go on: nothing for a complete one, and for one that has been cut
    what becomes of it, and how many bytes it takes, when more bytes are there. -/
abbrev Growth (α : Type) : Type := α → Option (Bytes → α × Nat)

namespace Growth

variable {α : Type}

/-- Nothing is ever cut. -/
def closed : Growth α := fun _ => none

/-- A value that may be missing goes on if it is there. -/
def option (g : Growth α) : Growth (Option α)
  | none => none
  | some a => (g a).map fun go more => (some (go more).1, (go more).2)

/-- A value that comes with the number of bytes taken for it goes on with this number. -/
def measured (g : Growth α) : Growth (α × Nat) := fun (a, n) =>
  (g a).map fun go more => (((go more).1, n + (go more).2), (go more).2)

end Growth

namespace Scan

variable {κ α β : Type} {scan : Scan κ α} {next : α → Scan κ β} {input : Bytes}

/-! ### The agreement -/

/-- A scan agrees on an input and on every longer one. -/
structure Grows (g : Growth α) (scan : Scan κ α) (input : Bytes) : Prop where
  /-- No bytes are taken that are not there. -/
  used_le : ∀ {a n}, scan input = .done a n → n ≤ input.length
  /-- A complete value is found again. -/
  complete : ∀ {a n}, scan input = .done a n → g a = none →
    ∀ more, scan (input ++ more) = .done a n
  /-- A value that was cut has taken all bytes, and goes on. -/
  cut : ∀ {a n go}, scan input = .done a n → g a = some go →
    n = input.length ∧ ∀ more, scan (input ++ more) = .done (go more).1 (n + (go more).2)
  /-- A fault is met again. -/
  fault : ∀ {f}, scan input = .fault f → ∀ more, scan (input ++ more) = .fault f

/-- A scan makes the same of an input and of every longer one, unless it asks for more. -/
abbrev Settles (scan : Scan κ α) (input : Bytes) : Prop := Grows .closed scan input

/-- A value that is settled is found in longer inputs too. -/
theorem Settles.done (h : Settles scan input) {a : α} {n : Nat} (hs : scan input = .done a n)
    (more : Bytes) : scan (input ++ more) = .done a n := h.complete hs rfl more

/-- Where more is asked for, there is nothing to agree on. -/
theorem grows_of_more {g : Growth α} (h : scan input = .more) : Grows g scan input where
  used_le hs := by rw [h] at hs; cases hs
  complete hs := by rw [h] at hs; cases hs
  cut hs := by rw [h] at hs; cases hs
  fault hs := by rw [h] at hs; cases hs

/-- A scan that fails in every longer input alike grows. -/
theorem grows_of_fault {g : Growth α} {f : Fault κ} (h : scan input = .fault f)
    (hmore : ∀ more, scan (input ++ more) = .fault f) : Grows g scan input where
  used_le hs := by rw [h] at hs; cases hs
  complete hs := by rw [h] at hs; cases hs
  cut hs := by rw [h] at hs; cases hs
  fault hs more := by rw [h] at hs; cases hs; exact hmore more

/-- A scan that is done grows if its value stays, or goes on as it should. -/
theorem grows_of_done {g : Growth α} {a : α} {n : Nat} (h : scan input = .done a n)
    (hle : n ≤ input.length) (hcomplete : g a = none → ∀ more, scan (input ++ more) = .done a n)
    (hcut : ∀ {go}, g a = some go →
      n = input.length ∧ ∀ more, scan (input ++ more) = .done (go more).1 (n + (go more).2)) :
    Grows g scan input where
  used_le hs := by rw [h] at hs; cases hs; exact hle
  complete hs hc := by rw [h] at hs; cases hs; exact hcomplete hc
  cut hs hc := by rw [h] at hs; cases hs; exact hcut hc
  fault hs := by rw [h] at hs; cases hs

/-- A scan that is done alike in every longer input settles. -/
theorem settles_of_done {a : α} {n : Nat} (h : scan input = .done a n) (hle : n ≤ input.length)
    (hmore : ∀ more, scan (input ++ more) = .done a n) : Settles scan input :=
  grows_of_done h hle (fun _ => hmore) fun hc => by cases hc

/-- Scans in a row agree if each does, at the bytes that it comes to. -/
theorem Grows.bind {g : Growth β} (h : Settles scan input)
    (hn : ∀ {a n}, scan input = .done a n → Grows g (next a) (input.drop n)) :
    Grows g (scan >>= next) input := by
  cases hs : scan input with
  | more => exact grows_of_more (bind_of_more hs)
  | fault f => exact grows_of_fault (bind_of_fault hs) fun more => bind_of_fault (h.fault hs more)
  | done a n =>
    have hle := h.used_le hs
    have hg := hn hs
    -- what comes behind `a` starts at the same byte of the longer input
    have hmore : ∀ more, (scan >>= next) (input ++ more) =
        (next a (input.drop n ++ more)).shift n := fun more => by
      rw [bind_of_done (h.done hs more), List.drop_append_of_le_length hle]
    cases hb : next a (input.drop n) with
    | more => exact grows_of_more (by rw [bind_of_done hs, hb]; rfl)
    | fault f =>
      refine grows_of_fault (by rw [bind_of_done hs, hb]; rfl) fun more => ?_
      rw [hmore, hg.fault hb more]
      rfl
    | done b k =>
      have hk := hg.used_le hb
      rw [List.length_drop] at hk
      refine grows_of_done (by rw [bind_of_done hs, hb]; rfl) (by omega)
        (fun hc more => ?_) fun hc => ?_
      · rw [hmore, hg.complete hb hc more]
        rfl
      · obtain ⟨hlen, hgo⟩ := hg.cut hb hc
        rw [List.length_drop] at hlen
        refine ⟨by omega, fun more => ?_⟩
        rw [hmore, hgo more, Outcome.shift, Nat.add_assoc]

/-- A scan and what is made of its value agree alike, if what is made of a value that goes on is
    what the value goes on to. -/
theorem Grows.map {g : Growth α} {g' : Growth β} {f : α → β} (h : Grows g scan input)
    (hf : ∀ a, g' (f a) = (g a).map fun go more => (f (go more).1, (go more).2)) :
    Grows g' (do return f (← scan)) input := by
  have hmap : ∀ {i a n}, scan i = .done a n → (do return f (← scan)) i = .done (f a) n :=
    fun hs => bind_of_done hs
  cases hs : scan input with
  | more => exact grows_of_more (bind_of_more hs)
  | fault f => exact grows_of_fault (bind_of_fault hs) fun more => bind_of_fault (h.fault hs more)
  | done a n =>
    refine grows_of_done (hmap hs) (h.used_le hs) (fun hc more => ?_) fun hc => ?_
    · rw [hf, Option.map_eq_none_iff] at hc
      exact hmap (h.complete hs hc more)
    · rw [hf] at hc
      obtain ⟨go, hgo, rfl⟩ := Option.map_eq_some_iff.1 hc
      obtain ⟨hn, hmore⟩ := h.cut hs hgo
      exact ⟨hn, fun more => hmap (hmore more)⟩

/-- What a scan has taken is what is measured. -/
theorem measured_of_done {a : α} {n : Nat} (h : scan input = .done a n) :
    scan.measured input = .done (a, n) n := by
  rw [Scan.measured, h]

/-- The number of bytes that were taken grows with the value. -/
theorem Grows.measured {g : Growth α} (h : Grows g scan input) :
    Grows g.measured scan.measured input := by
  cases hs : scan input with
  | more => exact grows_of_more (by rw [Scan.measured, hs])
  | fault f =>
    refine grows_of_fault (f := f) (by rw [Scan.measured, hs]) fun more => ?_
    rw [Scan.measured, h.fault hs more]
  | done a n =>
    refine grows_of_done (measured_of_done hs) (h.used_le hs) (fun hc more => ?_) fun hc => ?_
    · rw [Growth.measured, Option.map_eq_none_iff] at hc
      exact measured_of_done (h.complete hs hc more)
    · obtain ⟨go, hgo, rfl⟩ := Option.map_eq_some_iff.1 hc
      obtain ⟨hn, hmore⟩ := h.cut hs hgo
      exact ⟨hn, fun more => measured_of_done (hmore more)⟩

/-! ### Scans without values that can be cut -/

/-- A value that was given without looking stays. -/
theorem grows_pure {g : Growth α} {a : α} (h : g a = none) : Grows g (pure a : Scan κ α) input :=
  grows_of_done rfl (Nat.zero_le _) (fun _ _ => rfl) fun hc => by rw [h] at hc; cases hc

/-- A value that was given without looking is settled. -/
theorem settles_pure (a : α) : Settles (pure a : Scan κ α) input := grows_pure rfl

/-- A fault that was given without looking stays. -/
theorem grows_fault {g : Growth α} (cause : κ) : Grows g (fault cause : Scan κ α) input :=
  grows_of_fault rfl fun _ => rfl

/-- The next byte stays the same. -/
theorem settles_peek : Settles (peek : Scan κ UInt8) input := by
  cases input with
  | nil => exact grows_of_more rfl
  | cons b rest => exact settles_of_done rfl (Nat.zero_le _) fun _ => rfl

/-- The byte after the next one stays the same. -/
theorem settles_peekSecond : Settles (peekSecond : Scan κ UInt8) input := by
  match input with
  | [] => exact grows_of_more rfl
  | [_] => exact grows_of_more rfl
  | _ :: b :: rest => exact settles_of_done rfl (Nat.zero_le _) fun _ => rfl

/-- Bytes that are there are skipped in the longer input, too. -/
theorem settles_skip {n : Nat} (h : n ≤ input.length) :
    Settles (skip n : Scan κ Unit) input := by
  refine settles_of_done (skip_of_le h) h fun more => skip_of_le ?_
  rw [List.length_append]
  omega

/-- What is made of a settled value is settled. -/
theorem Settles.expect {make : α → Option β} {cause : κ} (h : Settles scan input) :
    Settles (expect scan make cause) input := by
  cases hs : scan input with
  | more => exact grows_of_more (by rw [Scan.expect, hs])
  | fault f =>
    refine grows_of_fault (f := f) (by rw [Scan.expect, hs]) fun more => ?_
    rw [Scan.expect, h.fault hs more]
  | done a n =>
    have hmore := h.done hs
    cases hm : make a with
    | none =>
      refine grows_of_fault (f := ⟨cause, 0⟩) (by simp only [Scan.expect, hs, hm]) fun more => ?_
      simp only [Scan.expect, hmore more, hm]
    | some b =>
      refine settles_of_done (a := b) (n := n) (by simp only [Scan.expect, hs, hm])
        (h.used_le hs) fun more => ?_
      simp only [Scan.expect, hmore more, hm]

/-- The size of a settled value is settled. -/
theorem Settles.measured (h : Settles scan input) : Settles scan.measured input := by
  have hg := Grows.measured h
  exact ⟨hg.used_le, fun hs _ => hg.complete hs rfl, fun _ hc => (nomatch hc), hg.fault⟩

/-- A word that something follows ends at the same byte of the longer input. -/
theorem settles_word (class? : UInt8 → Bool) : Settles (word class? : Scan κ Bytes) input := by
  by_cases h : (input.takeWhile class?).length < input.length
  · have hmore : ∀ more, (input ++ more).takeWhile class? = input.takeWhile class? := fun more => by
      rw [List.takeWhile_append, if_neg (by omega)]
    refine settles_of_done (a := input.takeWhile class?) (by rw [word, if_pos h])
      (Nat.le_of_lt h) fun more => ?_
    rw [word, hmore, if_pos (by rw [List.length_append]; omega)]
  · exact grows_of_more (by rw [word, if_neg h])

/-- A keyword with something behind it is settled. -/
theorem settles_keyword : Settles (keyword : Scan κ Bytes) input := settles_word _

/-- A number with something behind it is settled. -/
theorem settles_number : Settles (number : Scan κ Decimal.Reading) input :=
  .bind (settles_word _) fun _ => settles_pure _

/-- A byte has been looked at, so it can be skipped. -/
theorem settles_skip_of_peek {b : UInt8} {n : Nat}
    (h : (peek : Scan κ UInt8) input = .done b n) :
    Settles (skip 1 : Scan κ Unit) (input.drop n) := by
  obtain ⟨rfl, rest, rfl⟩ := peek_eq_done_iff.1 h
  exact settles_skip (by simp)

/-- Whether the next byte is the one that has to come is settled. -/
theorem settles_byte (b : UInt8) (cause : κ) : Settles (byte b cause) input := by
  refine .bind settles_peek fun {a n} hs => ?_
  split
  · exact settles_skip_of_peek hs
  · exact grows_fault _

/-- A line that has ended is settled. -/
theorem settles_line : Settles (line : Scan κ Bytes) input := by
  refine .bind (settles_word _) fun {w n} hs => .bind (settles_skip ?_) fun _ => settles_pure _
  -- a byte follows the word
  obtain ⟨rfl, -, c, rest, -, rfl⟩ := word_eq_done_iff.1 hs
  simp

/-- A byte is skipped in front of a scan that asks for more where there is nothing. -/
theorem settles_skip_bind (hnil : scan [] = .more) (h : Settles scan (input.drop 1)) :
    Settles (do skip 1; scan) input := by
  cases input with
  | nil => exact grows_of_more ((bind_of_done (by rfl)).trans (by simp [hnil, Outcome.shift]))
  | cons b rest =>
    refine .bind (settles_skip (by simp)) fun {_ n} hs => ?_
    obtain rfl : n = 1 := by cases hs; simp
    exact h

/-! ### Values of announced length -/

/-- A part of a value of `n` bytes goes on up to its end. -/
def Portion.growth (n : Nat) : Growth Portion
  | .whole _ => none
  | .part value => some fun more =>
    let missing := n - value.length
    if missing ≤ more.length then (.whole (value ++ more.take missing), missing)
    else (.part (value ++ more), more.length)

/-- A value of announced length grows by the bytes that come. -/
theorem grows_take (n : Nat) : Grows (Portion.growth n) (take n : Scan κ Portion) input := by
  by_cases h : n ≤ input.length
  · refine grows_of_done (a := .whole (input.take n)) (by rw [take, if_pos h]) h
      (fun _ more => ?_) fun hc => by cases hc
    rw [take, List.length_append, if_pos (by omega), List.take_append_of_le_length h]
  · refine grows_of_done (a := .part input) (by rw [take, if_neg h]) (Nat.le_refl _)
      (fun hc => by cases hc) fun hc => ?_
    cases hc
    refine ⟨rfl, fun more => ?_⟩
    rw [take, List.length_append]
    by_cases hm : n - input.length ≤ more.length
    · simp only [if_pos (show n ≤ input.length + more.length by omega), if_pos hm]
      rw [List.take_append, List.take_of_length_le (by omega)]
      exact congrArg _ (by omega)
    · simp only [if_neg (show ¬ n ≤ input.length + more.length by omega), if_neg hm]

/-- The rest of a value grows by the bytes that come. -/
theorem grows_takeOn (n : Nat) : Grows (Portion.growth n) (takeOn n : Scan κ Portion) input := by
  refine .bind settles_peek fun {b k} hs => ?_
  obtain ⟨rfl, -⟩ := peek_eq_done_iff.1 hs
  exact grows_take n

end Scan

end PacketWire
