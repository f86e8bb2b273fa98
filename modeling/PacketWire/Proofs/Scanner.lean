import Mathlib.Data.List.TakeWhile
import PacketWire.Scanner

namespace PacketWire

/-!
# Scanners follow scans

A walk over a buffer follows a scan of the bytes ahead if it gives the same value and goes on by as
many bytes, goes back to the mark where the scan needs more, and meets the same fault at as many
bytes behind its position (`Walk.Follows`). So it does not depend on what is in front of the
position, nor on where in the buffer that is. Each elementary walk follows the scan of its kind, and
walks in a row follow scans in a row (`Walk.Follows.bind`).
-/

variable {σ κ α β : Type}

/-! ### Places -/

namespace Walker

variable {w : Walker σ} {n : Nat}

/-- The bytes from the position on. -/
def ahead (w : Walker σ) : Bytes := w.buffer.drop w.pos

/-- The walker `n` bytes further on. -/
def forward (w : Walker σ) (n : Nat) : Walker σ := { w with pos := w.pos + n }

/-- The walker back at the start of the unit. -/
def rewound (w : Walker σ) : Walker σ := { w with pos := w.mark }

/-- The walker has not gone past the end of the buffer. -/
def IsWithin (w : Walker σ) : Prop := w.pos ≤ w.buffer.length

/-- Going on by nothing changes nothing. -/
@[simp] theorem forward_zero (w : Walker σ) : w.forward 0 = w := rfl

/-- Going on twice is going on by the sum. -/
@[simp] theorem forward_forward (w : Walker σ) (m n : Nat) :
    (w.forward m).forward n = w.forward (m + n) := by
  simp [forward, Nat.add_assoc]

/-- However far it has come, the walker goes back to one place. -/
@[simp] theorem rewound_forward (w : Walker σ) (n : Nat) : (w.forward n).rewound = w.rewound := rfl

/-- What has been gone past is not ahead any more. -/
@[simp] theorem ahead_forward (w : Walker σ) (n : Nat) :
    (w.forward n).ahead = w.ahead.drop n := by
  simp [ahead, forward, List.drop_drop]

/-- So many bytes are ahead as lie between the position and the end. -/
theorem length_ahead (w : Walker σ) : w.ahead.length = w.buffer.length - w.pos :=
  List.length_drop

/-- The byte at the position is the first one ahead. -/
theorem head?_ahead (w : Walker σ) : w.ahead.head? = w.buffer[w.pos]? :=
  List.head?_drop

/-- Going on by bytes that are ahead stays within the buffer. -/
theorem IsWithin.forward (hw : w.IsWithin) (hn : n ≤ w.ahead.length) : (w.forward n).IsWithin := by
  rw [length_ahead] at hn
  exact show w.pos + n ≤ w.buffer.length from by
    have hpos : w.pos ≤ w.buffer.length := hw
    omega

end Walker

/-! ### Following a scan -/

namespace Walk

/-- What a walk has come to from `w` is what a scan of the bytes ahead of `w` tells. -/
inductive Tracks (w : Walker σ) :
    EStateM.Result (Halt κ) (Walker σ) α → Outcome κ α → Prop where
  /-- The same value, as many bytes further on. -/
  | done {a : α} {n : Nat} : n ≤ w.ahead.length → Tracks w (.ok a (w.forward n)) (.done a n)
  /-- Both need more, and the unit will be read again from its start. -/
  | more : Tracks w (.error .more w.rewound) .more
  /-- The same fault; its place is counted from the start of the buffer. -/
  | fault {f : Fault κ} {v : Walker σ} : v.state = w.state →
      Tracks w (.error (.fault (f.shift w.pos)) v) (.fault f)

/-- Wherever a walk starts, it does what the scan tells it of the bytes ahead. -/
def Follows (walk : Walk σ κ α) (scan : Scan κ α) : Prop :=
  ∀ w, w.IsWithin → Tracks w (walk w) (scan w.ahead)

section

variable {w : Walker σ} {n : Nat} {walk : Walk σ κ α} {scan : Scan κ α}

/-- What a walk has come to from further on. -/
theorem Tracks.shift {r : EStateM.Result (Halt κ) (Walker σ) α} {o : Outcome κ α}
    (h : Tracks (w.forward n) r o) (hn : n ≤ w.ahead.length) : Tracks w r (o.shift n) := by
  cases h with
  | @done a k hk =>
    rw [Walker.ahead_forward, List.length_drop] at hk
    rw [Walker.forward_forward]
    exact .done (by omega)
  | more => exact .more
  | @fault f v hv =>
    rw [show f.shift (w.forward n).pos = (f.shift n).shift w.pos from
      (Fault.shift_shift _ _ f).symm]
    exact .fault hv

/-- What is made of the value that a walk has come to. -/
theorem Tracks.bind_pure {a : α} (h : Tracks w (walk w) (.done a n)) (f : α → β) :
    Tracks w ((do return f (← walk) : Walk σ κ β) w) (.done (f a) n) := by
  show Tracks w (EStateM.bind walk _ w) _
  unfold EStateM.bind
  generalize walk w = r at h
  cases h with
  | done hn => exact .done hn

/-- A walk that gives a value where it stands. -/
theorem follows_pure (a : α) : Follows (pure a : Walk σ κ α) (pure a) :=
  fun _ _ => .done (Nat.zero_le _)

/-- Walks in a row follow scans in a row. -/
theorem Follows.bind {next : α → Walk σ κ β} {scanNext : α → Scan κ β} (h : Follows walk scan)
    (hnext : ∀ a, Follows (next a) (scanNext a)) : Follows (walk >>= next) (scan >>= scanNext) := by
  intro w hw
  have htracks := h w hw
  rw [Scan.bind_apply]
  show Tracks w (EStateM.bind walk next w) _
  unfold EStateM.bind
  generalize walk w = r at htracks
  generalize scan w.ahead = o at htracks
  cases htracks with
  | @done a n hn =>
    have hrest := hnext a (w.forward n) (hw.forward hn)
    rw [Walker.ahead_forward] at hrest
    exact hrest.shift hn
  | more => exact .more
  | fault hv => exact .fault hv

/-- The end of a walk that makes something of what it gives. -/
theorem Follows.bind_pure (h : Follows walk scan) (f : α → β) :
    Follows (do return f (← walk)) (do return f (← scan)) :=
  h.bind fun a => follows_pure (f a)

/-- Walks in a row, whose last value something is made of, follow scans in a row. -/
theorem Follows.bind_map {γ : Type} {next : α → Walk σ κ β} {f : β → γ} {scanNext : α → Scan κ γ}
    (h : Follows walk scan) (hnext : ∀ a, Follows (f <$> next a) (scanNext a)) :
    Follows (f <$> (walk >>= next)) (scan >>= scanNext) := by
  rw [map_bind]
  exact h.bind hnext

/-- Walks and scans that branch alike. -/
theorem Follows.ite {c : Prop} [Decidable c] {other : Walk σ κ α} {scanOther : Scan κ α}
    (h : Follows walk scan) (hother : Follows other scanOther) :
    Follows (if c then walk else other) (if c then scan else scanOther) := by
  by_cases hc : c
  · rw [if_pos hc, if_pos hc]
    exact h
  · rw [if_neg hc, if_neg hc]
    exact hother

/-! ### Faults -/

/-- Going back to the mark is what needing more comes to. -/
theorem follows_needMore : Follows (needMore : Walk σ κ α) Scan.more := fun _ _ => .more

/-- A fault at a place ahead. -/
theorem failAt_tracks (w : Walker σ) (cause : κ) (offset : Nat) :
    Tracks w ((failAt cause (w.pos + offset) : Walk σ κ α) w) (.fault ⟨cause, offset⟩) :=
  @Tracks.fault σ κ α w ⟨cause, offset⟩ w rfl

/-- A fault at the position is one at the first byte ahead. -/
theorem follows_fail (cause : κ) : Follows (fail cause : Walk σ κ α) (Scan.fault cause) :=
  fun w _ => failAt_tracks w cause 0

/-- What is expected of a scan is expected of the walk, and the fault lies where both started. -/
theorem Follows.expect (h : Follows walk scan) (make : α → Option β) (cause : κ) :
    Follows (expect walk make cause) (scan.expect make cause) := by
  intro w hw
  have htracks := h w hw
  show Tracks w (EStateM.bind walk _ w) _
  unfold EStateM.bind Scan.expect
  generalize walk w = r at htracks
  generalize scan w.ahead = o at htracks
  cases htracks with
  | @done a n hn =>
    dsimp only
    cases make a with
    | some b => exact .done hn
    | none => exact @Tracks.fault σ κ β w ⟨cause, 0⟩ (w.forward n) rfl
  | more => exact .more
  | fault hv => exact .fault hv

/-- The difference of the places is what the scan has taken. -/
theorem Follows.measured (h : Follows walk scan) : Follows (measured walk) scan.measured := by
  intro w hw
  have htracks := h w hw
  show Tracks w (EStateM.bind walk _ w) _
  unfold EStateM.bind Scan.measured
  generalize walk w = r at htracks
  generalize scan w.ahead = o at htracks
  cases htracks with
  | @done a n hn =>
    show Tracks w (.ok (a, w.pos + n - w.pos) (w.forward n)) (.done (a, n) n)
    rw [Nat.add_sub_cancel_left]
    exact .done hn
  | more => exact .more
  | fault hv => exact .fault hv

end

/-! ### Single bytes -/

/-- Looking at the position is looking at the first byte ahead. -/
theorem follows_peek? : Follows (peek? : Walk σ κ _) Scan.peek? := by
  intro w _
  show Tracks w (.ok w.buffer[w.pos]? (w.forward 0)) (.done w.ahead.head? 0)
  rw [w.head?_ahead]
  exact .done (Nat.zero_le _)

/-- The byte at some place ahead is looked at where it stands. -/
theorem byteAt_apply (w : Walker σ) (offset : Nat) :
    (byteAt offset : Walk σ κ UInt8) w =
      match w.ahead[offset]? with
      | some b => .ok b w
      | none => .error .more w.rewound := by
  have hget : w.ahead[offset]? = w.buffer[w.pos + offset]? := List.getElem?_drop
  rw [hget]
  show (match w.buffer[w.pos + offset]? with
    | some b => pure b
    | none => needMore : Walk σ κ UInt8) w = _
  cases w.buffer[w.pos + offset]? <;> rfl

/-- The next byte is the first one ahead. -/
theorem follows_byte : Follows (byte : Walk σ κ UInt8) Scan.peek := by
  intro w _
  unfold byte Scan.peek
  rw [byteAt_apply]
  cases w.ahead with
  | nil => exact .more
  | cons b rest => exact .done (Nat.zero_le _)

/-- The byte one place further on is the second one ahead. -/
theorem follows_byteAt_one : Follows (byteAt 1 : Walk σ κ UInt8) Scan.peekSecond := by
  intro w _
  unfold Scan.peekSecond
  rw [byteAt_apply]
  match w.ahead with
  | [] => exact .more
  | [_] => exact .more
  | _ :: _ :: _ => exact .done (Nat.zero_le _)

/-- Neither goes beyond the last byte. -/
theorem follows_skip (n : Nat) : Follows (skip n : Walk σ κ Unit) (Scan.skip n) := by
  intro w hw
  have hplace : min (w.pos + n) w.buffer.length = w.pos + min n w.ahead.length := by
    have hpos : w.pos ≤ w.buffer.length := hw
    rw [w.length_ahead]
    omega
  show Tracks w (.ok () { w with pos := min (w.pos + n) w.buffer.length }) _
  rw [hplace]
  exact .done (Nat.min_le_right _ _)

/-- Going past a byte that something must follow. -/
theorem advance_apply (w : Walker σ) :
    (advance : Walk σ κ Unit) w =
      if w.buffer.length ≤ w.pos + 1 then .error .more w.rewound else .ok () (w.forward 1) := by
  show (if w.buffer.length ≤ w.pos + 1 then needMore else pure () : Walk σ κ Unit) (w.forward 1) = _
  split <;> rfl

/-- A byte that has to come is looked at first and taken then. -/
theorem follows_expectByte (b : UInt8) (cause : κ) :
    Follows (expectByte b cause : Walk σ κ Unit) (Scan.byte b cause) :=
  follows_byte.bind fun _ => (follows_skip 1).ite (follows_fail cause)

/-! ### Words and numbers -/

/-- The end of a word lies behind the bytes of the class. -/
theorem endOf_eq (class? : UInt8 → Bool) (buffer : Bytes) (place : Nat) :
    endOf class? buffer place = place + ((buffer.drop place).takeWhile class?).length := by
  fun_induction endOf class? buffer place with
  | case1 place h hclass ih =>
    rw [ih, List.drop_eq_getElem_cons h, List.takeWhile_cons_of_pos hclass, List.length_cons]
    omega
  | case2 place h hclass =>
    rw [List.drop_eq_getElem_cons h, List.takeWhile_cons_of_neg hclass, List.length_nil,
      Nat.add_zero]
  | case3 place h =>
    rw [List.drop_of_length_le (Nat.le_of_not_lt h), List.takeWhile_nil, List.length_nil,
      Nat.add_zero]

/-- Going to a place that is not beyond the end takes the bytes in between. -/
theorem takeTo_tracks (w : Walker σ) {n : Nat} (hn : n ≤ w.ahead.length) :
    Tracks w ((takeTo (w.pos + n) : Walk σ κ Bytes) w) (.done (w.ahead.take n) n) := by
  have hbytes : w.buffer.extract w.pos (w.pos + n) = w.ahead.take n := by
    rw [List.extract_eq_take_drop, Nat.add_sub_cancel_left]
    rfl
  show Tracks w (.ok (w.buffer.extract w.pos (w.pos + n)) (w.forward n)) _
  rw [hbytes]
  exact .done hn

/-- The bytes of a class at the front are told by their number. -/
theorem takeWhile_eq_take (class? : UInt8 → Bool) (input : Bytes) :
    input.take (input.takeWhile class?).length = input.takeWhile class? :=
  (List.prefix_iff_eq_take.1 (List.takeWhile_prefix class?)).symm

/-- A word is found byte by byte from the position on, and that is what can be taken of the class.
    -/
theorem follows_wordOrEnd (class? : UInt8 → Bool) :
    Follows (wordOrEnd class? : Walk σ κ Bytes) (Scan.wordOrEnd class?) := by
  intro w _
  have hle : (w.ahead.takeWhile class?).length ≤ w.ahead.length :=
    (List.takeWhile_prefix class?).length_le
  have htracks := takeTo_tracks (κ := κ) w hle
  rw [takeWhile_eq_take] at htracks
  show Tracks w ((takeTo (endOf class? w.buffer w.pos) : Walk σ κ Bytes) w) _
  rw [endOf_eq]
  exact htracks

/-- A word has an end inside the buffer if not all bytes ahead are in the class. -/
theorem follows_word (class? : UInt8 → Bool) :
    Follows (word class? : Walk σ κ Bytes) (Scan.word class?) := by
  intro w hw
  have hpos : w.pos ≤ w.buffer.length := hw
  -- The word ends inside the buffer just if it is shorter than what is ahead.
  have hends : endOf class? w.buffer w.pos < w.buffer.length ↔
      (w.ahead.takeWhile class?).length < w.ahead.length := by
    rw [endOf_eq, w.length_ahead]
    exact Nat.lt_sub_iff_add_lt'.symm
  have htracks := follows_wordOrEnd (κ := κ) class? w hw
  show Tracks w ((if endOf class? w.buffer w.pos < w.buffer.length then
    takeTo (endOf class? w.buffer w.pos) else needMore : Walk σ κ Bytes) w) _
  unfold Scan.word
  by_cases h : (w.ahead.takeWhile class?).length < w.ahead.length
  · rw [if_pos (hends.2 h)]
    dsimp only
    rw [if_pos h]
    exact htracks
  · rw [if_neg (mt hends.1 h)]
    dsimp only
    rw [if_neg h]
    exact .more

/-- Keywords are the words of one class. -/
theorem follows_keyword : Follows (keyword : Walk σ κ Bytes) Scan.keyword :=
  follows_word Byte.isKeyword

/-- Keywords are the words of one class, also at the end of the buffer. -/
theorem follows_keywordOrEnd : Follows (keywordOrEnd : Walk σ κ Bytes) Scan.keywordOrEnd :=
  follows_wordOrEnd Byte.isKeyword

/-- Digits are the words of another class, and are read alike. -/
theorem follows_number : Follows (number : Walk σ κ Decimal.Reading) Scan.number :=
  (follows_word Byte.isDigit).bind_pure Decimal.read

/-- Digits are read alike, also at the end of the buffer. -/
theorem follows_numberOrEnd : Follows (numberOrEnd : Walk σ κ Decimal.Reading) Scan.numberOrEnd :=
  (follows_wordOrEnd Byte.isDigit).bind_pure Decimal.read

/-! ### Values -/

/-- The place of a byte is behind the bytes that are not the byte, if these are not all. -/
theorem idxOf?_eq (stop : UInt8) (input : Bytes) :
    input.idxOf? stop =
      if (input.takeWhile (· != stop)).length < input.length then
        some (input.takeWhile (· != stop)).length
      else none := by
  induction input with
  | nil => rfl
  | cons b rest ih =>
    rw [List.idxOf?_cons]
    by_cases hb : b = stop
    · rw [if_pos (beq_iff_eq.2 hb), List.takeWhile_cons_of_neg (by simpa using hb)]
      exact (if_pos (Nat.zero_lt_succ _)).symm
    · rw [if_neg (by simpa using hb), List.takeWhile_cons_of_pos (by simpa using hb), ih]
      simp only [List.length_cons, Nat.add_lt_add_iff_right]
      split <;> rfl

/-- The stop is looked for in the bytes ahead. -/
theorem upTo_eq (stop : UInt8) (w : Walker σ) :
    (upTo stop : Walk σ κ Bytes) w =
      ((w.ahead.idxOf? stop).elim needMore fun n => takeTo (w.pos + n) : Walk σ κ Bytes) w := by
  unfold upTo Walker.ahead
  dsimp only [bind, EStateM.bind, get, getThe, MonadStateOf.get, EStateM.get]
  cases (w.buffer.drop w.pos).idxOf? stop <;> rfl

/-- Looking for the stop finds it behind all bytes that are not the stop. -/
theorem follows_upTo (stop : UInt8) : Follows (upTo stop : Walk σ κ Bytes) (Scan.upTo stop) := by
  intro w _
  rw [upTo_eq, idxOf?_eq]
  unfold Scan.upTo Scan.word
  dsimp only
  split
  · next h =>
    have htracks := takeTo_tracks (κ := κ) w (Nat.le_of_lt h)
    rw [takeWhile_eq_take] at htracks
    exact htracks
  · exact .more

/-- All bytes ahead may be taken. -/
theorem takeTo_end_tracks {w : Walker σ} (hw : w.IsWithin) :
    Tracks w ((takeTo w.buffer.length : Walk σ κ Bytes) w) (.done w.ahead w.ahead.length) := by
  have hpos : w.pos ≤ w.buffer.length := hw
  have hend : w.buffer.length = w.pos + w.ahead.length := by
    rw [w.length_ahead]
    omega
  have htracks := takeTo_tracks (κ := κ) w (Nat.le_refl w.ahead.length)
  rwa [List.take_length, ← hend] at htracks

/-- What is taken in front of a stop or the end, and whether the stop has come. -/
theorem upToOrEnd_apply (stop : Option UInt8) (input : Bytes) :
    (Scan.upToOrEnd stop : Scan κ (Bytes × Bool)) input =
      let taken := input.takeWhile fun b => some b != stop
      .done (taken, decide (taken.length < input.length)) taken.length := by
  have hstop : ∀ n, (input.drop n).head?.isSome = decide (n < input.length) := fun n => by
    rw [Bool.eq_iff_iff, List.head?_drop]
    simp
  show Outcome.shift _ (.done (_, (input.drop _).head?.isSome) 0) = _
  rw [hstop]
  rfl

/-- A stop is looked for in the bytes ahead, if there may be one. -/
theorem upToOrEnd_eq (stop : Option UInt8) (w : Walker σ) :
    (upToOrEnd stop : Walk σ κ (Bytes × Bool)) w =
      ((stop.bind fun b => w.ahead.idxOf? b).elim
        (do return (← takeTo w.buffer.length, false))
        fun n => do return (← takeTo (w.pos + n), true) : Walk σ κ (Bytes × Bool)) w := by
  unfold upToOrEnd Walker.ahead
  dsimp only [bind, EStateM.bind, get, getThe, MonadStateOf.get, EStateM.get]
  cases stop.bind fun b => (w.buffer.drop w.pos).idxOf? b <;> rfl

/-- Where there is no stop, all bytes ahead are taken. -/
theorem follows_upToOrEnd (stop : Option UInt8) :
    Follows (upToOrEnd stop : Walk σ κ (Bytes × Bool)) (Scan.upToOrEnd stop) := by
  intro w hw
  rw [upToOrEnd_eq, upToOrEnd_apply]
  -- With nothing to stop at, all bytes are in the class, and all that is ahead is taken.
  cases stop with
  | none =>
    have hall : (w.ahead.takeWhile fun b => some b != none) = w.ahead :=
      List.takeWhile_eq_self_iff.2 fun _ _ => rfl
    rw [hall]
    dsimp only
    rw [decide_eq_false (Nat.lt_irrefl _)]
    exact (takeTo_end_tracks hw).bind_pure (·, false)
  | some stop =>
    have hclass : (fun b => some b != some stop) = (· != stop) := funext fun _ => rfl
    rw [hclass]
    dsimp only [Option.bind]
    rw [idxOf?_eq]
    by_cases h : (w.ahead.takeWhile (· != stop)).length < w.ahead.length
    · have htracks := takeTo_tracks (κ := κ) w (Nat.le_of_lt h)
      rw [takeWhile_eq_take] at htracks
      rw [if_pos h, decide_eq_true h]
      exact htracks.bind_pure (·, true)
    · have hall : w.ahead.takeWhile (· != stop) = w.ahead :=
        (List.takeWhile_prefix _).eq_of_length_le (Nat.le_of_not_lt h)
      rw [if_neg h, decide_eq_false h, hall]
      exact (takeTo_end_tracks hw).bind_pure (·, false)

/-- A value is whole if so many bytes are ahead, and otherwise all of them are part of it. -/
theorem follows_take (n : Nat) : Follows (take n : Walk σ κ Scan.Portion) (Scan.take n) := by
  intro w hw
  show Tracks w ((if n ≤ w.buffer.length - w.pos then do return .whole (← takeTo (w.pos + n))
    else do return .part (← takeTo w.buffer.length) : Walk σ κ Scan.Portion) w) _
  rw [← w.length_ahead]
  unfold Scan.take
  split
  · next h => exact (takeTo_tracks w h).bind_pure Scan.Portion.whole
  · exact (takeTo_end_tracks hw).bind_pure Scan.Portion.part

/-- A value goes on only if something is ahead. -/
theorem follows_takeOn (n : Nat) : Follows (takeOn n : Walk σ κ Scan.Portion) (Scan.takeOn n) := by
  intro w hw
  show Tracks w ((if w.buffer.length ≤ w.pos then needMore else take n :
    Walk σ κ Scan.Portion) w) _
  unfold Scan.takeOn
  rw [Scan.bind_apply]
  by_cases h : w.buffer.length ≤ w.pos
  · have hnil : w.ahead = [] := List.drop_of_length_le h
    rw [if_pos h, hnil]
    exact .more
  · obtain ⟨b, rest, hcons⟩ : ∃ b rest, w.ahead = b :: rest :=
      ⟨_, _, List.drop_eq_getElem_cons (Nat.lt_of_not_le h)⟩
    have htake := follows_take (κ := κ) n w hw
    rw [if_neg h]
    rw [hcons] at htake ⊢
    dsimp only [Scan.peek, List.drop_zero]
    rw [Outcome.shift_zero]
    exact htake

end Walk

end PacketWire
