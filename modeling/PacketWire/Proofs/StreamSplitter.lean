import PacketWire.StreamSplitter

namespace PacketWire

/-!
# The chunks of a split stream

Whatever is drawn, a splitter divides a stream into chunks that are not empty and not too long
(`isDivision_of_split`), and so it does with one stream after the other (`streams_are_divided`). The
bound comes from how a number is made of a draw, which is the same in words of 64 bits as in numbers
(`pick?_eq_pickWord?`). A split that gives nothing would go on drawing forever
(`drawn?_of_split_eq_none`).
-/

namespace Keystream

/-- After whole periods the draws come again. -/
theorem draw_add_mul_period (key : Key) (n m : Nat) :
    draw key (n + m * period) = draw key n := by
  have hperiod : m * period = 8 * (m * UInt64.size) := Nat.mul_left_comm ..
  have hmod : (n + m * period) % 8 = n % 8 := by
    rw [hperiod, Nat.add_mul_mod_self_left]
  -- the counter of blocks has gone round
  have hdiv : ((n + m * period) / 8).toUInt64 = (n / 8).toUInt64 := by
    rw [hperiod, Nat.add_mul_div_left _ _ (by decide)]
    apply UInt64.toNat_inj.1
    rw [UInt64.toNat_ofNat', UInt64.toNat_ofNat']
    exact Nat.add_mul_mod_self_right ..
  simp only [draw, hmod, hdiv]

end Keystream

namespace StreamSplitter

/-! ### A number from a draw -/

/-- The number below `range` from a draw, in words. Of their product, which has 128 bits, the high
    word is the number, if the low word is in the zone. The zone ends in front of the range shifted
    to the left by its leading zeros. -/
def pickWord? (range draw : UInt64) : Option UInt64 :=
  let zone := (range.toBitVec <<< range.toBitVec.clz) - 1#64
  let product := draw.toBitVec.setWidth 128 * range.toBitVec.setWidth 128
  if product.setWidth 64 ≤ zone then some (.ofBitVec (product.extractLsb' 64 64)) else none

section Draw

variable {range draw : UInt64}

/-- A number that is picked is below the range. -/
theorem lt_of_pick? {range n : Nat} (h : pick? range draw = some n) : n < range := by
  rw [pick?] at h
  split at h
  · next hlow =>
    cases h
    -- nothing is below zero, so the range is not empty
    have hrange : 0 < range := by
      refine Nat.pos_of_ne_zero fun hzero => ?_
      subst hzero
      rw [Nat.zero_shiftLeft] at hlow
      exact Nat.not_lt_zero _ hlow
    exact Nat.div_lt_of_lt_mul (Nat.mul_lt_mul_of_pos_right draw.toNat_lt_size hrange)
  · cases h

/-- Leading zeros come in front of the highest bit that is set. -/
theorem toNat_clz (h : 0 < range.toNat) : range.toBitVec.clz.toNat = 63 - range.toNat.log2 := by
  have hne : range.toBitVec ≠ 0#64 := fun hzero =>
    Nat.ne_of_gt h (congrArg BitVec.toNat hzero)
  have hle : 2 ^ (63 - range.toBitVec.clz.toNat) ≤ range.toNat :=
    BitVec.two_pow_sub_clz_le_toNat_of_ne_zero (by decide) hne
  have hlt : range.toNat < 2 ^ (64 - range.toBitVec.clz.toNat) := BitVec.toNat_lt_two_pow_sub_clz
  have hbits : range.toBitVec.clz.toNat < 64 := BitVec.clz_lt_iff_ne_zero.2 hne
  have hlog := (Nat.le_log2 (Nat.ne_of_gt h)).2 hle
  have hlog' := (Nat.log2_lt (Nat.ne_of_gt h)).2 hlt
  omega

/-- The range that is shifted to the left is still one of 64 bits. -/
theorem shiftLeft_bounds (h : 0 < range.toNat) :
    0 < range.toNat <<< (63 - range.toNat.log2) ∧
      range.toNat <<< (63 - range.toNat.log2) < UInt64.size := by
  have hlog : range.toNat.log2 < 64 := (Nat.log2_lt (Nat.ne_of_gt h)).2 range.toNat_lt_size
  have hsum : range.toNat.log2 + 1 + (63 - range.toNat.log2) = 64 := by omega
  rw [Nat.shiftLeft_eq]
  refine ⟨Nat.mul_pos h (Nat.two_pow_pos _), ?_⟩
  calc range.toNat * 2 ^ (63 - range.toNat.log2)
      < 2 ^ (range.toNat.log2 + 1) * 2 ^ (63 - range.toNat.log2) :=
        Nat.mul_lt_mul_of_pos_right Nat.lt_log2_self (Nat.two_pow_pos _)
    _ = UInt64.size := by rw [← Nat.pow_add, hsum]

/-- The zone in words is the range, shifted up as far as a word goes, less one. -/
theorem toNat_zone (h : 0 < range.toNat) :
    ((range.toBitVec <<< range.toBitVec.clz) - 1#64).toNat =
      range.toNat <<< (63 - range.toNat.log2) - 1 := by
  obtain ⟨hpos, hlt⟩ := shiftLeft_bounds h
  have hshift : (range.toBitVec <<< range.toBitVec.clz).toNat =
      range.toNat <<< (63 - range.toNat.log2) := by
    rw [BitVec.shiftLeft_eq', BitVec.toNat_shiftLeft, toNat_clz h, UInt64.toNat_toBitVec]
    exact Nat.mod_eq_of_lt hlt
  rw [BitVec.toNat_sub_of_le, hshift]
  · rfl
  · rw [BitVec.le_def, hshift]
    exact hpos

/-- The product of two words has 128 bits at most. -/
theorem mul_lt_size (range draw : UInt64) :
    draw.toNat * range.toNat < UInt64.size * UInt64.size :=
  Nat.mul_lt_mul'' draw.toNat_lt_size range.toNat_lt_size

/-- So multiplying in 128 bits loses nothing. -/
theorem toNat_product (range draw : UInt64) :
    (draw.toBitVec.setWidth 128 * range.toBitVec.setWidth 128).toNat =
      draw.toNat * range.toNat := by
  rw [BitVec.toNat_mul, BitVec.toNat_setWidth_of_le (by decide),
    BitVec.toNat_setWidth_of_le (by decide)]
  exact Nat.mod_eq_of_lt (mul_lt_size range draw)

/-- Numbers are made of draws in words as they are in numbers of any size: no shift, product or
    difference goes beyond its words. -/
theorem pick?_eq_pickWord? (h : 0 < range) :
    pick? range.toNat draw = (pickWord? range draw).map UInt64.toNat := by
  have hpos : 0 < range.toNat := UInt64.lt_iff_toNat_lt.1 h
  obtain ⟨hshift, -⟩ := shiftLeft_bounds hpos
  have hproduct := toNat_product range draw
  have hzone := toNat_zone hpos
  simp only [pick?, pickWord?]
  generalize draw.toBitVec.setWidth 128 * range.toBitVec.setWidth 128 = product at hproduct ⊢
  generalize (range.toBitVec <<< range.toBitVec.clz) - 1#64 = zone at hzone ⊢
  -- The low word tells whether the draw counts, and the high word is the number.
  have hin : product.setWidth 64 ≤ zone ↔
      draw.toNat * range.toNat % UInt64.size < range.toNat <<< (63 - range.toNat.log2) := by
    rw [BitVec.le_def, BitVec.toNat_setWidth, hproduct, hzone]
    exact Nat.le_sub_one_iff_lt hshift
  have hhigh : (product.extractLsb' 64 64).toNat = draw.toNat * range.toNat / UInt64.size := by
    rw [BitVec.extractLsb'_toNat, hproduct, Nat.shiftRight_eq_div_pow]
    exact Nat.mod_eq_of_lt (Nat.div_lt_of_lt_mul (mul_lt_size range draw))
  by_cases hlow : product.setWidth 64 ≤ zone
  · rw [if_pos hlow, if_pos (hin.1 hlow), Option.map_some, ← hhigh]
    rfl
  · rw [if_neg hlow, if_neg (mt hin.2 hlow), Option.map_none]

/-- A number that is picked with words is below the range. -/
theorem lt_of_pickWord? {n : UInt64} (hrange : 0 < range) (h : pickWord? range draw = some n) :
    n < range := by
  have hpick : pick? range.toNat draw = some n.toNat := by
    rw [pick?_eq_pickWord? hrange, h, Option.map_some]
  exact UInt64.lt_iff_toNat_lt.2 (lt_of_pick? hpick)

end Draw

/-! ### A number from the next draws -/

/-- The same splitter, so many draws later. -/
def skip (s : StreamSplitter) (k : Nat) : StreamSplitter := { s with drawn := s.drawn + k }

/-- The number that is given by the draw behind the next `k`, if it gives one. -/
def drawn? (s : StreamSplitter) (k : Nat) : Option Nat :=
  pick? s.maxChunk (Keystream.draw s.key (s.drawn + k))

variable {s t : StreamSplitter} {n tries : Nat} {b : UInt8} {stream : Bytes} {chunks : List Bytes}

/-- Draws are left out one after the other. -/
theorem skip_skip (s : StreamSplitter) (j k : Nat) : (s.skip j).skip k = s.skip (j + k) := by
  simp only [skip, Nat.add_assoc]

/-- A later draw is a draw of a splitter that has left out those before. -/
theorem drawn?_skip (s : StreamSplitter) (j k : Nat) :
    (s.skip j).drawn? k = s.drawn? (j + k) := by
  simp only [drawn?, skip, Nat.add_assoc]

/-- The draws come again after a period of the keystream. -/
theorem drawn?_mod_period (s : StreamSplitter) (k : Nat) :
    s.drawn? (k % Keystream.period) = s.drawn? k := by
  have hdraw := Keystream.draw_add_mul_period s.key (s.drawn + k % Keystream.period)
    (k / Keystream.period)
  rw [Nat.add_assoc, Nat.mul_comm, Nat.mod_add_div] at hdraw
  rw [drawn?, drawn?, hdraw]

/-- The first draw is taken, or the search goes on behind it. -/
theorem pickWithin_succ (s : StreamSplitter) (tries : Nat) :
    s.pickWithin (tries + 1) =
      match s.drawn? 0 with
      | some n => some (n, s.skip 1)
      | none => (s.skip 1).pickWithin tries := rfl

/-- The number that is picked is given by some draw, and the draws behind it come next. -/
theorem exists_drawn?_of_pickWithin (h : s.pickWithin tries = some (n, t)) :
    ∃ k, s.drawn? k = some n ∧ t = s.skip (k + 1) := by
  induction tries generalizing s with
  | zero => cases h
  | succ tries ih =>
    rw [pickWithin_succ] at h
    cases hdraw : s.drawn? 0 with
    | some m =>
      rw [hdraw] at h
      cases h
      exact ⟨0, hdraw, rfl⟩
    | none =>
      rw [hdraw] at h
      obtain ⟨k, hk, rfl⟩ := ih h
      rw [drawn?_skip] at hk
      exact ⟨1 + k, hk, skip_skip ..⟩

/-- A search that finds nothing has tried every draw. -/
theorem drawn?_of_pickWithin_eq_none {k : Nat} (h : s.pickWithin tries = none) (hk : k < tries) :
    s.drawn? k = none := by
  induction tries generalizing s k with
  | zero => omega
  | succ tries ih =>
    rw [pickWithin_succ] at h
    cases hdraw : s.drawn? 0 with
    | some m => rw [hdraw] at h; cases h
    | none =>
      rw [hdraw] at h
      cases k with
      | zero => exact hdraw
      | succ k =>
        rw [Nat.add_comm, ← drawn?_skip]
        exact ih h (by omega)

/-- Where no number is picked none is ever given: the draws of one period are all there are. -/
theorem drawn?_of_pick_eq_none (h : s.pick = none) (k : Nat) : s.drawn? k = none := by
  rw [← drawn?_mod_period]
  exact drawn?_of_pickWithin_eq_none h (Nat.mod_lt _ (by decide))

/-! ### One stream -/

/-- The chunks are a stream in pieces, none of which is empty or longer than `max`. -/
structure IsDivision (max : Nat) (stream : Bytes) (chunks : List Bytes) : Prop where
  /-- Together they are the stream. -/
  flatten_eq : chunks.flatten = stream
  /-- Every chunk has a byte. -/
  ne_nil : ∀ chunk ∈ chunks, chunk ≠ []
  /-- No chunk has more bytes than `max`. -/
  length_le : ∀ chunk ∈ chunks, chunk.length ≤ max

/-- The empty stream is divided into no chunks. -/
theorem isDivision_nil (max : Nat) : IsDivision max [] [] where
  flatten_eq := rfl
  ne_nil _ := nofun
  length_le _ := nofun

/-- A byte and fewer than `max` behind it make a chunk. -/
theorem IsDivision.cons {max more : Nat} (h : IsDivision max (stream.drop more) chunks)
    (hmore : more < max) : IsDivision max (b :: stream) ((b :: stream.take more) :: chunks) where
  flatten_eq := by rw [List.flatten_cons, h.flatten_eq, List.cons_append, List.take_append_drop]
  ne_nil chunk hchunk := by
    obtain rfl | hchunk := List.mem_cons.1 hchunk
    · exact List.cons_ne_nil _ _
    · exact h.ne_nil chunk hchunk
  length_le chunk hchunk := by
    obtain rfl | hchunk := List.mem_cons.1 hchunk
    · rw [List.length_cons]
      exact Nat.le_trans (Nat.succ_le_succ (List.length_take_le ..)) hmore
    · exact h.length_le chunk hchunk

/-- A stream is split into a first chunk and what is made of the rest. -/
theorem split_cons (s : StreamSplitter) (b : UInt8) (stream : Bytes) :
    s.split (b :: stream) =
      s.pick.bind fun (more, t) =>
        (t.split (stream.drop more)).bind fun (chunks, t) =>
          some ((b :: stream.take more) :: chunks, t) := by
  rw [split]
  rfl

/-- A stream is divided, and the next draws are for the next stream. -/
theorem isDivision_of_split (h : s.split stream = some (chunks, t)) :
    IsDivision s.maxChunk stream chunks ∧ ∃ k, t = s.skip k := by
  induction s, stream using split.induct generalizing chunks with
  | case1 s =>
    rw [split] at h
    cases h
    exact ⟨isDivision_nil _, 0, rfl⟩
  | case2 s b stream ih =>
    rw [split_cons] at h
    obtain ⟨⟨more, u⟩, hpick, h⟩ := Option.bind_eq_some_iff.1 h
    obtain ⟨⟨rest, v⟩, hsplit, h⟩ := Option.bind_eq_some_iff.1 h
    cases h
    obtain ⟨k, hdraw, rfl⟩ := exists_drawn?_of_pickWithin hpick
    obtain ⟨hrest, j, rfl⟩ := ih more _ hsplit
    exact ⟨hrest.cons (lt_of_pick? hdraw), k + 1 + j, skip_skip ..⟩

/-- Where a split gives nothing there is a draw from which on no draw gives a number. -/
theorem drawn?_of_split_eq_none (h : s.split stream = none) :
    ∃ first, ∀ k, s.drawn? (first + k) = none := by
  -- The draws behind those that were made for the first chunks are looked for in the rest.
  induction s, stream using split.induct with
  | case1 s =>
    rw [split] at h
    cases h
  | case2 s b stream ih =>
    cases hpick : s.pick with
    | none =>
      refine ⟨0, fun k => ?_⟩
      rw [Nat.zero_add]
      exact drawn?_of_pick_eq_none hpick k
    | some picked =>
      obtain ⟨more, u⟩ := picked
      rw [split_cons, hpick, Option.bind_some, Option.bind_eq_none_iff] at h
      have hsplit : u.split (stream.drop more) = none := by
        cases hu : u.split (stream.drop more) with
        | none => rfl
        | some given => exact absurd (h given hu) (Option.some_ne_none _)
      obtain ⟨first, hfirst⟩ := ih more u hsplit
      obtain ⟨j, -, rfl⟩ := exists_drawn?_of_pickWithin hpick
      refine ⟨j + 1 + first, fun k => ?_⟩
      rw [Nat.add_assoc, ← drawn?_skip]
      exact hfirst k

/-! ### One stream after the other -/

/-- A splitter that has been made from a seed has split these streams, into these chunks. -/
inductive Splits (seed : UInt64) (maxChunk : Nat) :
    List (Bytes × List Bytes) → StreamSplitter → Prop where
  /-- No stream has been split. -/
  | start : Splits seed maxChunk [] (ofSeed seed maxChunk)
  /-- One more stream. -/
  | split {splits : List (Bytes × List Bytes)} {s t : StreamSplitter} {stream : Bytes}
      {chunks : List Bytes} :
      Splits seed maxChunk splits s → s.split stream = some (chunks, t) →
        Splits seed maxChunk (splits ++ [(stream, chunks)]) t

variable {seed : UInt64} {maxChunk : Nat} {splits : List (Bytes × List Bytes)}

/-- Only draws are used up. -/
theorem Splits.eq_skip (h : Splits seed maxChunk splits s) :
    ∃ k, s = (ofSeed seed maxChunk).skip k := by
  induction h with
  | start => exact ⟨0, rfl⟩
  | split _ hsplit ih =>
    obtain ⟨k, rfl⟩ := ih
    obtain ⟨-, j, rfl⟩ := isDivision_of_split hsplit
    exact ⟨k + j, skip_skip ..⟩

/-- However many streams come one after the other, each of them is divided. -/
theorem Splits.isDivision (h : Splits seed maxChunk splits s)
    (hmem : (stream, chunks) ∈ splits) : IsDivision (max maxChunk 1) stream chunks := by
  induction h with
  | start => cases hmem
  | split hs hsplit ih =>
    obtain hmem | hmem := List.mem_append.1 hmem
    · exact ih hmem
    · cases List.mem_singleton.1 hmem
      obtain ⟨k, rfl⟩ := hs.eq_skip
      exact (isDivision_of_split hsplit).1

/-- Whatever the seed and the greatest length, all streams that have been split one after the other
    are divided into chunks that are neither empty nor longer than it, or than one byte where it is
    zero. A split gives nothing only where no draw gives a number any more. The numbers are made in
    words of 64 and 128 bits, and are below the range for every draw. -/
theorem streams_are_divided (h : Splits seed maxChunk splits s) :
    (∀ stream chunks, (stream, chunks) ∈ splits → IsDivision (max maxChunk 1) stream chunks) ∧
      (∀ stream, s.split stream = none → ∃ first, ∀ k, s.drawn? (first + k) = none) ∧
      ∀ range draw : UInt64, 0 < range →
        pick? range.toNat draw = (pickWord? range draw).map UInt64.toNat ∧
          ∀ n, pickWord? range draw = some n → n < range :=
  ⟨fun _ _ => h.isDivision, fun _ => drawn?_of_split_eq_none, fun _ _ hrange =>
    ⟨pick?_eq_pickWord? hrange, fun _ => lt_of_pickWord? hrange⟩⟩

/-- Two streams in chunks of up to three bytes, of which the first draw gives no length. -/
theorem streams_are_divided_in_two :
    ∃ s, Splits 33 3 [(Bytes.ofText "abcde", ["abc", "de"].map Bytes.ofText),
        (Bytes.ofText "f", ["f"].map Bytes.ofText)] s ∧
      (ofSeed 33 3).drawn? 0 = none ∧
      IsDivision (max 3 1) (Bytes.ofText "abcde") (["abc", "de"].map Bytes.ofText) := by
  have hsplits : ((ofSeed 33 3).split (Bytes.ofText "abcde")).bind (fun first =>
      (first.2.split (Bytes.ofText "f")).map fun second => (first.1, second.1)) =
        some (["abc", "de"].map Bytes.ofText, ["f"].map Bytes.ofText) := by
    decide +kernel
  obtain ⟨⟨first, t⟩, hfirst, hsplits⟩ := Option.bind_eq_some_iff.1 hsplits
  obtain ⟨⟨second, s⟩, hsecond, hsplits⟩ := Option.map_eq_some_iff.1 hsplits
  obtain ⟨rfl, rfl⟩ := Prod.mk.inj hsplits
  have hall := Splits.split (.split .start hfirst) hsecond
  exact ⟨s, hall, by decide +kernel, (streams_are_divided hall).1 _ _ List.mem_cons_self⟩

end StreamSplitter

end PacketWire
