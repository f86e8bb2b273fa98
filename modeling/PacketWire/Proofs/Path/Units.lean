import PacketWire.Path.Parser
import PacketWire.Spelling.Values
import PacketWire.Proofs.Key
import PacketWire.Proofs.Scan.Bounded

namespace PacketWire.Path

open Scan

/-!
# The units of a path

What is read where a step of a path may come, is a step as `SegmentSpelled` allows it, the first
part of a key, or the end (`scanSegment_eq_done_iff`). The end of the buffer ends a number and a
name as any byte does that cannot go on with it.
-/

variable {embedded : Bool} {input text rest : Bytes} {seg : Segment} {e : Event} {t : State}
  {missing n : Nat}

/-! ### What comes behind a step -/

/-- A step of a path ends in front of these bytes. -/
def Segment.Stops : Segment → Bytes → Prop
  | index _, rest => Scan.Stops Byte.isDigit rest
  | field _, rest => Scan.Stops Byte.isKeyword rest
  | key _, _ => True

/-- A step of a path starts with this byte. -/
def startsSegment (b : UInt8) : Bool := b = Byte.hash || b = Byte.dot || b = Byte.openBrace

/-- What ends a keyword ends every step of a path. -/
theorem Segment.stops_of_keyword (h : Scan.Stops Byte.isKeyword rest) : seg.Stops rest := by
  cases seg with
  | index =>
    intro b hb
    have hkey := h b hb
    simp only [Byte.isKeyword, Bool.or_eq_false_iff] at hkey
    exact hkey.1.2
  | field => exact h
  | key => trivial

/-- What follows a step follows it in a longer input, too. -/
theorem Segment.stops_append {more : Bytes} (h : seg.Stops rest)
    (hmore : rest = [] → seg.Stops more) : seg.Stops (rest ++ more) := by
  cases rest with
  | nil => exact hmore rfl
  | cons b rest =>
    cases seg with
    | index => exact stops_cons_iff.2 (stops_cons_iff.1 h)
    | field => exact stops_cons_iff.2 (stops_cons_iff.1 h)
    | key => trivial

/-- Every step of a path starts with a byte of its own, which is no part of a keyword. -/
theorem SegmentSpelled.starts (h : SegmentSpelled seg text) :
    ∃ b tail, text = b :: tail ∧ Byte.isKeyword b = false := by
  cases h with
  | index => exact ⟨_, _, rfl, by decide⟩
  | field => exact ⟨_, _, rfl, by decide⟩
  | bareField => exact ⟨_, _, rfl, by decide⟩
  | key hkey =>
    obtain ⟨inside, rfl, -⟩ := hkey.exists_inside
    exact ⟨_, _, rfl, by decide⟩

/-- A step that starts as a key that was cut is this key, and the missing bytes are there. -/
theorem SegmentSpelled.exists_piece {value digits back : Bytes} {length : Nat}
    (h : SegmentSpelled seg text) (hnum : Numeral length digits) (hlt : value.length < length)
    (hi : text ++ rest = Byte.openBrace :: digits ++ Byte.space :: value ++ back) :
    ∃ piece, back = piece ++ Byte.closeBrace :: rest ∧ seg = .key ⟨value ++ piece, true⟩ ∧
      piece.length = length - value.length := by
  cases h with
  | index => exact absurd (List.cons.inj hi).1 (by decide)
  | field => exact absurd (List.cons.inj hi).1 (by decide)
  | bareField => exact absurd (List.cons.inj hi).1 (by decide)
  | key hkey =>
    obtain ⟨inside, rfl, hinside⟩ := hkey.exists_inside
    obtain ⟨piece, rfl, rfl, hlength⟩ :=
      (hinside rest).exists_piece hnum hlt (by simpa using hi)
    exact ⟨piece, rfl, rfl, hlength⟩

/-- A path goes on with no name or number in front of it. -/
theorem stops_of_series {segments : List Segment} (h : Series SegmentSpelled segments rest) :
    Scan.Stops Byte.isKeyword rest := by
  cases h with
  | nil => exact stops_nil
  | cons hspelled =>
    obtain ⟨b, tail, rfl, hb⟩ := hspelled.starts
    exact stops_cons_iff.2 hb

/-! ### Units -/

/-- The text of a unit of a path, in front of these bytes, with the state behind it; something else
    may follow the path if it is embedded. -/
inductive Unit (embedded : Bool) : Bytes → Bytes → Event → State → Prop where
  /-- A step. -/
  | segment {seg : Segment} {text rest : Bytes} :
      SegmentSpelled seg text → seg.Stops rest →
        Unit embedded text rest (.piece (.segment seg)) .segment
  /-- A key that the input cuts. -/
  | keyOpening {value digits : Bytes} {length : Nat} :
      Numeral length digits → value.length < length →
        Unit embedded (Byte.openBrace :: digits ++ Byte.space :: value) []
          (.piece (.keyOpening value length)) (.keyWithin (length - value.length))
  /-- The end of the input. -/
  | finish : Unit embedded [] [] .finish .segment
  /-- The end in front of something else. -/
  | finishEmbedded {b : UInt8} {rest : Bytes} :
      embedded = true → startsSegment b = false → Unit embedded [] (b :: rest) .finish .segment

/-! ### Numbers and names -/

/-- An index is read off all digits there are. -/
theorem scanIndex_eq_done_iff :
    scanIndex input = .done seg n ↔
      ∃ index digits rest, seg = .index index ∧ Numeral index.toNat digits ∧
        Scan.Stops Byte.isDigit rest ∧ input = digits ++ rest ∧ n = digits.length := by
  rw [scanIndex, bind_eq_done_iff]
  constructor
  · rintro ⟨reading, j, k, hr, hk, rfl⟩
    obtain ⟨ds, rest, rfl, rfl, hall, hrest, rfl⟩ := numberOrEnd_eq_done_iff.1 hr
    cases hread : Decimal.read ds with
    | absent => rw [hread] at hk; cases hk
    | overflow => rw [hread] at hk; cases hk
    | number index =>
      rw [hread] at hk
      cases hk
      have hnum := (Decimal.read_eq_number_iff hall).1 hread
      refine ⟨_, ds, rest, rfl, ?_, hrest, rfl, rfl⟩
      rwa [Nat.toUInt64, UInt64.toNat_ofNat', Nat.mod_eq_of_lt hnum.lt_bound]
  · rintro ⟨index, ds, rest, rfl, hnum, hrest, rfl, rfl⟩
    have hread := (Decimal.read_eq_number_iff hnum.isDigit).2 hnum
    refine ⟨.number index.toNat, ds.length, 0,
      numberOrEnd_eq_done_iff.2 ⟨ds, rest, hread.symm, rfl, hnum.isDigit, hrest, rfl⟩, ?_, rfl⟩
    rw [List.drop_left]
    show (pure (Segment.index index.toNat.toUInt64) : Scan Cause Segment) rest = _
    rw [Nat.toUInt64, UInt64.ofNat_toNat]
    rfl

/-- The ways to write the name of a field. -/
inductive FieldSpelled : Bytes → Bytes → Prop where
  /-- With a `_` in front. -/
  | underscored {name : Bytes} : FieldSpelled name (Byte.underscore :: name)
  /-- By itself, if it starts with no `_`. -/
  | bare {name : Bytes} : name.head? ≠ some Byte.underscore → FieldSpelled name name

/-- The name of a field is what is left without one `_` in front. -/
theorem fieldName_eq_iff {word name : Bytes} (hne : name ≠ []) :
    fieldName word = name ↔ FieldSpelled name word := by
  constructor
  · rintro rfl
    cases word with
    | nil => exact absurd rfl hne
    | cons b word =>
      by_cases hb : b = Byte.underscore
      · rw [fieldName, if_pos hb, hb]
        exact .underscored
      · rw [fieldName, if_neg hb]
        exact .bare (by simpa using hb)
  · intro h
    cases h with
    | underscored => rw [fieldName, if_pos rfl]
    | bare hhead =>
      cases word with
      | nil => exact absurd rfl hne
      | cons b word => rw [fieldName, if_neg (by simpa using hhead)]

/-- A field is read off all of the keyword there is. -/
theorem scanField_eq_done_iff :
    scanField input = .done seg n ↔
      ∃ name word rest, seg = .field name ∧ isKeyword name ∧ FieldSpelled name word ∧
        Scan.Stops Byte.isKeyword rest ∧ input = word ++ rest ∧ n = word.length := by
  rw [scanField, bind_eq_done_iff]
  constructor
  · rintro ⟨name, j, k, hname, hk, rfl⟩
    cases hk
    obtain ⟨_, hword, hmake⟩ := expect_eq_done_iff.1 hname
    obtain ⟨rfl, hne⟩ := nonEmpty?_eq_some_iff.1 hmake
    rw [map_eq_pure_bind] at hword
    obtain ⟨word, i, l, hw, hl, rfl⟩ := bind_eq_done_iff.1 hword
    cases hl
    obtain ⟨rfl, hall, rest, hrest, rfl⟩ := wordOrEnd_eq_done_iff.1 hw
    have hspelled := (fieldName_eq_iff hne).1 rfl
    refine ⟨_, word, rest, rfl, isKeyword_iff.2 ⟨hne, fun b hb => hall b ?_⟩, hspelled, hrest, rfl,
      rfl⟩
    -- The bytes of the name are bytes of the word.
    generalize fieldName word = name at hspelled hb
    cases hspelled with
    | underscored => exact List.mem_cons_of_mem _ hb
    | bare => exact hb
  · rintro ⟨name, word, rest, rfl, hkey, hspelled, hrest, rfl, rfl⟩
    obtain ⟨hne, hall⟩ := isKeyword_iff.1 hkey
    have hword : ∀ b ∈ word, Byte.isKeyword b := by
      cases hspelled with
      | underscored => exact List.forall_mem_cons.2 ⟨by decide, hall⟩
      | bare => exact hall
    refine ⟨name, word.length, 0, expect_eq_done_iff.2
      ⟨name, ?_, nonEmpty?_eq_some_iff.2 ⟨rfl, hne⟩⟩, rfl, rfl⟩
    rw [map_eq_pure_bind]
    refine bind_eq_done_iff.2 ⟨word, word.length, 0,
      wordOrEnd_eq_done_iff.2 ⟨rfl, hword, rest, hrest, rfl⟩, ?_, rfl⟩
    rw [(fieldName_eq_iff hne).2 hspelled]
    rfl

/-! ### Keys -/

/-- A key is read up to its closing brace, or it is cut by the end of the input. -/
theorem scanKey_eq_done_iff :
    scanKey input = .done (e, t) n ↔
      (∃ key text rest, e = .piece (.segment (.key key)) ∧ t = .segment ∧ key.Spelled text ∧
        Byte.openBrace :: input = text ++ rest ∧ n + 1 = text.length) ∨
        ∃ value digits length, e = .piece (.keyOpening value length) ∧
          t = .keyWithin (length - value.length) ∧ Numeral length digits ∧ value.length < length ∧
          input = digits ++ Byte.space :: value ∧ n = input.length := by
  rw [scanKey, bind_eq_done_iff]
  constructor
  · rintro ⟨portion, j, k, hportion, hk, rfl⟩
    cases portion with
    | opening value length =>
      cases hk
      obtain ⟨digits, hnum, hlt, rfl, rfl⟩ := Key.scan_eq_opening_iff.1 hportion
      exact .inr ⟨value, digits, length, rfl, rfl, hnum, hlt, rfl, rfl⟩
    | whole key =>
      obtain ⟨inside, rest, hinside, rfl, rfl⟩ := Key.scan_eq_whole_iff.1 hportion
      rw [List.drop_left] at hk
      obtain ⟨rest, l, rfl, hl, rfl⟩ := byte_bind_eq_done_iff.1 hk
      cases hl
      exact .inl ⟨key, _, rest, rfl, rfl, hinside.spelled, by simp, by simp⟩
  · rintro (⟨key, text, rest, rfl, rfl, hspelled, hi, hn⟩ |
      ⟨value, digits, length, rfl, rfl, hnum, hlt, rfl, rfl⟩)
    · obtain ⟨inside, rfl, hinside⟩ := hspelled.exists_inside
      simp only [List.cons_append, List.append_assoc, List.cons.injEq, true_and,
        List.nil_append] at hi
      subst hi
      refine ⟨.whole key, inside.length, 1, Key.scan_eq_whole_iff.2
        ⟨inside, _, hinside rest, rfl, rfl⟩, ?_, by simpa using hn⟩
      rw [List.drop_left]
      exact byte_bind_eq_done_iff.2 ⟨rest, 0, rfl, rfl, rfl⟩
    · exact ⟨.opening value length, _, 0, Key.scan_eq_opening_iff.2 ⟨digits, hnum, hlt, rfl, rfl⟩,
        rfl, rfl⟩

/-! ### Steps -/

/-- A `#` starts an index. -/
theorem scanSegment_hash :
    scanSegment embedded (Byte.hash :: input) =
      ((do return (.piece (.segment (← scanIndex)), .segment) : Scan Cause (Event × State))
        input).shift 1 := by
  rw [scanSegment, peek?_bind]
  exact skip_bind_cons

/-- A dot starts a field. -/
theorem scanSegment_dot :
    scanSegment embedded (Byte.dot :: input) =
      ((do return (.piece (.segment (← scanField)), .segment) : Scan Cause (Event × State))
        input).shift 1 := by
  rw [scanSegment, peek?_bind]
  exact skip_bind_cons

/-- An opening brace starts a key. -/
theorem scanSegment_openBrace :
    scanSegment embedded (Byte.openBrace :: input) = (scanKey input).shift 1 := by
  rw [scanSegment, peek?_bind]
  exact skip_bind_cons

/-- Any other byte ends a path, or is a fault in one that stands by itself. -/
theorem scanSegment_other {b : UInt8} (hb : startsSegment b = false) :
    scanSegment embedded (b :: input) =
      if embedded then .done (.finish, .segment) 0 else .fault ⟨.noSegment, 0⟩ := by
  obtain ⟨⟨hhash, hdot⟩, hbrace⟩ :
      (b ≠ Byte.hash ∧ b ≠ Byte.dot) ∧ b ≠ Byte.openBrace := by simpa [startsSegment] using hb
  rw [scanSegment, peek?_bind]
  simp only [List.head?_cons, if_neg hhash, if_neg hdot, if_neg hbrace]
  split <;> rfl

/-- A field that is spelled is read. -/
theorem scanSegment_of_field {name word : Bytes} (hkey : isKeyword name)
    (hspelled : FieldSpelled name word) (hrest : Scan.Stops Byte.isKeyword rest) :
    scanSegment embedded (Byte.dot :: word ++ rest) =
      .done (.piece (.segment (.field name)), .segment) (word.length + 1) := by
  rw [List.cons_append, scanSegment_dot, Outcome.shift_eq_done_iff]
  have hfield := scanField_eq_done_iff.2 ⟨name, word, rest, rfl, hkey, hspelled, hrest, rfl, rfl⟩
  exact ⟨_, bind_eq_done_iff.2 ⟨_, _, 0, hfield, rfl, rfl⟩, by omega⟩

/-- Where a step of a path may come, a unit is read and nothing else. -/
theorem scanSegment_eq_done_iff :
    scanSegment embedded input = .done (e, t) n ↔
      ∃ text rest, Unit embedded text rest e t ∧ input = text ++ rest ∧ n = text.length := by
  constructor
  · intro h
    cases input with
    | nil =>
      cases h
      exact ⟨[], [], .finish, rfl, rfl⟩
    | cons b tail =>
      -- By the next byte: each kind of step has a glyph of its own, and any other byte ends the
      -- path or is at fault.
      by_cases hhash : b = Byte.hash
      · subst hhash
        rw [scanSegment_hash, Outcome.shift_eq_done_iff] at h
        obtain ⟨_, h, rfl⟩ := h
        obtain ⟨seg, j, k, hseg, hk, rfl⟩ := bind_eq_done_iff.1 h
        cases hk
        obtain ⟨index, digits, rest, rfl, hnum, hrest, rfl, rfl⟩ := scanIndex_eq_done_iff.1 hseg
        exact ⟨_, rest, .segment (.index hnum) hrest, rfl, by simp; omega⟩
      by_cases hdot : b = Byte.dot
      · subst hdot
        rw [scanSegment_dot, Outcome.shift_eq_done_iff] at h
        obtain ⟨_, h, rfl⟩ := h
        obtain ⟨seg, j, k, hseg, hk, rfl⟩ := bind_eq_done_iff.1 h
        cases hk
        obtain ⟨name, word, rest, rfl, hkey, hspelled, hrest, rfl, rfl⟩ :=
          scanField_eq_done_iff.1 hseg
        refine ⟨Byte.dot :: word, rest, .segment ?_ hrest, rfl, by simp; omega⟩
        cases hspelled with
        | underscored => exact .field hkey
        | bare hhead => exact .bareField hkey hhead
      by_cases hbrace : b = Byte.openBrace
      · subst hbrace
        rw [scanSegment_openBrace, Outcome.shift_eq_done_iff] at h
        obtain ⟨_, h, rfl⟩ := h
        obtain ⟨key, text, rest, rfl, rfl, hspelled, hi, hn⟩ |
          ⟨value, digits, length, rfl, rfl, hnum, hlt, rfl, rfl⟩ := scanKey_eq_done_iff.1 h
        · exact ⟨text, rest, .segment (.key hspelled) trivial, hi, by omega⟩
        · exact ⟨_, [], .keyOpening hnum hlt, by simp, by simp; omega⟩
      · have hb : startsSegment b = false := by simp [startsSegment, hhash, hdot, hbrace]
        rw [scanSegment_other hb] at h
        split at h
        · next hembedded =>
          cases h
          exact ⟨[], b :: tail, .finishEmbedded hembedded hb, rfl, rfl⟩
        · cases h
  · rintro ⟨text, rest, hunit, rfl, rfl⟩
    cases hunit with
    | finish => rfl
    | finishEmbedded hembedded hb => exact (scanSegment_other hb).trans (if_pos hembedded)
    | keyOpening hnum hlt =>
      rw [List.append_nil, List.cons_append, scanSegment_openBrace, Outcome.shift_eq_done_iff]
      exact ⟨_, scanKey_eq_done_iff.2 (.inr ⟨_, _, _, rfl, rfl, hnum, hlt, rfl, rfl⟩), by
        simp; omega⟩
    | segment hspelled hstops =>
      cases hspelled with
      | @index index digits hnum =>
        rw [List.cons_append, scanSegment_hash, Outcome.shift_eq_done_iff]
        have hindex := scanIndex_eq_done_iff.2 ⟨index, digits, rest, rfl, hnum, hstops, rfl, rfl⟩
        exact ⟨_, bind_eq_done_iff.2 ⟨_, _, 0, hindex, rfl, rfl⟩, by simp; omega⟩
      | field hkey => exact scanSegment_of_field hkey .underscored hstops
      | bareField hkey hhead => exact scanSegment_of_field hkey (.bare hhead) hstops
      | @key key _ hkey =>
        obtain ⟨inside, rfl, -⟩ := hkey.exists_inside
        rw [List.cons_append, List.cons_append, scanSegment_openBrace, Outcome.shift_eq_done_iff]
        exact ⟨inside.length + 1, scanKey_eq_done_iff.2
          (.inl ⟨key, _, rest, rfl, rfl, hkey, by simp, by simp⟩), by simp; omega⟩

/-- There is one way to read a step in front of bytes that cannot go on with it. -/
theorem SegmentSpelled.unique {seg' : Segment} {text' rest' : Bytes} (h : SegmentSpelled seg text)
    (h' : SegmentSpelled seg' text') (hstops : seg.Stops rest) (hstops' : seg'.Stops rest')
    (hi : text ++ rest = text' ++ rest') : seg = seg' ∧ rest = rest' := by
  -- both are found by the same scan
  have hfound := (@scanSegment_eq_done_iff false _ _ _ _).2
    ⟨text, rest, .segment h hstops, rfl, rfl⟩
  have hfound' := (@scanSegment_eq_done_iff false _ _ _ _).2
    ⟨text', rest', .segment h' hstops', hi, rfl⟩
  obtain ⟨hunit, hlength⟩ := Outcome.done.inj (hfound.symm.trans hfound')
  obtain ⟨-, hrest⟩ := List.append_inj hi hlength
  cases hunit
  exact ⟨rfl, hrest⟩

/-! ### The brace behind a key -/

/-- Behind the brace that closes a key what comes next is read as behind any step. -/
theorem step_keyEnd_closeBrace :
    step embedded .keyEnd (Byte.closeBrace :: rest) = (step embedded .segment rest).shift 1 := by
  have hbrace : scanKeyEnd (Byte.closeBrace :: rest) = .done () 1 :=
    byte_eq_done_iff.2 ⟨rfl, rest, rfl⟩
  have hend : step embedded .keyEnd =
      Step.andThen scanKeyEnd .keyEnd fun _ => Step.ofScan (scanSegment embedded) .segment := rfl
  rw [hend, Step.andThen_of_done hbrace]
  rfl

/-- A key that came in parts must be closed. -/
theorem step_keyEnd_of_ne {b : UInt8} (hb : b ≠ Byte.closeBrace) :
    step embedded .keyEnd (b :: rest) = .fault ⟨.unclosedKey, 0⟩ := by
  have hbrace : scanKeyEnd (b :: rest) = .fault ⟨.unclosedKey, 0⟩ := byte_cons.trans (if_neg hb)
  exact Step.andThen_of_fault hbrace

/-! ### What is taken -/

/-- A step of a path takes no more than there is. -/
theorem isBounded_scanSegment : (scanSegment embedded).IsBounded where
  used_le h := by
    obtain ⟨text, rest, -, rfl, rfl⟩ := scanSegment_eq_done_iff.1 h
    simp

/-- A part of a key takes no more than there is. -/
theorem isBounded_scanKeyPiece : (scanKeyPiece missing).IsBounded := by
  refine .bind (isBounded_takeOn missing) fun portion => ?_
  cases portion <;> exact isBounded_pure _

/-- No step of the parser takes more than there is. -/
theorem used_step_le (state : State) : (step embedded state input).used ≤ input.length := by
  cases state with
  | segment => exact Step.used_ofScan_le isBounded_scanSegment
  | keyWithin missing => exact Step.used_ofScan_le isBounded_scanKeyPiece
  | keyEnd =>
    exact Step.used_andThen_le (isBounded_byte _ _) fun _ _ =>
      Step.used_ofScan_le isBounded_scanSegment

end PacketWire.Path
