import PacketWire.DictValue.Parser
import PacketWire.Spelling.Values
import PacketWire.Proofs.Element.Slot
import PacketWire.Proofs.Key
import PacketWire.Proofs.Resumable.Typed

namespace PacketWire.DictValue

open Scan Machine

/-!
# The units of a dict

What is read behind the default type (`startsTyped`) is a key or the end (`step_key_eq_emit_iff`),
and behind a key its closing brace and a value (`slot`). A dict that comes whole makes two units for
each entry (`units`); the parts of a key or a value that does not are joined (`joined`).
-/

variable {input text : Bytes} {entries : List Entry} {e : Event} {es : List Event} {t : State}
  {n : Nat}

/-! ### Parts -/

/-- A unit in front of others, where the parts of a key make one key and those of a value one value,
    and no mark is kept whether the buffer ends behind it. -/
def Event.prepend : Event → List Event → List Event
  | value item _, es => value item false :: es
  | keyOpening front length, keyPiece part isLast :: es =>
    if isLast then key ⟨front ++ part, true⟩ :: es else keyOpening (front ++ part) length :: es
  | keyPiece front false, keyPiece part isLast :: es => keyPiece (front ++ part) isLast :: es
  | valueOpening ty front length, valuePiece part isLast :: es =>
    if isLast then value ⟨ty, front ++ part, true⟩ false :: es
    else valueOpening ty (front ++ part) length :: es
  | valuePiece front false, valuePiece part isLast :: es => valuePiece (front ++ part) isLast :: es
  | e, es => e :: es

/-- Units with the parts of each key and of each value joined. -/
def joined (es : List Event) : List Event := es.foldr Event.prepend []

/-- The units of an entry. -/
def Entry.units (entry : Entry) : List Event := [.key entry.key, .value entry.value false]

/-- The units of a dict, in front of its end. -/
def units (d : DictValue) : List Event :=
  typeUnits Event.type d.type ++ d.entries.flatMap Entry.units

/-- A default type is never in parts. -/
theorem joined_typeUnits {type : Bytes} :
    joined (typeUnits Event.type type ++ es) = typeUnits Event.type type ++ joined es := by
  cases type <;> rfl

/-- The last part of a key is joined with nothing behind it, -/
theorem prepend_lastKeyPiece {part : Bytes} :
    Event.prepend (.keyPiece part true) es = .keyPiece part true :: es := by
  cases es <;> rfl

/-- and neither is the last part of a value. -/
theorem prepend_lastValuePiece {part : Bytes} :
    Event.prepend (.valuePiece part true) es = .valuePiece part true :: es := by
  cases es <;> rfl

/-! ### Keys -/

/-- The text of a unit at the place of a key, in front of these bytes, with the state behind it. -/
inductive KeyUnit : Bytes → Bytes → Event → State → Prop where
  /-- A key. -/
  | key {key : Key} {text rest : Bytes} :
      Key.Inside key text rest → KeyUnit (Byte.openBrace :: text) rest (.key key) .value
  /-- A key that the input cuts. -/
  | opening {value digits : Bytes} {length : Nat} :
      Numeral length digits → value.length < length →
        KeyUnit (Byte.openBrace :: (digits ++ Byte.space :: value)) [] (.keyOpening value length)
          (.keyWithin (length - value.length))
  /-- The end of the input. -/
  | finish : KeyUnit [] [] .finish .key

/-- Where there is a byte, a brace must open a key. -/
theorem scanKey_cons {b : UInt8} :
    scanKey (b :: input) = (byte Byte.openBrace .noKey >>= fun _ => Key.scan .badKeyLength >>=
      fun portion => match portion with
        | .whole key => return (.key key, .value)
        | .opening value length =>
          return (.keyOpening value length, .keyWithin (length - value.length)))
        (b :: input) := by
  rw [scanKey, peek?_bind]
  rfl

/-- Where a key may come, a unit is read and nothing else. -/
theorem scanKey_eq_done_iff :
    scanKey input = .done (e, t) n ↔
      ∃ text rest, KeyUnit text rest e t ∧ input = text ++ rest ∧ n = text.length := by
  constructor
  · intro h
    cases input with
    | nil =>
      cases h
      exact ⟨[], [], .finish, rfl, rfl⟩
    | cons b input =>
      rw [scanKey_cons] at h
      obtain ⟨tail, k, hi, hk, rfl⟩ := byte_bind_eq_done_iff.1 h
      obtain ⟨portion, i, j, hscan, hfound, rfl⟩ := bind_eq_done_iff.1 hk
      -- The key is whole, or the buffer ends within the length that it tells.
      cases portion with
      | whole key =>
        cases hfound
        obtain ⟨text, rest, hinside, rfl, rfl⟩ := Key.scan_eq_whole_iff.1 hscan
        exact ⟨_, rest, .key hinside, hi, rfl⟩
      | opening value length =>
        cases hfound
        obtain ⟨digits, hnum, hlt, rfl, rfl⟩ := Key.scan_eq_opening_iff.1 hscan
        exact ⟨_, [], .opening hnum hlt, by rw [hi, List.append_nil], rfl⟩
  · rintro ⟨text, rest, hunit, rfl, rfl⟩
    cases hunit with
    | finish => rfl
    | @key key text _ hinside =>
      rw [List.cons_append, scanKey_cons]
      refine byte_bind_eq_done_iff.2 ⟨text ++ rest, text.length, rfl, ?_, rfl⟩
      refine bind_eq_done_iff.2 ⟨.whole key, text.length, 0, ?_, rfl, rfl⟩
      exact Key.scan_eq_whole_iff.2 ⟨text, rest, hinside, rfl, rfl⟩
    | @opening value digits length hnum hlt =>
      rw [List.append_nil, scanKey_cons]
      refine byte_bind_eq_done_iff.2 ⟨_, (digits ++ Byte.space :: value).length, rfl, ?_, rfl⟩
      refine bind_eq_done_iff.2 ⟨.opening value length, _, 0, ?_, rfl, rfl⟩
      exact Key.scan_eq_opening_iff.2 ⟨digits, hnum, hlt, rfl, rfl⟩

/-- Where a key may come a unit is read just where one is spelled. -/
theorem step_key_eq_emit_iff :
    machine.step .key input = .emit e t n ↔
      ∃ text rest, KeyUnit text rest e t ∧ input = text ++ rest ∧ n = text.length :=
  Step.ofScan_eq_emit_iff.trans scanKey_eq_done_iff

/-- A dict starts with a default type, or with what comes without it. -/
theorem startsTyped : machine.StartsTyped .type .key .type scanKey where
  step_start _ := rfl
  step_next _ := rfl
  isFinal_unit _ := rfl

/-- The rest of a key may stand in front of anything. -/
def keyRest : Rest State Event where
  piece := .keyPiece
  next := .value
  within := .keyWithin
  Ends _ := True

/-- The rest of a key is read like the rest of any value. -/
theorem readsRest_key : machine.ReadsRest keyRest :=
  .of_unended (fun _ _ => rfl) (fun _ => trivial) fun _ _ => rfl

/-- The parts of a key are joined to the key. -/
theorem joinsParts_key : JoinsParts keyRest Event.prepend := by
  intro value value' es
  show Event.prepend (.keyPiece value false) (Event.prepend (.keyPiece value' true) es) = _
  rw [prepend_lastKeyPiece]
  exact prepend_lastKeyPiece.symm

/-! ### Values -/

/-- Values stand behind the closing brace of a key each. -/
def slot : Element.Slot State Event Cause where
  form := form
  mark := Byte.closeBrace
  noMark := .unclosedKey
  stop := Byte.openBrace
  whole := .value
  opening := .valueOpening
  piece := .valuePiece
  next := .key
  within := .valueWithin
  delimiter_form := rfl
  bareType_form := rfl
  separates_form := by
    rintro d hd
    cases hd
    decide

/-- Behind a key there is the place of a value. -/
theorem hasSlot : machine.HasSlot slot .value where
  step_here _ _ := rfl
  step_within _ _ := rfl
  isFinal_whole _ _ := rfl
  isFinal_opening _ _ _ := rfl
  isFinal_piece _ _ := rfl
  endsAt_next := ⟨.finish, .key, 0, rfl, rfl⟩

/-- The parts of a value are joined to the value. -/
theorem joins_slot : slot.Joins Event.prepend where
  parts value value' es := by
    show Event.prepend (.valuePiece value false) (Event.prepend (.valuePiece value' true) es) = _
    rw [prepend_lastValuePiece]
    exact prepend_lastValuePiece.symm
  whole type value value' length isLast es := by
    show Event.prepend (.valueOpening type value length)
      (Event.prepend (.valuePiece value' true) es) = _
    rw [prepend_lastValuePiece]
    rfl

/-- A value ends where the next entry starts. -/
theorem endsBefore_of_series (h : Series EntrySpelled entries text) :
    Element.EndsBefore (some Byte.openBrace) text := by
  cases h with
  | nil => exact Element.endsBefore_nil
  | cons hentry =>
    cases hentry with
    | mk hkey =>
      obtain ⟨inside, rfl, -⟩ := hkey.exists_inside
      exact Element.endsBefore_cons_iff.2 rfl

/-! ### What is taken -/

/-- A key takes no more than there is. -/
theorem isBounded_scanKey : scanKey.IsBounded where
  used_le h := by
    obtain ⟨text, rest, -, rfl, rfl⟩ := scanKey_eq_done_iff.1 h
    simp

/-- No step of a dict takes more than there is. -/
theorem isBounded_machine : machine.IsBounded := by
  refine Machine.isBounded_of_used_le fun s input => ?_
  cases s with
  | type => exact Step.used_ofScan_le (isBounded_keywordOr isBounded_scanKey)
  | key => exact Step.used_ofScan_le isBounded_scanKey
  | keyWithin missing => exact readsRest_key.used_le
  | value => exact Step.used_ofScan_le (@Element.Slot.isBounded_scan _ _ _ slot)
  | valueWithin missing => exact hasSlot.readsRest.used_le

end PacketWire.DictValue
