import PacketWire.Proofs.Path.Units
import PacketWire.Proofs.Scanner.Engine
import PacketWire.Proofs.Update.Units
import PacketWire.Scanner.Values

namespace PacketWire

open Walk

/-!
# Engines of values simulate machines

Walks over elements, keys, and the units of lists, dicts, paths and updates follow the scans of
these, branch by branch. So the engines simulate the machines. Those of lists, dicts and paths have
the states of the machines; that of updates shows the state of the parser of paths within it only
while that is at work, and so what has become of it must be told (`Update.Nested.keep`).
-/

variable {σ κ : Type}

/-! ### Elements and keys -/

namespace Element

/-- The type of an element, with or without a `=` in front. -/
theorem walkType_follows (form : Form κ) :
    Follows (walkType form : Walk σ κ Bytes) (scanType form) := by
  refine follows_keywordOrEnd.ite (follows_peek?.bind fun b? => ?_)
  refine Follows.ite ?_ (follows_pure [])
  refine (follows_skip 1).bind fun _ => follows_keywordOrEnd.bind fun type => ?_
  exact (follows_fail form.badType).ite (follows_pure type)

/-- The length of an element is read at the colon, if there is one. -/
theorem walkLength_follows (form : Form κ) :
    Follows (walkLength form : Walk σ κ (Option Nat)) (scanLength form) := by
  refine follows_peek?.bind fun b? => Follows.ite ?_ (follows_pure none)
  refine (follows_skip 1).bind fun _ => follows_numberOrEnd.bind fun r => ?_
  cases r with
  | number n => exact follows_pure _
  | absent => exact follows_fail _
  | overflow => exact follows_fail _

/-- The head of an element ends alike: with a space, at the delimiter, or with the buffer. -/
theorem walkHead_follows (form : Form κ) :
    Follows (walkHead form : Walk σ κ Head) (scanHead form) := by
  refine (walkType_follows form).bind fun type => (walkLength_follows form).bind fun length => ?_
  refine follows_peek?.bind fun b? => ?_
  cases b? with
  | none => exact follows_needMore.ite (follows_pure _)
  | some b =>
    refine ((follows_skip 1).bind_pure _).ite ?_
    exact (follows_pure _).ite ((follows_fail _).ite (follows_fail _))

/-- The value of an element ends at the delimiter, or where its length says. -/
theorem walkValue_follows (form : Form κ) (head : Head) :
    Follows (walkValue form head : Walk σ κ Portion) (scanValue form head) := by
  unfold walkValue scanValue
  cases head.length with
  | none => exact (follows_upToOrEnd form.delimiter).bind_pure _
  | some n =>
    refine (follows_take n).bind fun portion => ?_
    cases portion with
    | part value => exact follows_pure _
    | whole value =>
      refine follows_peek?.bind fun b? => ?_
      cases b? with
      | none => exact follows_pure _
      | some b => exact (follows_pure _).ite (follows_fail _)

/-- An element is its head and its value. -/
theorem walk_follows (form : Form κ) : Follows (walk form : Walk σ κ Portion) (scan form) :=
  (walkHead_follows form).bind (walkValue_follows form)

end Element

/-- A key is read up to the brace, or by its length. -/
theorem Key.walk_follows (badLength : κ) :
    Follows (Key.walk badLength : Walk σ κ Portion) (Key.scan badLength) := by
  refine (follows_numberOrEnd.expect _ badLength).bind fun length => ?_
  cases length with
  | none => exact (follows_upTo Byte.closeBrace).bind_pure _
  | some n =>
    refine (follows_expectByte Byte.space badLength).bind fun _ => (follows_take n).bind fun p => ?_
    cases p with
    | whole value => exact follows_pure _
    | part value => exact follows_pure _

/-! ### Lists -/

namespace ListValue

/-- An element of a list, behind its `|`. -/
theorem walkElement_follows : Follows (walkElement : Walk σ Cause _) scanElement := by
  refine follows_peek?.bind fun b? => ?_
  cases b? with
  | none => exact follows_pure _
  | some b =>
    refine (follows_expectByte _ _).bind fun _ => (Element.walk_follows form).bind fun p => ?_
    cases p with
    | whole element isLast => exact follows_pure _
    | opening type value length => exact follows_pure _

/-- The default type of a list, or what comes without it. -/
theorem walkType_follows : Follows (walkType : Walk σ Cause _) scanType :=
  follows_keywordOrEnd.bind fun _ => walkElement_follows.ite (follows_pure _)

/-- A further part of an element, and the look at what comes behind it. -/
theorem walkPiece_follows (missing : Nat) :
    Follows (walkPiece missing : Walk σ Cause _) (scanPiece missing) := by
  refine (follows_takeOn missing).bind fun p => ?_
  cases p with
  | part value => exact follows_pure _
  | whole value =>
    refine follows_peek?.bind fun b? => ?_
    cases b? with
    | none => exact follows_pure _
    | some b => exact (follows_pure _).ite (follows_fail _)

/-- The engine of lists does what the machine of lists tells. -/
theorem engine_simulates : engine.Simulates machine id fun _ => id where
  walk := by
    rintro ⟨⟨buffer, pos, mark⟩, state⟩ hw
    cases state with
    | type => exact walkType_follows.report hw rfl
    | elements => exact walkElement_follows.report hw rfl
    | within missing => exact (walkPiece_follows missing).report hw rfl
  view_keep _ _ := rfl
  view_restart _ := rfl
  isFinal := rfl

end ListValue

/-! ### Dicts -/

namespace DictValue

/-- A key of a dict, behind its opening brace. -/
theorem walkKey_follows : Follows (walkKey : Walk σ Cause _) scanKey := by
  refine follows_peek?.bind fun b? => ?_
  cases b? with
  | none => exact follows_pure _
  | some b =>
    refine (follows_expectByte _ _).bind fun _ => (Key.walk_follows _).bind fun p => ?_
    cases p with
    | whole key => exact follows_pure _
    | opening value length => exact follows_pure _

/-- The default type of a dict, or what comes without it. -/
theorem walkType_follows : Follows (walkType : Walk σ Cause _) scanType :=
  follows_keywordOrEnd.bind fun _ => walkKey_follows.ite (follows_pure _)

/-- A further part of a key of a dict. -/
theorem walkKeyPiece_follows (missing : Nat) :
    Follows (walkKeyPiece missing : Walk σ Cause _) (scanKeyPiece missing) := by
  refine (follows_takeOn missing).bind fun p => ?_
  cases p with
  | part value => exact follows_pure _
  | whole value => exact follows_pure _

/-- A value of a dict, behind the closing brace of its key. -/
theorem walkValue_follows : Follows (walkValue : Walk σ Cause _) scanValue := by
  refine (follows_expectByte _ _).bind fun _ => (Element.walk_follows form).bind fun p => ?_
  cases p with
  | whole element isLast => exact follows_pure _
  | opening type value length => exact follows_pure _

/-- A further part of a value of a dict, and the look at what comes behind it. -/
theorem walkValuePiece_follows (missing : Nat) :
    Follows (walkValuePiece missing : Walk σ Cause _) (scanValuePiece missing) := by
  refine (follows_takeOn missing).bind fun p => ?_
  cases p with
  | part value => exact follows_pure _
  | whole value =>
    refine follows_peek?.bind fun b? => ?_
    cases b? with
    | none => exact follows_pure _
    | some b => exact (follows_pure _).ite (follows_fail _)

/-- The engine of dicts does what the machine of dicts tells. -/
theorem engine_simulates : engine.Simulates machine id fun _ => id where
  walk := by
    rintro ⟨⟨buffer, pos, mark⟩, state⟩ hw
    cases state with
    | type => exact walkType_follows.report hw rfl
    | key => exact walkKey_follows.report hw rfl
    | keyWithin missing => exact (walkKeyPiece_follows missing).report hw rfl
    | value => exact walkValue_follows.report hw rfl
    | valueWithin missing => exact (walkValuePiece_follows missing).report hw rfl
  view_keep _ _ := rfl
  view_restart _ := rfl
  isFinal := rfl

end DictValue

/-! ### Paths -/

namespace Path

/-- The closing brace of a key. -/
theorem walkKeyEnd_follows : Follows (walkKeyEnd : Walk σ Cause _) scanKeyEnd :=
  follows_expectByte _ _

/-- An index is a number that fits, and otherwise a fault behind the digits. -/
theorem walkIndex_follows : Follows (walkIndex : Walk σ Cause Segment) scanIndex := by
  refine follows_numberOrEnd.bind fun r => ?_
  cases r with
  | number n => exact follows_pure _
  | absent => exact follows_fail _
  | overflow => exact follows_fail _

/-- The name of a field; if there is none, the fault lies in front of it. -/
theorem walkField_follows : Follows (walkField : Walk σ Cause Segment) scanField := by
  have hname : Follows (fieldName <$> keywordOrEnd : Walk σ Cause Bytes)
      (fieldName <$> Scan.keywordOrEnd) := follows_keywordOrEnd.bind_pure fieldName
  exact (hname.expect _ _).bind_pure _

/-- A key of a path must be closed if all of it is there. -/
theorem walkKey_follows : Follows (walkKey : Walk σ Cause _) scanKey := by
  refine (Key.walk_follows _).bind fun p => ?_
  cases p with
  | whole key => exact walkKeyEnd_follows.bind fun _ => follows_pure _
  | opening value length => exact follows_pure _

/-- Each step of a path is told by its first byte. -/
theorem walkSegment_follows (embedded : Bool) :
    Follows (walkSegment embedded : Walk σ Cause _) (scanSegment embedded) := by
  refine follows_peek?.bind fun b? => ?_
  cases b? with
  | none => exact follows_pure _
  | some b =>
    refine ((follows_skip 1).bind fun _ => walkIndex_follows.bind_pure _).ite ?_
    refine ((follows_skip 1).bind fun _ => walkField_follows.bind_pure _).ite ?_
    refine ((follows_skip 1).bind fun _ => walkKey_follows).ite ?_
    exact (follows_pure _).ite (follows_fail _)

/-- A further part of a key of a path. -/
theorem walkKeyPiece_follows (missing : Nat) :
    Follows (walkKeyPiece missing : Walk σ Cause _) (scanKeyPiece missing) := by
  refine (follows_takeOn missing).bind fun p => ?_
  cases p with
  | part value => exact follows_pure _
  | whole value => exact follows_pure _

/-- Whatever may follow the path, a walk for a unit of it reports a step. -/
theorem walk_reports (embedded : Bool) (w : Walker State) (hw : w.IsWithin) :
    Reports (fun _ => State.segment) id w (walk embedded w) (step embedded w.state w.ahead) := by
  obtain ⟨⟨buffer, pos, mark⟩, state⟩ := w
  cases state with
  | segment => exact (walkSegment_follows embedded).report hw rfl
  | keyWithin missing => exact (walkKeyPiece_follows missing).report hw rfl
  | keyEnd =>
    exact walkKeyEnd_follows.andThen hw rfl rfl fun _ _ hv _ =>
      (walkSegment_follows embedded).report hv rfl

/-- A path that has ended could go on with a step. -/
theorem state_of_finish {embedded : Bool} {s t : State} {input : Bytes} {n : Nat}
    (h : step embedded s input = .emit .finish t n) : t = .segment := by
  -- The end is found where a step may come, be it behind the brace of a key.
  have hsegment : ∀ {input n}, Step.ofScan (scanSegment embedded) .segment input =
      .emit .finish t n → t = .segment := by
    intro input n h
    obtain ⟨_, _, hunit, -, -⟩ := scanSegment_eq_done_iff.1 (Step.ofScan_eq_emit_iff.1 h)
    cases hunit <;> rfl
  cases s with
  | segment => exact hsegment h
  | keyWithin missing =>
    obtain ⟨p, _, _, -, hp, -⟩ := Scan.bind_eq_done_iff.1 (Step.ofScan_eq_emit_iff.1 h)
    cases p with
    | part value => cases hp
    | whole value => cases hp
  | keyEnd =>
    cases input with
    | nil => cases h
    | cons b input =>
      by_cases hb : b = Byte.closeBrace
      · rw [hb, step_keyEnd_closeBrace] at h
        obtain ⟨j, hj, -⟩ := Step.shift_eq_emit_iff.1 h
        exact hsegment hj
      · rw [step_keyEnd_of_ne hb] at h
        cases h

/-- The engine of paths does what the machine of paths tells. -/
theorem engine_simulates : engine.Simulates machine id fun _ => id where
  walk := walk_reports false
  view_keep _ _ := rfl
  view_restart _ := rfl
  isFinal := rfl

end Path

/-! ### Updates -/

namespace Update

/-- The state of a machine that reads a part of an update; `path` is that of the path. -/
def Part.state (path : Path.State) : Part → State
  | .path => .path path
  | .operator => .operator
  | .operand => .operand
  | .within missing => .within missing
  | .done => .done

namespace Nested

/-- What a parser with a parser of paths inside shows. -/
def view (s : Nested) : State := s.part.state s.path.state

/-- The parser of the path, when that is not being read any more. -/
def settled (s : Nested) : Kept Path.State :=
  if s.part = .path then { s.path with state := .segment } else s.path

/-- What becomes of a parser when it shows another state. The parser of the path has come to its
    end where the path is left; its cursor never changes. -/
def keep (s : Nested) : State → Nested
  | .path path => ⟨.path, { s.path with state := path }⟩
  | .operator => ⟨.operator, s.settled⟩
  | .operand => ⟨.operand, s.settled⟩
  | .within missing => ⟨.within missing, s.settled⟩
  | .done => ⟨.done, s.settled⟩

/-- What is kept when another state is shown shows this state. -/
theorem view_keep (s : Nested) (t : State) : (s.keep t).view = t := by
  cases t <;> rfl

end Nested

/-- A unit behind the path, with the state that the machine has then. -/
def showing (path : Path.State) : Event × Part → Event × State := Prod.map id (Part.state path)

variable {path : Path.State}

/-- The glyph of the operator. -/
theorem walkGlyph_follows :
    Follows (showing path <$> (walkGlyph : Walk σ Cause _)) scanGlyph := by
  refine follows_byte.bind_map fun b => ?_
  cases Operator.ofGlyph? b with
  | none => exact follows_fail _
  | some oper => exact (follows_skip 1).bind_map fun _ => follows_pure _

/-- The operator, with the space in front of it if there is one. -/
theorem walkOperator_follows :
    Follows (showing path <$> (walkOperator : Walk σ Cause _)) scanOperator := by
  refine follows_peek?.bind_map fun b? => ?_
  dsimp only
  by_cases hspace : b? = some Byte.space
  · rw [if_pos hspace, if_pos hspace]
    exact (follows_skip 1).bind_map fun _ => walkGlyph_follows
  · rw [if_neg hspace, if_neg hspace]
    exact walkGlyph_follows

/-- The operand, or what there is of it. -/
theorem walkOperand_follows :
    Follows (showing path <$> (walkOperand : Walk σ Cause _)) scanOperand := by
  refine (Element.walk_follows form).bind_map fun p => ?_
  cases p with
  | whole operand isLast => exact follows_pure _
  | opening type value length => exact follows_pure _

/-- A further part of the operand. -/
theorem walkPiece_follows (missing : Nat) :
    Follows (showing path <$> (walkPiece missing : Walk σ Cause _)) (scanPiece missing) := by
  refine (follows_takeOn missing).bind_map fun p => ?_
  cases p with
  | part value => exact follows_pure _
  | whole value => exact follows_pure _

/-- The end of an update is where nothing is ahead. -/
theorem walkEnd_follows : Follows (showing path <$> (walkEnd : Walk σ Cause _)) scanEnd := by
  refine follows_peek?.bind_map fun b? => ?_
  cases b? with
  | none => exact follows_pure _
  | some b => exact follows_fail _

namespace Nested

/-- Where the path has been left, another part comes next and nothing else changes. -/
theorem keep_state {s : Nested} (hs : s.part ≠ .path) (part : Part) :
    s.keep (part.state s.path.state) = { s with part } := by
  have hsettled : s.settled = s.path := if_neg hs
  cases part with
  | path => rfl
  | operator => exact congrArg (Nested.mk .operator) hsettled
  | operand => exact congrArg (Nested.mk .operand) hsettled
  | within missing => exact congrArg (Nested.mk (.within missing)) hsettled
  | done => exact congrArg (Nested.mk .done) hsettled

end Nested

/-- A unit behind the path is reported, from a parser that has become `n`. -/
theorem reports_part {unit : Walk Nested Cause (Event × Part)} {scan : Scan Cause (Event × State)}
    {s n : Nested} {w : Walker Nested} (h : Follows (showing n.path.state <$> unit) scan)
    (hw : w.IsWithin) (hkeep : ∀ part : Part, s.keep (part.state n.path.state) = { n with part }) :
    Reports (fun _ => Nested.start) s.keep w (reportPart unit (w.begun n))
      (Step.ofScan scan n.view w.ahead) := by
  have htracks : Tracks (w.begun n) (EStateM.map (showing n.path.state) unit (w.begun n))
      (scan w.ahead) := h (w.begun n) hw
  have hwaiting : n = s.keep n.view := (hkeep n.part).symm
  unfold EStateM.map at htracks
  unfold Step.ofScan Step.andThen
  show Reports _ _ w (EStateM.bind unit _ (w.begun n)) _
  unfold EStateM.bind
  generalize unit (w.begun n) = r at htracks
  generalize scan w.ahead = o at htracks
  cases r with
  | ok found v =>
    cases htracks with
    | done hn => exact .emit ⟨rfl, rfl, hn⟩ (hkeep found.2).symm
  | error halt v =>
    cases htracks with
    | more => exact .wait ⟨rfl, rfl, Nat.zero_le _⟩ hwaiting
    | fault hv => exact .fault rfl

/-- A unit of the path is reported, or the operator where the path has ended. -/
theorem reports_path {w : Walker Nested} (hw : w.IsWithin) (hpart : w.state.part = .path) :
    Reports (fun _ => Nested.start) w.state.keep w (walk w)
      (readPath w.state.path.state w.ahead) := by
  obtain ⟨⟨buffer, pos, mark⟩, part, path⟩ := w
  obtain rfl : part = .path := hpart
  have hpath := Path.walk_reports true ⟨⟨buffer, pos, pos⟩, path.state⟩ hw
  have hfinish : ∀ t n, Path.step true path.state (buffer.drop pos) = .emit .finish t n →
      t = .segment := fun _ _ => Path.state_of_finish
  show Reports _ _ _ (EStateM.bind walkPath _ ⟨⟨buffer, pos, pos⟩, .path, path⟩) _
  unfold EStateM.bind walkPath readPath
  dsimp only [Walker.ahead] at hpath ⊢
  generalize Path.walk true ⟨⟨buffer, pos, pos⟩, path.state⟩ = r at hpath
  generalize Path.step true path.state (buffer.drop pos) = o at hpath hfinish
  cases hpath with
  | @emit v e t n hmoved hstate =>
    cases e with
    | piece piece =>
      refine .emit ⟨hmoved.buffer, hmoved.pos, hmoved.le⟩ ?_
      exact congrArg (fun state => Nested.mk .path { path with state }) hstate
    | finish =>
      -- The operator is looked for from here on, and the parser of the path is at a step again.
      obtain ⟨places, state⟩ := v
      obtain rfl : state = .segment := hstate.trans (hfinish t n rfl)
      let next : Nested := ⟨.operator, .segment, path.cursor⟩
      have hkeep : ∀ part : Part, Nested.keep ⟨.path, path⟩ (part.state next.path.state) =
          { next with part } := fun part => by cases part <;> rfl
      have hu : Walker.Moved ⟨⟨buffer, pos, mark⟩, .path, path⟩ n
          (⟨places, .path, .segment, path.cursor⟩ : Walker Nested) :=
        ⟨hmoved.buffer, hmoved.pos, hmoved.le⟩
      have hreports := reports_part walkOperator_follows (hu.isWithin hw) hkeep
      rw [hu.ahead_eq] at hreports
      exact hreports.shift hu rfl
  | @wait v t n hmoved hstate =>
    refine .wait ⟨hmoved.buffer, hmoved.pos, hmoved.le⟩ ?_
    exact congrArg (fun state => Nested.mk .path { path with state }) hstate
  | @fault v f hv => exact @Reports.fault _ _ _ _ _ _ _ _ (f.map Cause.path) rfl

/-- The engine of updates does what the machine of updates tells, with a parser of paths inside. -/
theorem engine_simulates : engine.Simulates machine Nested.view Nested.keep where
  walk := by
    rintro ⟨⟨buffer, pos, mark⟩, part, path⟩ hw
    cases part with
    | path => exact reports_path hw rfl
    | operator => exact reports_part walkOperator_follows hw (Nested.keep_state nofun)
    | operand => exact reports_part walkOperand_follows hw (Nested.keep_state nofun)
    | within missing => exact reports_part (walkPiece_follows missing) hw (Nested.keep_state nofun)
    | done => exact reports_part walkEnd_follows hw (Nested.keep_state nofun)
  view_keep := Nested.view_keep
  view_restart _ := rfl
  isFinal := rfl

end Update

end PacketWire
