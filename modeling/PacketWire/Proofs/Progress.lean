import PacketWire.Proofs.DictValue.Advance
import PacketWire.Proofs.ListValue.Advance
import PacketWire.Proofs.Packet.Turns
import PacketWire.Proofs.Reader.Loop
import PacketWire.Proofs.Update.Advance

namespace PacketWire

open PacketWire.Parser

/-!
# Every loop ends

The parsers of lists, dicts, paths, updates and packets make progress with every call, and so the
loops over their calls come to an end (`calls_progress`): those that read a value from its buffer,
and the one that reads the next packet from a stream. The loop inside a step of the packet parser
ends by itself, as it goes on to parts further behind.
-/

variable {σ ε κ α : Type} {m : Machine σ ε κ} {start : Parser m} {Still : ε → Prop}

/-- What is read of a buffer is read off the answers of a loop over calls that comes to an end. -/
def ReadsByLoop (start : Parser m) (read : Bytes → α) (ofAnswers : List (Answer ε κ) → α) : Prop :=
  ∀ buffer, ∃ answers, Drains buffer start answers ∧ read buffer = ofAnswers answers

/-- A value is read by the loop over the calls, which ends. -/
theorem readsByLoop (h : start.AlwaysProgresses Still) (hc : start.cursor = 0)
    (ofAnswers : List (Answer ε κ) → α) :
    ReadsByLoop start (fun buffer => ofAnswers (start.drain buffer)) ofAnswers :=
  fun buffer => ⟨_, (h start buffer .start (hc ▸ Nat.zero_le _)).drains, rfl⟩

/-- Lists are read on with every call, up to their end. -/
theorem alwaysProgresses_list : ListValue.parser.AlwaysProgresses (· = .finish) :=
  alwaysProgresses ListValue.advances_machine trivial

/-- Dicts are read on with every call, up to their end. -/
theorem alwaysProgresses_dict : DictValue.parser.AlwaysProgresses (· = .finish) :=
  alwaysProgresses DictValue.advances_machine trivial

/-- Paths are read on with every call, up to their end. -/
theorem alwaysProgresses_path : Path.parser.AlwaysProgresses (· = .finish) :=
  alwaysProgresses Path.advances_machine trivial

/-- Updates are read on with every call, but for an empty operand and the end. -/
theorem alwaysProgresses_update : Update.parser.AlwaysProgresses
    fun e => e = .finish ∨ e = .operand Update.emptyOperand :=
  alwaysProgresses Update.advances_machine trivial

/-- Packets are read on with every call, but for the end of content that comes by itself. -/
theorem alwaysProgresses_packet (mode : Mode) : (Packet.parser mode).AlwaysProgresses
    fun e => e = .complete ∧ ∃ length, mode = .contentOnly length :=
  alwaysProgresses (Packet.advances_machine mode) ⟨rfl, Packet.State.lacksBytes_of_nothing rfl⟩

/-- Every call makes progress or stands still, and every loop over calls ends.

    With each unit a parser moves its cursor forward, but for the end, for an operand of an update
    of which nothing is there, and for the end of content that comes by itself; behind an operand
    there is nothing but the end. Where a parser needs more input it needs it again. So the calls
    with a buffer come to an end, as does the loop inside a step of the packet parser; values are
    read by such calls, and the call of a reader for the next packet comes to an end, whatever the
    reader was fed and asked for. -/
theorem calls_progress :
    (ListValue.parser.AlwaysProgresses (· = .finish) ∧
      DictValue.parser.AlwaysProgresses (· = .finish) ∧
      Path.parser.AlwaysProgresses (· = .finish) ∧
      Update.parser.AlwaysProgresses (fun e => e = .finish ∨ e = .operand Update.emptyOperand) ∧
      ∀ mode, (Packet.parser mode).AlwaysProgresses
        fun e => e = .complete ∧ ∃ length, mode = .contentOnly length) ∧
    (∀ {p q r : Parser Update.machine} {buffer later operand es},
      p.parse buffer = (.event (.operand operand), q) → Reads later q es r →
        ∀ e ∈ es, e = .finish) ∧
    (∀ (s : Packet.State) input, s.Loops input (Packet.step s input)) ∧
    (ReadsByLoop ListValue.parser ListValue.parse (ListValue.ofAnswers ⟨[], []⟩) ∧
      ReadsByLoop DictValue.parser DictValue.parse (DictValue.ofAnswers ⟨[], []⟩ none) ∧
      ReadsByLoop Path.parser Path.parse (Path.ofAnswers ⟨[]⟩) ∧
      ReadsByLoop Update.parser Update.parse (Update.ofAnswers {})) ∧
    ∀ {mode max} {r : Reader}, Reader.Reachable mode max r → r.Loops r.next :=
  ⟨⟨alwaysProgresses_list, alwaysProgresses_dict, alwaysProgresses_path, alwaysProgresses_update,
      alwaysProgresses_packet⟩,
    Update.eq_finish_behind_operand, Packet.loops_step,
    ⟨readsByLoop alwaysProgresses_list rfl _, readsByLoop alwaysProgresses_dict rfl _,
      readsByLoop alwaysProgresses_path rfl _, readsByLoop alwaysProgresses_update rfl _⟩,
    Reader.Reachable.loops_next⟩

/-- An operator alone is an update whose operand stands still, once, and only the end comes behind
    it; the length of a value that ends the buffer is waited for behind the `|`, as often as one
    asks; and a reader that was fed the smallest packet gives it. -/
theorem progresses_operator_alone :
    (Drains (Bytes.ofText "=") Update.parser
        [.event (.operator .assign), .event (.operand Update.emptyOperand), .event .finish] ∧
      ∀ {es r}, Reads (Bytes.ofText "=") (⟨.done, 1⟩ : Parser Update.machine) es r →
        ∀ e ∈ es, e = .finish) ∧
    (ListValue.parser.parse (Bytes.ofText "|:3")).2.parse (Bytes.ofText "|:3") =
      (.more, (ListValue.parser.parse (Bytes.ofText "|:3")).2) ∧
    ∃ r, ((Reader.start ⟨0⟩ 0).feed (Bytes.ofText "|\n")).Loops (.ok (some {}), r) := by
  obtain ⟨⟨hlist, -, -, hupdate, -⟩, hbehind, -, -, hreader⟩ := calls_progress
  have hoperand : (⟨.operand, 1⟩ : Parser Update.machine).parse (Bytes.ofText "=") =
      (.event (.operand Update.emptyOperand), ⟨.done, 1⟩) := rfl
  exact ⟨⟨(hupdate Update.parser (Bytes.ofText "=") .start (by decide)).drains, hbehind hoperand⟩,
    (hlist ListValue.parser (Bytes.ofText "|:3") .start (by decide)).more _ rfl,
    _, hreader (.feed _ .start)⟩

end PacketWire
