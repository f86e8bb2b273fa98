import PacketWire.DictValue.Parser
import PacketWire.ListValue.Parser
import PacketWire.Modifier
import PacketWire.Update.Parser
import PacketWire.Variable

namespace PacketWire

/-!
# Structured values of modifiers

The value of a modifier is an update if its operator says so; otherwise the name of its
variable tells whether it is a list or a dict, and everything else is just bytes.
-/

/-- The value of a modifier. -/
inductive Structured where
  /-- Just bytes. -/
  | scalar (value : Bytes)
  /-- A list. -/
  | list (list : ListValue)
  /-- A dict. -/
  | dict (dict : DictValue)
  /-- An update. -/
  | update (update : Update)
deriving DecidableEq, Repr

/-- Why the value of a modifier is not what it should be. -/
inductive StructuredError where
  /-- It is no list. -/
  | list (error : ReadError ListValue.Cause)
  /-- It is no dict. -/
  | dict (error : ReadError DictValue.Cause)
  /-- It is no update. -/
  | update (error : ReadError Update.Cause)
deriving DecidableEq, Repr

/-- What is said of a value that is not what it should be. -/
def StructuredError.message : StructuredError → String
  | list e => "malformed list value: " ++ ListValue.errorMessage e
  | dict e => "malformed dict value: " ++ DictValue.errorMessage e
  | update e => "malformed update value: " ++ Update.errorMessage e

/-- The value of a modifier, read as what it should be. -/
def Modifier.structured (m : Modifier) : Except StructuredError Structured :=
  if m.oper = .update then
    (Update.parse m.value).mapError .update |>.map .update
  else
    match Variable.kindOf m.name with
    | .list => (ListValue.parse m.value).mapError .list |>.map .list
    | .dict => (DictValue.parse m.value).mapError .dict |>.map .dict
    | _ => .ok (.scalar m.value)

end PacketWire
