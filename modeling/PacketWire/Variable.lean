import PacketWire.Keyword

namespace PacketWire.Variable

/-!
# Known variables

What a variable holds is read off its name: whatever specializes `_list` holds a list. The
names that belong into the routing header are known one by one, and kept sorted so that a
name is found by halving.
-/

/-- What a variable holds. -/
inductive Kind where
  | unknown
  | amount
  | color
  | date
  | degree
  | dict
  | entity
  | flag
  | language
  | list
  | nick
  | page
  | struct
  | time
  | uniform
deriving DecidableEq, Repr

namespace Kind

/-- All kinds. -/
def all : List Kind :=
  [unknown, amount, color, date, degree, dict, entity, flag, language, list, nick, page, struct,
    time, uniform]

/-- The name of a kind. -/
def name : Kind → String
  | unknown => "unknown"
  | amount => "amount"
  | color => "color"
  | date => "date"
  | degree => "degree"
  | dict => "dict"
  | entity => "entity"
  | flag => "flag"
  | language => "language"
  | list => "list"
  | nick => "nick"
  | page => "page"
  | struct => "struct"
  | time => "time"
  | uniform => "uniform"

/-- The kind of a given name. -/
def ofName? (name : String) : Option Kind := all.find? fun k => k.name == name

/-- Every kind is found by its name. -/
theorem ofName?_name (k : Kind) : ofName? k.name = some k := by
  cases k <;> rfl

end Kind

/-- The names that say what the variables that specialize them hold. -/
def kindTable : List (Bytes × Kind) :=
  [(Bytes.ofText "_amount", .amount),
    (Bytes.ofText "_color", .color),
    (Bytes.ofText "_date", .date),
    (Bytes.ofText "_degree", .degree),
    (Bytes.ofText "_dict", .dict),
    (Bytes.ofText "_entity", .entity),
    (Bytes.ofText "_flag", .flag),
    (Bytes.ofText "_language", .language),
    (Bytes.ofText "_list", .list),
    (Bytes.ofText "_nick", .nick),
    (Bytes.ofText "_page", .page),
    (Bytes.ofText "_struct", .struct),
    (Bytes.ofText "_time", .time),
    (Bytes.ofText "_uniform", .uniform)]

/-- The entry with the longer name; of two equally long ones, the second. -/
def longer (a b : Bytes × Kind) : Bytes × Kind :=
  if b.1.length < a.1.length then a else b

/-- What a variable holds: what the longest known name says that it specializes. -/
def kindOf (name : Bytes) : Kind :=
  match kindTable.filter fun entry => Keyword.specializes name entry.1 with
  | [] => .unknown
  | entry :: entries => (entries.foldl longer entry).2

/-- The variables of the routing header, in dictionary order. -/
def routingTable : Array Bytes :=
  #[Bytes.ofText "_amount_fragments",
    Bytes.ofText "_context",
    Bytes.ofText "_counter",
    Bytes.ofText "_fragment",
    Bytes.ofText "_source",
    Bytes.ofText "_source_relay",
    Bytes.ofText "_source_relay_relay",
    Bytes.ofText "_tag",
    Bytes.ofText "_tag_relay",
    Bytes.ofText "_target",
    Bytes.ofText "_target_forward",
    Bytes.ofText "_target_relay"]

/-- Looks for `name` among the entries from `low` up to, but not including, `high` of a sorted
    table. -/
def search (table : Array Bytes) (name : Bytes) (low high : Nat) : Bool :=
  if _h : low < high then
    let middle := (low + high) / 2
    match table[middle]? with
    | none => false
    | some entry =>
      match Bytes.compare entry name with
      | .eq => true
      | .lt => search table name (middle + 1) high
      | .gt => search table name low middle
  else false
termination_by high - low

/-- The variable belongs into the routing header. -/
def isRouting (name : Bytes) : Bool := search routingTable name 0 routingTable.size

end PacketWire.Variable
