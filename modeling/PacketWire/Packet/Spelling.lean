import PacketWire.Keyword
import PacketWire.Received
import PacketWire.Spelling

namespace PacketWire.Packet

/-!
# How packets may be written

Every line of a packet may be written in one way or another: a modifier with or without its length,
an empty value with or without the tab, the content with its length or up to the first line that is
just `|`. What may be written is told here for the packets that a receiver puts together from their
fields.
-/

/-- The ways to write a modifier without a length. -/
inductive PlainSpelled : Spelling Modifier where
  /-- An empty value may go without its tab. -/
  | bare {oper : Operator} {name : Bytes} :
      isKeyword name → PlainSpelled ⟨oper, name, []⟩ (oper.glyph :: name ++ [Byte.lineFeed])
  /-- A value that does not hold the end of the line. -/
  | valued {oper : Operator} {name value : Bytes} :
      isKeyword name → Byte.lineFeed ∉ value →
        PlainSpelled ⟨oper, name, value⟩
          (oper.glyph :: name ++ Byte.tab :: value ++ [Byte.lineFeed])

/-- The ways to write a modifier in the content. -/
inductive EntitySpelled : Spelling Modifier where
  /-- A modifier without a length. -/
  | plain {m : Modifier} {text : Bytes} : PlainSpelled m text → EntitySpelled m text
  /-- A modifier with the length of its value. -/
  | counted {oper : Operator} {name value digits : Bytes} :
      isKeyword name → Numeral value.length digits →
        EntitySpelled ⟨oper, name, value⟩
          (oper.glyph :: name ++ Byte.space :: digits ++ Byte.tab :: value ++ [Byte.lineFeed])

theorem EntitySpelled.ne_nil {m : Modifier} {text : Bytes} (h : EntitySpelled m text) :
    text ≠ [] := by
  cases h with
  | plain h => cases h <;> simp
  | counted => simp

/-- The ways to write a state action. -/
inductive StateSpelled : Spelling StateAction where
  /-- No action is not written. -/
  | none : StateSpelled .none []
  /-- A line that is just `=`. -/
  | reset : StateSpelled .reset [61, Byte.lineFeed]
  /-- A line that is just `?`. -/
  | resync : StateSpelled .resync [63, Byte.lineFeed]

/-- The ways to write a method and data. -/
inductive BodySpelled : Bytes → Bytes → Bytes → Prop where
  /-- Without a method there is no data. -/
  | absent : BodySpelled [] [] []
  /-- A method without data. -/
  | method {method : Bytes} : isKeyword method → BodySpelled method [] (method ++ [Byte.lineFeed])
  /-- A method, and data that ends with a line feed of its own. -/
  | data {method data : Bytes} :
      isKeyword method →
        BodySpelled method data (method ++ Byte.lineFeed :: data ++ [Byte.lineFeed])

/-- The ways to write the content of a packet: the state action, the entity modifiers, the method
    and the data. -/
inductive ContentSpelled (p : Received) : Bytes → Prop where
  /-- The fields one behind the other. -/
  | mk {state entity body : Bytes} :
      StateSpelled p.state state → Series EntitySpelled p.entity entity →
        BodySpelled p.method p.data body → p.content = [] →
        ContentSpelled p (state ++ entity ++ body)

/-- The ways to write a packet. -/
inductive Spelled : Spelling Received where
  /-- A packet without content has no length line. -/
  | empty {routing : List Modifier} {header : Bytes} :
      Series PlainSpelled routing header → Spelled { routing } (header ++ closingLine)
  /-- The length line tells the length of the content. -/
  | counted {p : Received} {header digits content : Bytes} :
      Series PlainSpelled p.routing header → Numeral content.length digits →
        ContentSpelled p content →
        Spelled p (header ++ digits ++ Byte.lineFeed :: content ++ closingLine)
  /-- The length line is empty, and no line of the data closes the packet. -/
  | delimited {p : Received} {header content : Bytes} :
      Series PlainSpelled p.routing header → ContentSpelled p content →
        [Byte.pipe] ∉ Bytes.split Byte.lineFeed p.data →
        Spelled p (header ++ Byte.lineFeed :: content ++ closingLine)

end PacketWire.Packet
