import PacketWire.Packet.Parser
import PacketWire.Reader.Incoming

namespace PacketWire

/-!
# Reading packets from a stream

A reader is fed the bytes of a stream as they come, in chunks of any size, and gives the packets
in them one by one. Bytes that have been read are dropped. After a fault the reader drops all it
has and takes the next bytes for the start of a packet.
-/

/-- Why a reader gives no packet, though bytes are there. -/
inductive ReaderError where
  /-- The stream holds something else than packets. -/
  | malformed (fault : Fault Packet.Cause)
  /-- A value has more bytes than the reader accepts. -/
  | valueTooLarge (length max : Nat)
deriving DecidableEq, Repr

/-- What is said of a stream that cannot be read. -/
def ReaderError.message : ReaderError → String
  | malformed f => "malformed packet: " ++ f.message
  | valueTooLarge length max =>
    "value of " ++ toString length ++ " bytes exceeds the limit of " ++ toString max

/-- The length that an event announces for a value of which it brings the first part. -/
def Packet.Event.announces? : Packet.Event → Option Nat
  | entityOpening _ length => some length
  | bodyOpening _ _ length => some length
  | contentOpening _ length => some length
  | _ => none

/-- A reader in the middle of a stream. -/
structure Reader where
  /-- The parser. -/
  parser : Parser Packet.machine
  /-- The bytes that have come and are not dropped yet. -/
  buffer : Bytes := []
  /-- The packet that is coming in. -/
  incoming : Incoming := {}
  /-- The longest value in parts that is accepted. -/
  maxValue : Nat

namespace Reader

/-- The longest value in parts that is accepted where nothing else is said: 16 MiB. -/
def defaultMaxValue : Nat := 16 * 1024 * 1024

/-- A reader at the start of a stream. -/
def start (mode : ModeBits) (maxValue : Nat) : Reader where
  parser := Packet.parser (.ofBits mode)
  maxValue := maxValue

/-- More bytes of the stream. -/
def feed (r : Reader) (bytes : Bytes) : Reader := { r with buffer := r.buffer ++ bytes }

/-- Drops the bytes that have been read. -/
def dropRead (r : Reader) : Reader :=
  let (read, parser) := r.parser.discard
  { r with parser, buffer := r.buffer.drop read }

/-- Drops all bytes, and the packet that is coming in. -/
def clear (r : Reader) : Reader := { r with buffer := [], incoming := {} }

/-- What a call of a reader gives: a packet, nothing yet, or a fault. -/
abbrev Result := Except ReaderError (Option Received)

/-- The length that an event announces, if it is beyond the limit. -/
def excess? (r : Reader) (e : Packet.Event) : Option Nat :=
  e.announces?.filter fun length => r.maxValue < length

/-- Reads up to `calls` units, until a packet is complete or there is none. -/
def nextWithin (r : Reader) : Nat → Result × Reader
  | 0 => (.ok none, r)
  | calls + 1 =>
    let (answer, parser) := r.parser.parse r.buffer
    let read := { r with parser }
    match answer with
    | .more => (.ok none, read.dropRead)
    | .fault f => (.error (.malformed f), read.clear)
    -- What has come of the next packet stays in the buffer.
    | .event .complete => (.ok (some r.incoming.packet), { read.dropRead with incoming := {} })
    | .event e =>
      match r.excess? e with
      | some length =>
        -- The parser stands inside the value, so it is made to start over, too.
        (.error (.valueTooLarge length r.maxValue), { read.clear with parser := parser.reset })
      | none => nextWithin { read with incoming := r.incoming.apply e } calls

/-- The next packet, if all of it has come. Every unit takes a byte, so the number of bytes
    bounds the number of units. -/
def next (r : Reader) : Result × Reader := r.nextWithin (r.buffer.length + 1)

/-- The results up to the first that is no packet, of which there are at most `packets`. -/
def drainWithin (r : Reader) : Nat → List Result × Reader
  | 0 =>
    let (result, r) := r.next
    ([result], r)
  | packets + 1 =>
    match r.next with
    | (.ok (some p), r) =>
      let (results, r) := r.drainWithin packets
      (.ok (some p) :: results, r)
    | (result, r) => ([result], r)

/-- The results up to the first that is no packet. Every packet takes bytes, so their number
    bounds the number of packets. -/
def drain (r : Reader) : List Result × Reader := r.drainWithin r.buffer.length

/-! ### Chunks

The reader is fed one chunk after the other, and gives all packets that are complete before the
next chunk comes.
-/

/-- What a stream gives: its packets up to the first fault, and the fault or the reader after the
    last chunk. -/
structure Reception where
  /-- The packets in order. -/
  packets : List Received
  /-- Where it ended. -/
  last : Except ReaderError Reader

/-- The packets among the results of a reader. -/
def packets (results : List Result) : List Received :=
  results.filterMap fun result =>
    match result with
    | .ok p => p
    | .error _ => none

/-- The fault among the results of a reader. -/
def fault? (results : List Result) : Option ReaderError :=
  results.findSome? fun result =>
    match result with
    | .ok _ => none
    | .error e => some e

/-- Feeds the chunks in order, and reads all packets that are complete behind each. -/
def receive (r : Reader) : List Bytes → Reception
  | [] => ⟨[], .ok r⟩
  | chunk :: chunks =>
    let (results, r) := (r.feed chunk).drain
    match fault? results with
    | some e => ⟨packets results, .error e⟩
    | none =>
      let rest := r.receive chunks
      ⟨packets results ++ rest.packets, rest.last⟩

end Reader

end PacketWire
