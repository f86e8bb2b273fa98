import PacketWire.Document
import PacketWire.Proofs.Canonical
import PacketWire.Proofs.Decimal.Exact
import PacketWire.Proofs.Grammar
import PacketWire.Proofs.Packet.RawRoundTrip
import PacketWire.Proofs.Packet.Room
import PacketWire.Proofs.Packet.TwoStage
import PacketWire.Proofs.Progress
import PacketWire.Proofs.Reader.InStep
import PacketWire.Proofs.Reader.Separate
import PacketWire.Proofs.Reader.Structured
import PacketWire.Proofs.Resumable.Beginnings
import PacketWire.Proofs.Resumable.Values
import PacketWire.Proofs.Scanner.Compaction
import PacketWire.Proofs.StreamSplitter
import PacketWire.Proofs.Update.Resume
import PacketWire.Proofs.Variable.Lookup
