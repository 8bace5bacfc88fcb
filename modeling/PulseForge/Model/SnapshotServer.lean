import Mathlib.Tactic

/-!
# Ticks and the recovery service (`message.hpp`, `snapshot_server.cpp`, `snapshot_client.cpp`)

The server keeps the last ticks the publisher generated in a ring, and answers a request for a
range of sequence numbers with the ticks in front of the first hole.
-/

set_option autoImplicit false

namespace PulseForge

/-- message.hpp:24-31. -/
structure TickMessage where
  sequence : UInt64
  sendTimestampNs : UInt64
  symbolId : UInt32
  price : Int64
  quantity : UInt32
  flags : UInt32
deriving Repr, DecidableEq, Inhabited

/-- `TICK_FLAG_TRADE | TICK_FLAG_QUOTE | TICK_FLAG_LAST` (message.hpp:18-22). -/
def kKnownFlags : UInt32 := 7

/-- message.hpp:64-75. -/
def messageIsValid (msg : TickMessage) : Bool :=
  !(msg.quantity == 0) && msg.flags &&& ~~~kKnownFlags == 0

/-- snapshot_protocol.hpp. -/
def kSnapshotRingCapacity : ℕ := 8192

/-- snapshot_protocol.hpp. -/
def kMaxSnapshotRequestLen : UInt64 := 4096

/-- The ring and the number in each slot, `UINT64_MAX` in an empty one. -/
structure SnapshotServer where
  ring : List TickMessage := List.replicate kSnapshotRingCapacity default
  slotSeq : List UInt64 := List.replicate kSnapshotRingCapacity (0 - 1)

namespace SnapshotServer

/-- The slot of a sequence number. -/
def slot (s : UInt64) : ℕ := s.toNat % kSnapshotRingCapacity

/-- snapshot_server.cpp:80-85. -/
def record (srv : SnapshotServer) (msg : TickMessage) : SnapshotServer where
  ring := srv.ring.set (slot msg.sequence) msg
  slotSeq := srv.slotSeq.set (slot msg.sequence) msg.sequence

/-- The slot of `s` holds `s`. -/
def keeps (srv : SnapshotServer) (s : UInt64) : Bool := srv.slotSeq.getD (slot s) 0 == s

/-- The loop of `serve_request` up to `bound`, from `s` on; `count` iterations are fuel enough. -/
def serveLoop (srv : SnapshotServer) (bound : UInt64) : ℕ → UInt64 → List TickMessage
  | 0, _ => []
  | fuel + 1, s =>
    if s < bound then
      if srv.keeps s then srv.ring.getD (slot s) default :: srv.serveLoop bound fuel (s + 1) else []
    else []

/-- snapshot_server.cpp:87-99. -/
def serveRequest (srv : SnapshotServer) (fromSeq count : UInt64) : List TickMessage :=
  srv.serveLoop (fromSeq + count) count.toNat fromSeq

/-- What `handle_client` answers to a request (snapshot_server.cpp:101-120). -/
def handleClient (srv : SnapshotServer) (fromSeq count : UInt64) : List TickMessage :=
  srv.serveRequest fromSeq (if kMaxSnapshotRequestLen < count then kMaxSnapshotRequestLen else count)

end SnapshotServer

end PulseForge
