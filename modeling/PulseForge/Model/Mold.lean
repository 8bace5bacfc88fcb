import PulseForge.Model.Wire

/-!
# MoldUDP64 packets and the market data feed (`itch.hpp`, `exchange.cpp`)

The packet builder, the parser, and the feed that numbers and sends messages. Sequence
numbers are counters of the exchange in `ℕ`; the header holds their low 64 bits.
-/

set_option autoImplicit false

namespace PulseForge

open Foundation

namespace Mold

def kSessionLen : ℕ := 10

def kHeaderLen : ℕ := 20

def kMaxPacketLen : ℕ := 1400

def kEndOfSession : ℕ := 65535

structure Header where
  session : Bytes
  sequence : ℕ
  count : ℕ
deriving Repr, DecidableEq

/-- `parse_header` (itch.hpp:327-335). -/
def parseHeader (pkt : Bytes) : Option Header :=
  if pkt.length < kHeaderLen then none
  else some ⟨pkt.take 10, beVal ((pkt.drop 10).take 8), beVal ((pkt.drop 18).take 2)⟩

/-- The blocks of a packet that are delivered, and whether all of them were there. -/
def blocks : ℕ → Bytes → List Bytes × Bool
  | 0, _ => ([], true)
  | count + 1, rest =>
    if rest.length < 2 then ([], false)
    else
      let mlen := beVal (rest.take 2)
      let rest := rest.drop 2
      if rest.length < mlen then ([], false)
      else
        let (msgs, ok) := blocks count (rest.drop mlen)
        (rest.take mlen :: msgs, ok)

/-- `for_each_message`: the calls it makes, and what it returns (itch.hpp:342-361). Sequence
numbers are `uint64_t`. -/
def forEachMessage (pkt : Bytes) (h : Header) : List (ℕ × Bytes) × Bool :=
  if h.count = kEndOfSession then ([], true)
  else
    let (msgs, ok) := blocks h.count (pkt.drop kHeaderLen)
    (msgs.zipIdx.map fun (msg, i) => ((h.sequence + i) % 2 ^ 64, msg), ok)

/-- `PacketBuilder` (itch.hpp:368-407): `countField` is what the last `finish` wrote into
the header, `body` the bytes behind it. -/
structure PacketBuilder where
  session : Bytes
  firstSeq : ℕ := 1
  count : ℕ := 0
  countField : ℕ := 0
  body : Bytes := []
deriving Repr, DecidableEq

namespace PacketBuilder

def begin (p : PacketBuilder) (firstSeq : ℕ) : PacketBuilder :=
  { p with firstSeq := firstSeq, count := 0, body := [] }

def size (p : PacketBuilder) : ℕ := kHeaderLen + p.body.length

/-- `append`: false when the message does not fit. -/
def append (p : PacketBuilder) (msg : Bytes) : PacketBuilder × Bool :=
  if 65535 < msg.length ∨ kMaxPacketLen - p.size < msg.length + 2 then (p, false)
  else
    ({ p with
        body := p.body ++ beBytes 2 msg.length ++ msg
        count := (p.count + 1) % 2 ^ 16 }, true)

def finish (p : PacketBuilder) : PacketBuilder := { p with countField := p.count }

def data (p : PacketBuilder) : Bytes :=
  p.session ++ beBytes 8 p.firstSeq ++ beBytes 2 p.countField ++ p.body

end PacketBuilder

end Mold

/-- One second without a packet. -/
def kHeartbeatNs : ℕ := 1000000000

/-- `MarketDataFeed` (exchange.cpp:243-331); `sent` is every datagram handed to the network. -/
structure MarketDataFeed where
  pkt : Mold.PacketBuilder
  nextSeq : ℕ := 1
  dropEvery : ℕ := 0
  packets : ℕ := 0
  lastSendNs : ℕ := 0
  sent : List Bytes := []
deriving Repr, DecidableEq

namespace MarketDataFeed

/-- The feed of session `session` before anything is published. -/
def new (session : Bytes) (dropEvery : ℕ) : MarketDataFeed :=
  { pkt := Mold.PacketBuilder.begin { session := putAlpha Mold.kSessionLen session } 1
    dropEvery := dropEvery }

/-- `send_current` at a reading of the monotonic clock. -/
def sendCurrent (md : MarketDataFeed) (now : ℕ) : MarketDataFeed :=
  { md with sent := md.sent ++ [md.pkt.data], lastSendNs := now }

/-- `flush` (exchange.cpp:278-291). -/
def flush (md : MarketDataFeed) (now : ℕ) : MarketDataFeed :=
  if md.pkt.count = 0 then md
  else
    let md := { md with pkt := md.pkt.finish, packets := md.packets + 1 }
    let md := if 0 < md.dropEvery ∧ md.packets % md.dropEvery = 0 then md else md.sendCurrent now
    let md := { md with nextSeq := md.nextSeq + md.pkt.count }
    { md with pkt := md.pkt.begin md.nextSeq }

/-- `publish` of encoded bytes (exchange.cpp:258-264). -/
def publish (md : MarketDataFeed) (now : ℕ) (msg : Bytes) : MarketDataFeed :=
  match md.pkt.append msg with
  | (pkt, true) => { md with pkt := pkt }
  | (_, false) =>
    let md := md.flush now
    { md with pkt := (md.pkt.append msg).1 }

/-- `heartbeat_if_idle` (exchange.cpp:295-302). -/
def heartbeatIfIdle (md : MarketDataFeed) (nowMono now : ℕ) : MarketDataFeed :=
  if md.pkt.count ≠ 0 ∨ (nowMono + 2 ^ 64 - md.lastSendNs) % 2 ^ 64 < kHeartbeatNs then md
  else ({ md with pkt := md.pkt.finish } : MarketDataFeed).sendCurrent now

end MarketDataFeed

end PulseForge
