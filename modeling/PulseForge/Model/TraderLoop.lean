import PulseForge.Model.Trader

/-!
# The trader: market data and the event loop (`trader.cpp`)

The snapshot, the packets of the feed, the timer, and the loops of `run`. What a snapshot
connection gives is an argument of the step that may open one. A batch of events is what one
`epoll_wait` returns: every descriptor at most once, in any order.
-/

set_option autoImplicit false

namespace PulseForge

open Foundation

/-- What the network gives `snapshot()`: whether the connection and the login go through, and
the answers of `recv`. -/
structure SnapshotReply where
  connected : Bool := true
  loginSent : Bool := true
  recvs : List (ArgOrder × RecvAnswer) := []

namespace Trader

/-! ## Snapshot -/

/-- The receive loop of `snapshot()`: the trader with the variables of the loop. `refused` says
that the loop has returned false. -/
structure Pull where
  trader : Trader
  reader : Soup.FrameReader := {}
  nextSeq : ℕ := 0
  done : Bool := false
  refused : Bool := false

namespace Pull

/-- One message of a snapshot (trader.cpp:351-364). -/
def onMessage (p : Pull) : Itch.Message → Pull
  | .stockDirectory locate _ stock _ =>
    if stock = p.trader.symbol then { p with trader := { p.trader with locate := locate } } else p
  | .addOrder locate _ orderRef side shares _ price =>
    if p.trader.locate ≠ 0 ∧ locate = p.trader.locate then
      let book := (p.trader.book.add orderRef.toNat side price.toNat shares.toNat 0 0).1
      { p with trader := { p.trader with book := book } }
    else p
  | .endOfSnapshot next => { p with nextSeq := next.toNat, done := true }
  | .systemEvent .. | .orderExecuted .. | .orderCancel .. | .orderDelete .. => p

/-- One frame of a snapshot (trader.cpp:340-365). -/
def onFrame (p : Pull) (f : Soup.Frame) : Pull :=
  if f.type = Soup.kLoginRejected then { p with refused := true }
  else if f.type ≠ Soup.kSequencedData then p
  else match Itch.decode f.payload with
    | none => p
    | some msg => p.onMessage msg

/-- The inner loop: every frame that is complete. Whatever ends it, the outer loop goes on. A
frame takes at least three bytes off the buffer, so the bytes received are fuel enough. -/
def drain : ℕ → Pull → Pull
  | 0, p => p
  | fuel + 1, p =>
    match p.reader.next with
    | (.frame f, reader) =>
      let p := ({ p with reader := reader } : Pull).onFrame f
      if p.refused then p else drain fuel p
    | _ => p

/-- The outer loop (trader.cpp:329-366) on the answers of `recv`; a list that is at its end is
a peer that sends nothing for two seconds. -/
def loop : List (ArgOrder × RecvAnswer) → Pull → Pull
  | recvs, p =>
    if p.done || p.refused then p
    else match recvs with
      | [] => { p with refused := true }
      | (order, answer) :: recvs =>
        let len := order.len p.reader
        let call : RecvCall := ⟨order, p.reader, len⟩
        let p :=
          { p with
            trader := { p.trader with recvs := p.trader.recvs ++ [call] }
            reader := p.reader.writePtr }
        match answer with
        | .data bs =>
          match bs.take len with
          | [] => { p with refused := true }
          | b :: chunk =>
            let p := { p with reader := p.reader.commit (b :: chunk) }
            loop recvs (drain p.reader.data.length p)
        | .closed | .again | .interrupted | .failed => { p with refused := true }

end Pull

/-- `snapshot` (trader.cpp:313-385). -/
def snapshot (t : Trader) (reply : SnapshotReply) : Trader :=
  if reply.connected = false ∨ reply.loginSent = false then t
  else
    let p := Pull.loop reply.recvs { trader := { t with book := t.book.clear, locate := 0 } }
    if p.refused ∨ p.trader.locate = 0 then p.trader
    else
      { p.trader with
        seq := ⟨p.nextSeq⟩
        synced := true
        snapshots := p.trader.snapshots + 1 }

/-- `resync` (trader.cpp:495-504). -/
def resync (t : Trader) (reply : SnapshotReply) : Trader :=
  ({ t with synced := false, resyncs := t.resyncs + 1 } : Trader).cancelAll.snapshot reply

/-! ## Packets -/

/-- The callback of `for_each_message` with the variables it captures. -/
structure Pass where
  trader : Trader
  touched : Bool := false
  gap : Bool := false
  inconsistent : Bool := false

/-- `'C'`. -/
def kEndOfMessages : UInt8 := 67

/-- The body of the callback, for a message whose number was due (trader.cpp:440-461). -/
def Pass.apply (p : Pass) (m : Bytes) : Pass :=
  match Itch.decode m with
  | none => p
  | some msg =>
    let (book, answer) := applyItch p.trader.book p.trader.locate msg
    let p := { p with trader := { p.trader with book := book } }
    match answer with
    | .applied => { p with touched := true }
    | .inconsistent => { p with inconsistent := true }
    | .ignored =>
      match msg with
      | .systemEvent _ _ code =>
        if code = kEndOfMessages then { p with trader := { p.trader with exchangeClosed := true } }
        else p
      | _ => p

/-- The callback (trader.cpp:426-462). -/
def Pass.onMessage (p : Pass) (call : ℕ × Bytes) : Pass :=
  if p.gap || p.inconsistent then p
  else match p.trader.seq.onMessage call.1 with
    | (.duplicate, _) => p
    | (.gap, _) => { p with gap := true }
    | (.apply, seq) => ({ p with trader := { p.trader with seq := seq } } : Pass).apply call.2

/-- What `handle_packet` does behind `for_each_message` (trader.cpp:466-492). -/
def Pass.finish (p : Pass) (reply : SnapshotReply) : Trader :=
  let bookDone := p.trader.nowRealtimeNs
  let t := p.trader.tick
  if p.gap then t.resync reply
  else if p.inconsistent then t.resync reply
  else if p.touched && t.cfg.trade && t.oeUp then t.maybeTrade bookDone
  else t

/-- `handle_packet` (trader.cpp:400-493). A packet that `for_each_message` finds malformed is
only counted. -/
def handlePacket (t : Trader) (pkt : Bytes) (reply : SnapshotReply) : Trader :=
  match Mold.parseHeader pkt with
  | none => t
  | some h =>
    if h.count = Mold.kEndOfSession then t
    else if t.synced = false then t
    else if h.count = 0 then
      match t.seq.onHeartbeat h.sequence with
      | .gap => t.resync reply
      | _ => t
    else
      let (calls, _) := Mold.forEachMessage pkt h
      (calls.foldl Pass.onMessage { trader := t }).finish reply

/-! ## The loop -/

/-- `on_timer` (trader.cpp:911-943) when the timer has expired. -/
def onTimer (t : Trader) (reply : SnapshotReply) : Trader :=
  let now := t.nowNs
  let t := t.tick
  let t :=
    if t.oeUp ∧ kHeartbeatNs ≤ (now + 2 ^ 64 - t.lastOeTx) % 2 ^ 64 then
      (t.oeSend (Soup.writeFrame 3 ⟨Soup.kClientHeartbeat, []⟩)).1
    else t
  let t :=
    if t.synced = false ∧ 500000000 ≤ (now + 2 ^ 64 - t.lastResyncTry) % 2 ^ 64 then
      ({ t with lastResyncTry := now } : Trader).snapshot reply
    else t
  let t := if t.deadlineNs ≤ now then { t with stop := true } else t
  if t.exchangeClosed then { t with stop := true } else t

/-- One stamp of `drain_tx_stamps` (trader.cpp:747-758): the first entry of that id is done. -/
def onTxStamp (t : Trader) (id : ℕ) : Trader :=
  let i := t.txRing.findIdx fun tp => tp.used ∧ tp.txId = id
  { t with txRing := t.txRing.modify i fun tp => { tp with used := false } }

/-- What one descriptor has for the loop. For the order-entry socket: the ids of the stamps on
the error queue, whether EPOLLERR stands for an error of the socket, whether EPOLLOUT is set,
and the answers of `recv` when EPOLLIN or EPOLLHUP is. -/
inductive Ready where
  | md (packets : List (Bytes × SnapshotReply))
  | oe (stamps : List ℕ) (error out : Bool) (recvs : Option (List (ArgOrder × RecvAnswer)))
  | timer (reply : SnapshotReply)
  | signal
deriving Inhabited

/-- `kTagMd`, `kTagOe`, `kTagTimer` and `kTagSignal`. -/
def Ready.tag : Ready → ℕ
  | .md _ => 1
  | .oe .. => 2
  | .timer _ => 3
  | .signal => 4

/-- What one `epoll_wait` returns. -/
structure Batch where
  events : List Ready
  nodup : (events.map Ready.tag).Nodup

/-- `on_oe_event` (trader.cpp:716-739). -/
def onOeEvent (t : Trader) (stamps : List ℕ) (error out : Bool)
    (recvs : Option (List (ArgOrder × RecvAnswer))) : Trader :=
  let t := stamps.foldl onTxStamp t
  if stamps = [] ∧ error then t.oeLost
  else
    let t := if out then flushOePending t.oePending.length t else t
    match recvs with
    | some recvs => readOe recvs t
    | none => t

/-- One event of a batch (trader.cpp:945-968). -/
def handle (t : Trader) : Ready → Trader
  | .md packets => packets.foldl (fun t (pkt, reply) => t.handlePacket pkt reply) t
  | .oe stamps error out recvs => t.onOeEvent stamps error out recvs
  | .timer reply => t.onTimer reply
  | .signal => { t with stop := true }

/-- `pump`. -/
def pump (t : Trader) (batch : Batch) : Trader := batch.events.foldl handle t

/-- Where `run` is: in its loop, in the loop that winds down, or behind both. -/
inductive Phase where
  | running
  | winding
  | finished
deriving Repr, DecidableEq

/-- The process. -/
structure Process where
  trader : Trader
  phase : Phase := .running
  windUntil : ℕ := 0

/-- Between the two loops (trader.cpp:1110-1112). -/
def Process.windDown (p : Process) : Process :=
  let t := p.trader.cancelAll
  { trader := { t with stop := false }.tick, phase := .winding
    windUntil := (t.nowNs + 200000000) % 2 ^ 64 }

/-- Behind the loops (trader.cpp:1116-1121). -/
def Process.finish (p : Process) : Process :=
  { p with
    trader :=
      if p.trader.oeUp then (p.trader.oeSend (Soup.writeFrame 3 ⟨Soup.kLogoutRequest, []⟩)).1
      else p.trader
    phase := .finished }

/-- The test of a loop, and one batch when the loop goes on (trader.cpp:1105-1115). -/
def Process.step (p : Process) (batch : Batch) : Process :=
  match p.phase with
  | .running => if p.trader.stop then p.windDown else { p with trader := p.trader.pump batch }
  | .winding =>
    if p.trader.oeUp ∧ 0 < p.trader.orders.size ∧ p.trader.nowNs < p.windUntil then
      { p with trader := p.trader.tick.pump batch }
    else p.finish
  | .finished => p

/-! ## Start -/

/-- The constructor: the default book, a table of 1024 orders. -/
def new (cfg : TraderConfig) (clock : Clock) (kernel : ℕ → Session.Send) : Option Trader :=
  match OrderBook.new {}, FlatIdMap.new 1024 with
  | .ok book, some orders =>
    some
      { cfg := cfg, book := book, orders := orders, risk := .new cfg.risk, strat := { p := cfg.strat }
        clock := clock, kernel := kernel }
  | _, _ => none

/-- The loop of `connect_order_entry` that waits for the login reply (trader.cpp:691-710): one
call of `next` behind each `recv`. `none` is an exception. -/
def awaitLogin : List (ArgOrder × RecvAnswer) → Trader → Option Trader
  | [], _ => none
  | (order, answer) :: recvs, t =>
    let len := order.len t.oeReader
    let t := { t with oeReader := t.oeReader.writePtr }
    match answer with
    | .data bs =>
      match bs.take len with
      | [] => none
      | b :: chunk =>
        let t := { t with oeReader := t.oeReader.commit (b :: chunk) }
        match t.oeReader.next with
        | (.frame f, reader) =>
          if f.type = Soup.kLoginAccepted then some { t with oeReader := reader } else none
        | _ => awaitLogin recvs t
    | .closed | .again | .interrupted | .failed => none

/-- `connect_order_entry` (trader.cpp:672-714), when the connection is there and the login is
sent. -/
def connectOrderEntry (t : Trader) (login : List (ArgOrder × RecvAnswer)) : Option Trader :=
  let frame := loginFrame t.cfg.user
  let t := { t.took frame frame.length with oeUp := true, txTs := t.cfg.txTimestamps }
  awaitLogin login { t with lastOeTx := t.nowNs }.tick

/-- The beginning of `run` (trader.cpp:1086-1099): `none` is a process that ends there. -/
def start (cfg : TraderConfig) (clock : Clock) (kernel : ℕ → Session.Send) (reply : SnapshotReply)
    (login : List (ArgOrder × RecvAnswer)) : Option Process :=
  match new cfg clock kernel with
  | none => none
  | some t =>
    let t := t.snapshot reply
    if t.synced = false then none
    else (t.connectOrderEntry login).map fun t =>
      { trader := { t with deadlineNs := (t.nowNs + 1000000000 * t.cfg.durationS) % 2 ^ 64 }.tick }

/-- The process behind a list of batches. -/
def Process.after (p : Process) (batches : List Batch) : Process := batches.foldl Process.step p

end Trader

end PulseForge
