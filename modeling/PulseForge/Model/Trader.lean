import PulseForge.Model.Exchange
import PulseForge.Model.FeedHandler
import PulseForge.Model.Strategy

/-!
# The trader: orders and the order-entry session (`trader.cpp`)

The state of the process, the way from a signal to an order on the wire, and the reports that
come back. What the kernel answers to `send` is an oracle of the state, what it answers to
`recv` an argument. `wire`, `entered`, `recvs` and `overflowed` record what the process did:
the bytes the kernel took, the orders it was given, the arguments of every `recv` of a
receive loop, and whether a sum of the risk check left the range of its type, where the
source is undefined; the program does not read them. Latency samples, the cash account and
the counters that only the report prints are left out.
-/

set_option autoImplicit false

namespace PulseForge

open Foundation

/-- trader.cpp:76-93, what the model reads of it; `txTimestamps` is asked for and granted. -/
structure TraderConfig where
  symbol : Bytes
  user : Bytes
  durationS : ℕ := 20
  txTimestamps : Bool := true
  trade : Bool := true
  strat : StrategyParams := {}
  risk : RiskLimits := {}

/-- trader.cpp:235-245. -/
structure LiveOrder where
  userRef : ℕ := 0
  side : Side := .buy
  price : ℤ := 0
  qty : ℕ := 0
  leaves : ℕ := 0
  exchId : ℕ := 0
  accepted : Bool := false
deriving Repr, DecidableEq, Inhabited

/-- trader.cpp:249-254. -/
structure TxPending where
  txId : ℕ := 0
  used : Bool := false
deriving Repr, DecidableEq, Inhabited

def kTxRing : ℕ := 256

/-- The two ways to evaluate the arguments of `recv(fd, r.write_ptr(), r.write_space(), 0)`. -/
inductive ArgOrder where
  | ptrFirst
  | spaceFirst
deriving Repr, DecidableEq

/-- One call of `recv`: the reader before it, and the length it is given. -/
structure RecvCall where
  order : ArgOrder
  reader : Soup.FrameReader
  len : ℕ
deriving Repr, DecidableEq

/-- What `recv` answers. -/
inductive RecvAnswer where
  | data (bs : Bytes)
  | closed
  | again
  | interrupted
  | failed
deriving Repr, DecidableEq

/-- The length that `recv` is given: `write_ptr()` may slide the buffer before or after
`write_space()` is read. -/
def ArgOrder.len (order : ArgOrder) (r : Soup.FrameReader) : ℕ :=
  match order with
  | .ptrFirst => r.writePtr.writeSpace
  | .spaceFirst => r.writeSpace

structure Trader where
  cfg : TraderConfig
  locate : UInt16 := 0
  book : OrderBook
  seq : SequenceTracker := {}
  orders : FlatIdMap LiveOrder
  risk : RiskGate
  strat : ImbalanceStrategy
  oeReader : Soup.FrameReader := {}
  oePending : Bytes := []
  wantWrite : Bool := false
  txRing : List TxPending := List.replicate kTxRing {}
  txHead : ℕ := 0
  streamBytes : ℕ := 0
  nextUserRef : ℕ := 1
  synced : Bool := false
  oeUp : Bool := false
  txTs : Bool := false
  stop : Bool := false
  exchangeClosed : Bool := false
  deadlineNs : ℕ := 0
  lastOeTx : ℕ := 0
  lastResyncTry : ℕ := 0
  resyncs : ℕ := 0
  snapshots : ℕ := 0
  clock : Clock
  kernel : ℕ → Session.Send
  sends : ℕ := 0
  wire : Bytes := []
  entered : List Ouch.EnterOrder := []
  recvs : List RecvCall := []
  overflowed : Bool := false

namespace Trader

/-- `symbol_`. -/
def symbol (t : Trader) : Symbol := Alpha.ofBytes (putAlpha 8 t.cfg.symbol)

/-- `now_ns()` at the current reading. -/
def nowNs (t : Trader) : ℕ := t.clock.monotonic t.clock.readings

/-- `now_realtime_ns()` at the current reading. -/
def nowRealtimeNs (t : Trader) : ℕ := t.clock.realtime t.clock.readings

/-- Time goes on between two readings. -/
def tick (t : Trader) : Trader :=
  { t with clock := { t.clock with readings := t.clock.readings + 1 } }

/-- trader.cpp:517-522. -/
def midPrice (t : Trader) : ℤ :=
  if t.book.empty .buy || t.book.empty .sell then 0
  else (i64 (t.book.bestPrice .buy + t.book.bestPrice .sell)).tdiv 2

/-! ## The order-entry stream -/

/-- The kernel takes the first `k` bytes. -/
def took (t : Trader) (bs : Bytes) (k : ℕ) : Trader :=
  { t with streamBytes := (t.streamBytes + k) % 2 ^ 64, wire := t.wire ++ bs.take k }

/-- `oe_send` (trader.cpp:625-651), and whether everything went out at once. -/
def oeSend (t : Trader) (bs : Bytes) : Trader × Bool :=
  if t.oeUp = false then (t, false)
  else if t.oePending ≠ [] then ({ t with oePending := t.oePending ++ bs }, false)
  else
    let answer := t.kernel t.sends
    let t := { t with sends := t.sends + 1 }
    let part := fun k => { t.took bs k with oePending := bs.drop k, wantWrite := true }
    match answer with
    | .accepted n =>
      if bs.length ≤ n then ({ t.took bs bs.length with lastOeTx := t.nowNs }.tick, true)
      else (part n, false)
    | .again => (part 0, false)
    | .interrupted | .failed => ({ t with oeUp := false }, false)

/-- `flush_oe_pending` (trader.cpp:653-668); `send` takes at least one byte of what it is
given, so the bytes pending are fuel enough. -/
def flushOePending : ℕ → Trader → Trader
  | 0, t => if t.oePending = [] then { t with wantWrite := false } else t
  | fuel + 1, t =>
    if t.oePending = [] then { t with wantWrite := false }
    else
      let answer := t.kernel t.sends
      let t := { t with sends := t.sends + 1 }
      match answer with
      | .accepted n =>
        let k := min (max n 1) t.oePending.length
        flushOePending fuel { t.took t.oePending k with oePending := t.oePending.drop k }
      | .again => t
      | .interrupted | .failed => { t with oeUp := false }

/-- `login_frame` (trader.cpp:217-225). -/
def loginFrame (user : Bytes) : Bytes :=
  Soup.writeFrame 64 ⟨Soup.kLoginRequest,
    Soup.encodeLoginRequest { username := user, password := [112, 117, 108, 115, 101] }⟩

/-! ## From a signal to an order -/

/-- The message of an order (trader.cpp:550-559). -/
def enterOrder (t : Trader) (o : LiveOrder) : Ouch.EnterOrder where
  userRef := UInt32.ofNat o.userRef
  side := o.side
  qty := UInt32.ofNat o.qty
  symbol := t.symbol
  price := Int64.ofInt o.price
  tif := .ioc
  clordid := Alpha.ofBytes (putAlpha 14 ([80, 70] ++ toChars o.userRef))

/-- The frame that `send_order` writes around the encoded message (trader.cpp:561-568). -/
def orderFrame (m : Ouch.EnterOrder) : Bytes :=
  let payload := Ouch.encodeInbound (.enterOrder m) (64 - Soup.kFrameHeaderLen)
  beBytes 2 (payload.length + 1) ++ Soup.kUnsequencedData :: payload

/-- `send_order` (trader.cpp:542-592). -/
def sendOrder (t : Trader) (sig : Signal) (bookDone : ℕ) : Trader :=
  let o : LiveOrder :=
    { userRef := t.nextUserRef, side := sig.side, price := sig.price, qty := sig.qty
      leaves := sig.qty }
  let m := t.enterOrder o
  let t := { t with nextUserRef := (t.nextUserRef + 1) % 2 ^ 32, entered := t.entered ++ [m] }
  let (t, whole) := t.oeSend (orderFrame m)
  let t :=
    { t with
      orders := (t.orders.insert o.userRef o).1
      risk := t.risk.onOrderSent o.side o.qty bookDone }
  if whole && t.txTs then
    { t with
      txRing := t.txRing.set (t.txHead % kTxRing) ⟨(t.streamBytes + 2 ^ 64 - 1) % 2 ^ 32, true⟩
      txHead := t.txHead + 1 }
  else t

/-- `maybe_trade` (trader.cpp:526-540). -/
def maybeTrade (t : Trader) (bookDone : ℕ) : Trader :=
  let (sig, strat) :=
    t.strat.onBookUpdate t.book t.risk.position (decide (0 < t.orders.size)) bookDone
  let t := { t with strat := strat }
  match sig with
  | none => t
  | some sig =>
    match t.risk.check sig.side sig.price sig.qty t.midPrice bookDone with
    | .pass =>
      ({ t with overflowed := t.overflowed || t.risk.overflows sig.side sig.qty } : Trader).sendOrder
        sig bookDone
    | _ => t

/-- `send_cancel` (trader.cpp:594-603). -/
def sendCancel (t : Trader) (userRef : ℕ) : Trader :=
  let payload := Ouch.encodeInbound (.cancelOrder ⟨UInt32.ofNat userRef, 0⟩) 9
  (t.oeSend (Soup.writeFrame 32 ⟨Soup.kUnsequencedData, payload⟩)).1

/-- `cancel_all` (trader.cpp:607-620). -/
def cancelAll (t : Trader) : Trader :=
  if t.oeUp = false then t
  else
    let refs := (t.orders.forEach.filter fun (_, o) => 0 < o.leaves).map Prod.fst
    refs.foldl sendCancel t

/-! ## Reports -/

/-- `close_order` (trader.cpp:904-907). -/
def closeOrder (t : Trader) (userRef : ℕ) : Trader :=
  { t with risk := t.risk.onOrderClosed, orders := (t.orders.erase userRef).1 }

/-- `on_accepted` (trader.cpp:834-851). -/
def onAccepted (t : Trader) (userRef orderRef : ℕ) : Trader :=
  match t.orders.find userRef with
  | none => t
  | some _ =>
    { t with
      orders := t.orders.modify userRef fun o => { o with accepted := true, exchId := orderRef } }

/-- `on_executed` (trader.cpp:853-874). -/
def onExecuted (t : Trader) (userRef qty : ℕ) : Trader :=
  match t.orders.find userRef with
  | none => t
  | some o =>
    let q := if o.leaves < qty then o.leaves else qty
    let t :=
      { t with
        orders := t.orders.modify userRef fun o => { o with leaves := o.leaves - q }
        risk := t.risk.onFill o.side q }
    if o.leaves - q = 0 then t.closeOrder userRef else t

/-- `on_canceled` (trader.cpp:876-889). -/
def onCanceled (t : Trader) (userRef qty : ℕ) : Trader :=
  match t.orders.find userRef with
  | none => t
  | some o =>
    let q := if o.leaves < qty then o.leaves else qty
    let t :=
      { t with
        orders := t.orders.modify userRef fun o => { o with leaves := o.leaves - q }
        risk := t.risk.onCancelled o.side q }
    if o.leaves - q = 0 then t.closeOrder userRef else t

/-- `on_rejected` (trader.cpp:891-902). -/
def onRejected (t : Trader) (userRef : ℕ) : Trader :=
  match t.orders.find userRef with
  | none => t
  | some o =>
    let t :=
      { t with
        risk := t.risk.onCancelled o.side o.leaves
        orders := t.orders.modify userRef fun o => { o with leaves := 0 } }
    t.closeOrder userRef

/-- The visitor of `handle_oe_frame` (trader.cpp:814-821). -/
def onReport (t : Trader) : Ouch.Outbound → Trader
  | .accepted _ userRef _ _ _ _ _ orderRef _ _ => t.onAccepted userRef.toNat orderRef.toNat
  | .executed _ userRef qty _ _ _ => t.onExecuted userRef.toNat qty.toNat
  | .canceled _ userRef qty _ => t.onCanceled userRef.toNat qty.toNat
  | .rejected _ userRef _ _ => t.onRejected userRef.toNat

/-- `handle_oe_frame` (trader.cpp:806-832). -/
def handleOeFrame (t : Trader) (f : Soup.Frame) : Trader :=
  if f.type = Soup.kSequencedData then
    match Ouch.decodeOutbound f.payload with
    | none => t
    | some m => t.onReport m
  else if f.type = Soup.kEndOfSession then { t with stop := true }
  else t

/-- The inner loop of `read_oe`: every frame that is complete, and the status that ends it. A
frame takes at least three bytes off the buffer, so the bytes received are fuel enough. -/
def drainOe : ℕ → Trader → Trader × Soup.Status
  | 0, t => (t, .needMore)
  | fuel + 1, t =>
    match t.oeReader.next with
    | (.frame f, reader) => drainOe fuel ({ t with oeReader := reader }.handleOeFrame f)
    | (st, _) => (t, st)

/-- The connection is gone. -/
def oeLost (t : Trader) : Trader := { t with oeUp := false, stop := true }

/-- `read_oe` (trader.cpp:767-804) on the answers of `recv`, each with the order in which its
arguments are evaluated; a list that is at its end ends the loop. `recv` returns no more bytes
than it is asked for. -/
def readOe : List (ArgOrder × RecvAnswer) → Trader → Trader
  | [], t => t
  | (order, answer) :: recvs, t =>
    let len := order.len t.oeReader
    let t :=
      { t with
        recvs := t.recvs ++ [⟨order, t.oeReader, len⟩]
        oeReader := t.oeReader.writePtr }
    match answer with
    | .data bs =>
      match bs.take len with
      | [] => t.oeLost
      | b :: chunk =>
        let t := { t with oeReader := t.oeReader.commit (b :: chunk) }
        match drainOe t.oeReader.data.length t with
        | (t, .error) => t.oeLost
        | (t, _) => readOe recvs t
    | .interrupted => readOe recvs t
    | .again => t
    | .closed | .failed => t.oeLost

end Trader

end PulseForge
