import PulseForge.Model.FlatIdMap
import PulseForge.Model.MatchingEngine
import PulseForge.Model.Mold
import PulseForge.Model.Ouch
import PulseForge.Model.PublicFeed
import PulseForge.Model.Soup

/-!
# The exchange process (`exchange.cpp`)

The process is a state and a step per event-loop callback. What the kernel answers (bytes
received, bytes a send accepts, readings of the clocks) is part of the step or an oracle of
the state. `taken`, `queued`, `sent`, `log` and `answers` record what the process did: every
frame of a session that was handled, every frame queued for it, the bytes the kernel accepted
for it, every engine event, every answer of `engine_.cancel` with the owner it was called for;
the program does not read them. Statistics that only `print_stats` reads are left out.

`nextOrderId` counts on where the `uint64_t` of the source wraps, and an order id is its value
modulo `2 ^ 64` wherever the program takes one. Session ids are a `uint32_t` counter, with its
wrap.
-/

set_option autoImplicit false

namespace PulseForge

open Foundation

/-- The order behind a `user_ref`. -/
structure OrderHandle where
  locate : ℕ := 0
  id : ℕ := 0
deriving Repr, DecidableEq, Inhabited

inductive SessionKind where
  | orderEntry
  | snapshot
deriving Repr, DecidableEq

def kMaxSessionOrders : ℕ := 16384

/-- The size of the table that a session's constructor makes (exchange.cpp:342-344). -/
def SessionKind.capacity : SessionKind → ℕ
  | .orderEntry => kMaxSessionOrders
  | .snapshot => 1

def kMaxSyntheticLive : ℕ := 400

def kSessionTimeoutNs : ℕ := 15000000000

/-- `PFX0000001`. -/
def kSessionName : Bytes := [80, 70, 88, 48, 48, 48, 48, 48, 48, 49]

/-- One connection (exchange.cpp:333-364). -/
structure Session where
  id : ℕ
  kind : SessionKind
  user : Bytes := []
  reader : Soup.FrameReader := {}
  out : Bytes := []
  outOff : ℕ := 0
  loggedIn : Bool := false
  closeAfterFlush : Bool := false
  dead : Bool := false
  wantWrite : Bool := false
  dirty : Bool := false
  lastUserRef : ℕ := 0
  outSeq : ℕ := 0
  lastRxNs : ℕ := 0
  lastTxNs : ℕ := 0
  orders : FlatIdMap OrderHandle
  taken : List Soup.Frame := []
  queued : List Soup.Frame := []
  sent : Bytes := []

/-- The synthetic order flow of one symbol, without the fractional events owed. -/
structure Synth where
  fair : ℤ
  live : List ℕ := []
deriving Repr, DecidableEq, Inhabited

/-- Readings of the two clocks. -/
structure Clock where
  realtime : ℕ → ℕ
  monotonic : ℕ → ℕ
  readings : ℕ := 0

structure Exchange where
  engine : MatchingEngine
  md : MarketDataFeed
  sessions : List Session := []
  dirty : List ℕ := []
  synth : List Synth := []
  rng : UInt64
  pendingClordid : Ouch.ClOrdId := fun _ => 0
  nextSessionId : ℕ := 1
  nextOrderId : ℕ := 1
  clock : Clock
  log : List Event := []
  answers : List (ℕ × CancelResult) := []

/-- exchange.cpp:366-373. -/
def rejectCode : RejectReason → UInt8
  | .badPrice => Ouch.kRejectInvalidPrice
  | .badQty => Ouch.kRejectInvalidQty
  | .unknownSymbol => Ouch.kRejectInvalidSymbol
  | .duplicateId | .bookFull => Ouch.kRejectOther

/-- exchange.cpp:375-383. -/
def cancelCode : CancelReason → UInt8
  | .userRequested => Ouch.kCancelUserRequested
  | .immediateOrCancel => Ouch.kCancelImmediate
  | .selfMatch => Ouch.kCancelSelfMatch
  | .supervisory => Ouch.kCancelSupervisory

/-- xorshift64 (exchange.cpp:222-236). -/
def xorshift64 (s : UInt64) : UInt64 :=
  let s := s ^^^ (s <<< 13)
  let s := s ^^^ (s >>> 7)
  s ^^^ (s <<< 17)

namespace Session

/-- `queue_frame`, without the dirty mark (exchange.cpp:547-550). -/
def queueFrame (s : Session) (f : Soup.Frame) : Session :=
  { s with out := Soup.appendFrame s.out f, queued := s.queued ++ [f] }

/-- What `send` answers. -/
inductive Send where
  | accepted (n : ℕ)
  | again
  | interrupted
  | failed
deriving Repr, DecidableEq

/-- The end of `flush_session`, when everything is sent. -/
def flushed (now : ℕ) (s : Session) : Session :=
  { s with
    out := []
    outOff := 0
    lastTxNs := now
    wantWrite := false
    dead := s.dead || s.closeAfterFlush }

/-- `flush_session` (exchange.cpp:594-625) on a list of answers of `send`; the kernel's buffer
is full when the list is at its end. `send` accepts at least one byte and no more than it
was given. -/
def flush (now : ℕ) (s : Session) : List Send → Session
  | [] => if s.outOff < s.out.length then { s with wantWrite := true } else s.flushed now
  | answer :: sends =>
    if s.outOff < s.out.length then
      match answer with
      | .again => { s with wantWrite := true }
      | .interrupted => s.flush now sends
      | .failed => { s with dead := true }
      | .accepted n =>
        let n := min (max n 1) (s.out.length - s.outOff)
        ({ s with
          outOff := s.outOff + n
          sent := s.sent ++ (s.out.drop s.outOff).take n } : Session).flush now sends
    else s.flushed now

end Session

namespace Exchange

/-! ## Sessions and clocks -/

/-- `sessions_.find(id)`. -/
def session? (x : Exchange) (id : ℕ) : Option Session := x.sessions.find? fun s => s.id = id

/-- A write through the session's pointer. -/
def modify (x : Exchange) (id : ℕ) (f : Session → Session) : Exchange :=
  { x with sessions := x.sessions.map fun s => if s.id = id then f s else s }

/-- `session_for`: synthetic flow has no session. -/
def sessionFor (x : Exchange) (owner : ℕ) : Option Session :=
  if owner = 0 then none else x.session? owner

/-- `mid_now()` at the current reading. -/
def midNow (x : Exchange) : UInt64 := PulseForge.midNow (x.clock.realtime x.clock.readings)

/-- `now_ns()` at the current reading. -/
def nowNs (x : Exchange) : ℕ := x.clock.monotonic x.clock.readings

/-- Time goes on between two readings. -/
def tick (x : Exchange) : Exchange :=
  { x with clock := { x.clock with readings := x.clock.readings + 1 } }

/-! ## Output queueing -/

/-- `mark_dirty` (exchange.cpp:540-545). -/
def markDirty (x : Exchange) (id : ℕ) : Exchange :=
  match x.session? id with
  | none => x
  | some s =>
    if s.dirty then x
    else { x.modify id fun s => { s with dirty := true } with dirty := x.dirty ++ [id] }

def queueFrame (x : Exchange) (id : ℕ) (f : Soup.Frame) : Exchange :=
  (x.modify id fun s => s.queueFrame f).markDirty id

/-- `queue_ouch` (exchange.cpp:552-560). -/
def queueOuch (x : Exchange) (id : ℕ) (m : Ouch.Outbound) : Exchange :=
  let bs := Ouch.encodeOutbound m Ouch.kMaxMessageLen
  if 0 < bs.length then
    (x.queueFrame id ⟨Soup.kSequencedData, bs⟩).modify id fun s => { s with outSeq := s.outSeq + 1 }
  else x

/-- `send_reject` (exchange.cpp:562-569). -/
def sendReject (x : Exchange) (id : ℕ) (userRef : UInt32) (reason : UInt8) : Exchange :=
  x.tick.queueOuch id (.rejected x.midNow userRef reason x.pendingClordid)

/-- `send_exec` (exchange.cpp:571-580). -/
def sendExec (x : Exchange) (id : ℕ) (ts : UInt64) (userRef : ℕ) (f : Fill) (liquidity : UInt8) :
    Exchange :=
  x.queueOuch id (.executed ts (UInt32.ofNat userRef) (UInt32.ofNat f.qty) (Int64.ofInt f.price)
    liquidity (UInt64.ofNat f.matchNumber))

/-- `send_canceled` (exchange.cpp:582-589). -/
def sendCanceled (x : Exchange) (id : ℕ) (ts : UInt64) (userRef qty : ℕ) (reason : UInt8) :
    Exchange :=
  x.queueOuch id (.canceled ts (UInt32.ofNat userRef) (UInt32.ofNat qty) reason)

/-- `md_.publish(m)` (exchange.cpp:266-273). -/
def publish (x : Exchange) (m : Itch.Message) : Exchange :=
  let bs := Itch.encode m Itch.kMaxMessageLen
  if 0 < bs.length then ({ x with md := x.md.publish x.nowNs bs } : Exchange).tick else x

/-! ## The engine's listener -/

/-- exchange.cpp:415-432. -/
def onAccepted (x : Exchange) (e : MatchingEngine) (locate : ℕ) (req : OrderRequest) : Exchange :=
  match x.sessionFor req.owner with
  | none => x
  | some s =>
    x.tick.queueOuch s.id (.accepted x.midNow (UInt32.ofNat req.userRef) req.side
      (UInt32.ofNat req.qty) (e.symbol locate) (Int64.ofInt req.price) req.tif
      (UInt64.ofNat req.id) x.pendingClordid 76)

/-- exchange.cpp:434-440. -/
def onRejected (x : Exchange) (req : OrderRequest) (why : RejectReason) : Exchange :=
  match x.sessionFor req.owner with
  | none => x
  | some s => x.sendReject s.id (UInt32.ofNat req.userRef) (rejectCode why)

/-- exchange.cpp:442-467. -/
def onFill (x : Exchange) (locate : ℕ) (f : Fill) : Exchange :=
  let ts := x.midNow
  let x := x.tick.publish (executedMessage locate ts f)
  let x := match x.sessionFor f.makerOwner with
    | none => x
    | some s =>
      let x := x.sendExec s.id ts f.makerUserRef f Ouch.kAddedLiquidity
      if f.makerRemaining = 0 then
        x.modify s.id fun s => { s with orders := (s.orders.erase f.makerUserRef).1 }
      else x
  match x.sessionFor f.takerOwner with
  | none => x
  | some s => x.sendExec s.id ts f.takerUserRef f Ouch.kRemovedLiquidity

/-- exchange.cpp:469-479. -/
def onRested (x : Exchange) (e : MatchingEngine) (locate : ℕ) (o : BookOrder) : Exchange :=
  x.tick.publish (addMessage locate x.midNow (e.symbol locate) o)

/-- exchange.cpp:481-506. -/
def onRestingCancelled (x : Exchange) (locate : ℕ) (before : BookOrder) (cancelled : ℕ)
    (why : CancelReason) : Exchange :=
  let ts := x.midNow
  let x := x.tick.publish (cancelMessage locate ts before cancelled)
  match x.sessionFor before.owner with
  | none => x
  | some s =>
    let x := x.sendCanceled s.id ts before.userRef cancelled (cancelCode why)
    if cancelled = before.qty then
      x.modify s.id fun s => { s with orders := (s.orders.erase before.userRef).1 }
    else x

/-- exchange.cpp:508-514. -/
def onTakerCancelled (x : Exchange) (req : OrderRequest) (cancelled : ℕ) (why : CancelReason) :
    Exchange :=
  match x.sessionFor req.owner with
  | none => x
  | some s => x.tick.sendCanceled s.id x.midNow req.userRef cancelled (cancelCode why)

/-- One callback of the engine. -/
def on (x : Exchange) (cb : Callback) : Exchange :=
  let x := { x with log := x.log ++ [cb.event] }
  match cb.event with
  | .accepted locate req => x.onAccepted cb.engine locate req
  | .rejected _ req why => x.onRejected req why
  | .fill locate f => x.onFill locate f
  | .rested locate o => x.onRested cb.engine locate o
  | .restingCancelled locate before cancelled why => x.onRestingCancelled locate before cancelled why
  | .takerCancelled _ req cancelled why => x.onTakerCancelled req cancelled why

/-- `engine_.submit`, with its callbacks. -/
def submit (x : Exchange) (locate : ℕ) (req : OrderRequest) : Exchange :=
  match x.engine.submit locate req with
  | none => x
  | some (e, cbs) => { cbs.foldl on x with engine := e }

/-- `engine_.cancel`, with its callbacks. -/
def cancel (x : Exchange) (locate id newQty owner : ℕ) (why : CancelReason) : Exchange :=
  let (e, answer, cbs) := x.engine.cancel locate id newQty owner why
  let x := cbs.foldl on x
  { x with engine := e, answers := x.answers ++ [(owner, answer)] }

/-! ## Closing -/

/-- `close_session` (exchange.cpp:651-673). -/
def closeSession (x : Exchange) (id : ℕ) : Exchange :=
  match x.session? id with
  | none => x
  | some s =>
    let live := s.orders.forEach.map Prod.snd
    let x := live.foldl (fun x h => x.cancel h.locate h.id 0 id .supervisory) x
    { x with sessions := x.sessions.filter fun s => s.id ≠ id }

/-! ## Input -/

/-- `accept_all` for one connection (exchange.cpp:677-696); `emplace` does nothing when the id
is taken. The table of the session is the one its constructor makes. -/
def accept (x : Exchange) (kind : SessionKind) : Exchange :=
  let id := x.nextSessionId
  match FlatIdMap.new kind.capacity with
  | none => x
  | some orders =>
    let s : Session := { id := id, kind := kind, lastRxNs := x.nowNs, orders := orders }
    let x := { x.tick with nextSessionId := (id + 1) % 2 ^ 32 }
    match x.session? id with
    | some _ => x
    | none => { x with sessions := x.sessions ++ [s] }

/-- `handle_login` (exchange.cpp:798-815). -/
def handleLogin (x : Exchange) (s : Session) (p : Bytes) : Exchange :=
  let refuse := (x.queueFrame s.id ⟨Soup.kLoginRejected, [65]⟩).modify s.id
    fun s => { s with closeAfterFlush := true }
  if s.loggedIn then refuse
  else match Soup.decodeLoginRequest p with
    | none => refuse
    | some req =>
      if req.username = [] then refuse
      else
        let x := x.modify s.id fun s => { s with loggedIn := true, user := req.username }
        x.queueFrame s.id
          ⟨Soup.kLoginAccepted, Soup.encodeLoginAccepted ⟨kSessionName, s.outSeq + 1⟩⟩

/-- `handle_enter` (exchange.cpp:817-860). -/
def handleEnter (x : Exchange) (s : Session) (m : Ouch.EnterOrder) : Exchange :=
  let x := { x with pendingClordid := m.clordid }
  if m.userRef.toNat ≤ s.lastUserRef then x.sendReject s.id m.userRef Ouch.kRejectInvalidUserRef
  else
    let x := x.modify s.id fun s => { s with lastUserRef := m.userRef.toNat }
    let locate := x.engine.findSymbol m.symbol
    if locate = 0 then x.sendReject s.id m.userRef Ouch.kRejectInvalidSymbol
    else
      let req : OrderRequest :=
        { id := x.nextOrderId % 2 ^ 64
          side := m.side
          price := m.price.toInt
          qty := m.qty.toNat
          tif := m.tif
          owner := s.id
          userRef := m.userRef.toNat }
      let x := { x with nextOrderId := x.nextOrderId + 1 }
      match s.orders.insert m.userRef.toNat ⟨locate, req.id⟩ with
      | (_, false) => x.sendReject s.id m.userRef Ouch.kRejectOther
      | (orders, true) =>
        let x := x.modify s.id fun s => { s with orders := orders }
        let x := x.submit locate req
        if (x.engine.book locate).find req.id = none then
          x.modify s.id fun s => { s with orders := (s.orders.erase m.userRef.toNat).1 }
        else x

/-- `handle_cancel` (exchange.cpp:862-870). -/
def handleCancel (x : Exchange) (s : Session) (m : Ouch.CancelOrder) : Exchange :=
  match s.orders.find m.userRef.toNat with
  | none => x
  | some h => x.cancel h.locate h.id m.qty.toNat s.id .userRequested

/-- The messages of `send_snapshot`, in order (exchange.cpp:880-902): the directory, then
every book in priority order, then the sequence number to resume at. -/
def snapshotMessages (e : MatchingEngine) (ts : UInt64) (next : ℕ) : List Itch.Message :=
  let locates := (List.range e.books.length).map (· + 1)
  (locates.map fun loc => .stockDirectory (UInt16.ofNat loc) ts (e.symbol loc) 100) ++
    (locates.flatMap fun loc => (e.book loc).forEachOrder.map (addMessage loc ts (e.symbol loc))) ++
    [.endOfSnapshot (UInt64.ofNat next)]

/-- `send_snapshot` (exchange.cpp:874-909). -/
def sendSnapshot (x : Exchange) (id : ℕ) : Exchange :=
  let x := ({ x with md := x.md.flush x.nowNs } : Exchange).tick
  let msgs := snapshotMessages x.engine x.midNow x.md.nextSeq
  let x := msgs.foldl (fun x m =>
    x.queueFrame id ⟨Soup.kSequencedData, Itch.encode m Itch.kMaxMessageLen⟩) x.tick
  (x.queueFrame id ⟨Soup.kEndOfSession, []⟩).modify id fun s => { s with closeAfterFlush := true }

/-- `handle_frame` (exchange.cpp:758-796). -/
def handleFrame (x : Exchange) (s : Session) (f : Soup.Frame) : Exchange :=
  match s.kind with
  | .snapshot => if f.type = Soup.kLoginRequest then x.sendSnapshot s.id else x
  | .orderEntry =>
    if f.type = Soup.kLoginRequest then x.handleLogin s f.payload
    else if f.type = Soup.kUnsequencedData then
      if s.loggedIn = false then x.modify s.id fun s => { s with dead := true }
      else match Ouch.decodeInbound f.payload with
        | none => x
        | some (.enterOrder m) => x.handleEnter s m
        | some (.cancelOrder m) => x.handleCancel s m
    else if f.type = Soup.kLogoutRequest then
      (x.queueFrame s.id ⟨Soup.kEndOfSession, []⟩).modify s.id
        fun s => { s with closeAfterFlush := true }
    else x

/-- The inner loop of `read_session` (exchange.cpp:731-741): handle the frames that are
complete. A frame takes at least three bytes off the buffer, so the bytes received are fuel
enough. The answer says whether `read_session` goes on to the next `recv`. -/
def drainFrames (id : ℕ) : ℕ → Exchange → Exchange × Bool
  | 0, x => (x, true)
  | fuel + 1, x =>
    match x.session? id with
    | none => (x, false)
    | some s =>
      match s.reader.next with
      | (.needMore, _) => (x, true)
      | (.error, _) => (x.modify id fun s => { s with dead := true }, false)
      | (.frame f, reader) =>
        let x := (x.modify id fun s =>
          { s with reader := reader, taken := s.taken ++ [f] }).handleFrame s f
        if ((x.session? id).map Session.dead).getD true then (x, false)
        else drainFrames id fuel x

/-- What `recv` answers. -/
inductive Recv where
  | data (bs : Bytes)
  | interrupted
  | closed
  | failed
deriving Repr, DecidableEq

/-- `read_session` (exchange.cpp:715-756) on a list of answers of `recv`; there is nothing more
to read when the list is at its end. `recv` returns no more bytes than there is room. -/
def readSession (id : ℕ) : List Recv → Exchange → Exchange
  | recvs, x =>
    match x.session? id with
    | none => x
    | some s =>
      let reader := s.reader.writePtr
      let x := x.modify id fun s => { s with reader := reader }
      if reader.writeSpace = 0 then x.modify id fun s => { s with dead := true }
      else match recvs with
        | [] => x
        | .interrupted :: recvs => readSession id recvs x
        | .closed :: _ | .failed :: _ | .data [] :: _ => x.modify id fun s => { s with dead := true }
        | .data (b :: bs) :: recvs =>
          let chunk := (b :: bs).take reader.writeSpace
          let now := x.nowNs
          let x := x.tick.modify id fun s =>
            { s with reader := reader.commit chunk, lastRxNs := now }
          match drainFrames id (reader.commit chunk).data.length x with
          | (x, true) => readSession id recvs x
          | (x, false) => x

end Exchange

end PulseForge
