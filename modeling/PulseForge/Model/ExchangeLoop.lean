import PulseForge.Model.Exchange

/-!
# The event loop of the exchange (`exchange.cpp`)

Synthetic order flow, and the actions of the loop. An action is what one callback does, or a
part of it where the source iterates in an unspecified order or a floating-point number
decides how often: `on_timer` is any number of `synth` actions, a `heartbeat` and one
`watchdog` per session; `reap_dead_sessions` is one `reap` per dead session. Every order of
actions is a run here, so the runs of the process are among them.
-/

set_option autoImplicit false

namespace PulseForge

open Foundation

namespace Exchange

/-! ## Synthetic order flow -/

/-- `rng_.next()`. -/
def random (x : Exchange) : UInt64 × Exchange :=
  let s := xorshift64 x.rng
  (s, { x with rng := s })

/-- `rng_.below(n)`. -/
def below (x : Exchange) (n : UInt64) : ℕ × Exchange := x.random.map (fun r => (r % n).toNat) id

/-- `rng_.coin()`. -/
def coin (x : Exchange) : Bool × Exchange := x.random.map (fun r => r &&& 1 ≠ 0) id

/-- `synth_[locate - 1]`. -/
def synthOf (x : Exchange) (locate : ℕ) : Synth := x.synth.getD (locate - 1) default

def setSynth (x : Exchange) (locate : ℕ) (st : Synth) : Exchange :=
  { x with synth := x.synth.set (locate - 1) st }

/-- The random walk of the fair value, kept away from the edges of the band
(exchange.cpp:920-924). -/
def walkFair (x : Exchange) (bc : BookConfig) (fair : ℤ) : ℤ × Exchange :=
  let tick := bc.tickSize
  let (r, x) := x.below 100
  if r < 6 then
    let (up, x) := x.coin
    let fair := if up then fair + tick else fair - tick
    let fair := if fair < bc.minPrice + 50 * tick then bc.minPrice + 50 * tick else fair
    let fair := if fair > bc.maxPrice - 50 * tick then bc.maxPrice - 50 * tick else fair
    (fair, x)
  else (fair, x)

/-- A passive order one to eight ticks away from the fair value (exchange.cpp:930-940). -/
def synthPassive (x : Exchange) (locate : ℕ) (tick fair : ℤ) : Exchange :=
  let (buy, x) := x.coin
  let (k, x) := x.below 8
  let (lots, x) := x.below 5
  let side := if buy then Side.buy else Side.sell
  let away := (1 + k : ℕ) * tick
  let req : OrderRequest :=
    { id := x.nextOrderId % 2 ^ 64
      side := side
      price := if side = .buy then fair - away else fair + away
      qty := 100 * (1 + lots)
      tif := .day }
  let x := ({ x with nextOrderId := x.nextOrderId + 1 } : Exchange).submit locate req
  if (x.engine.book locate).find req.id ≠ none then
    let st := x.synthOf locate
    x.setSynth locate { st with live := st.live ++ [req.id] }
  else x

/-- Cancel a random synthetic order, sometimes only half of it (exchange.cpp:942-954). -/
def synthCancel (x : Exchange) (locate : ℕ) : Exchange :=
  let live := (x.synthOf locate).live
  let (idx, x) := x.below (UInt64.ofNat live.length)
  let target := live.getD idx 0
  let drop := fun (x : Exchange) =>
    let st := x.synthOf locate
    x.setSynth locate { st with live := (live.set idx (live.getLastD 0)).dropLast }
  match (x.engine.book locate).find target with
  | none => drop x
  | some o =>
    let (halve, x) := if 200 ≤ o.qty then (x.below 3).map (fun r => decide (r = 0)) id else (false, x)
    if halve then x.cancel locate target (o.qty / 200 * 100) 0 .userRequested
    else (drop x).cancel locate target 0 0 .userRequested

/-- An aggressive order through the fair value (exchange.cpp:956-962). -/
def synthAggressive (x : Exchange) (locate : ℕ) (tick fair : ℤ) : Exchange :=
  let (buy, x) := x.coin
  let (lots, x) := x.below 3
  let side := if buy then Side.buy else Side.sell
  let req : OrderRequest :=
    { id := x.nextOrderId % 2 ^ 64
      side := side
      price := if side = .buy then fair + 3 * tick else fair - 3 * tick
      qty := 100 * (1 + lots)
      tif := .ioc }
  ({ x with nextOrderId := x.nextOrderId + 1 } : Exchange).submit locate req

/-- `synth_step` (exchange.cpp:913-964). -/
def synthStep (x : Exchange) (locate : ℕ) : Exchange :=
  let bc := (x.engine.book locate).cfg
  let st := x.synthOf locate
  let (fair, x) := x.walkFair bc st.fair
  let x := x.setSynth locate { st with fair := fair }
  let (u, x) := x.below 100
  if st.live.length < 20 ∨ (u < 55 ∧ st.live.length < kMaxSyntheticLive) then
    x.synthPassive locate bc.tickSize fair
  else if u < 88 ∧ st.live ≠ [] then x.synthCancel locate
  else x.synthAggressive locate bc.tickSize fair

/-! ## Timer -/

/-- One session of `on_timer` at the reading `now` (exchange.cpp:984-995). -/
def watchdog (x : Exchange) (now id : ℕ) : Exchange :=
  match x.session? id with
  | none => x
  | some s =>
    if s.kind ≠ .orderEntry ∨ s.loggedIn = false then x
    else if kSessionTimeoutNs < (now + 2 ^ 64 - s.lastRxNs) % 2 ^ 64 then
      x.modify id fun s => { s with dead := true }
    else if kHeartbeatNs ≤ (now + 2 ^ 64 - s.lastTxNs) % 2 ^ 64 ∧ s.out = [] then
      x.queueFrame id ⟨Soup.kServerHeartbeat, []⟩
    else x

/-! ## The loop -/

/-- What one callback does, with the answers of the kernel. -/
inductive Action where
  | accept (kind : SessionKind)
  | session (id : ℕ) (recvs : Option (List Recv)) (sends : Option (List Session.Send)) (hup : Bool)
  | synth (locate : ℕ)
  | heartbeat (now : ℕ)
  | watchdog (now id : ℕ)
  | reap (id : ℕ)
  | flushDirty (sends : ℕ → List Session.Send)
  | flushFeed

/-- `on_session_event` (exchange.cpp:698-713): `recvs` is there on EPOLLIN, `sends` on
EPOLLOUT. -/
def onSessionEvent (x : Exchange) (id : ℕ) (recvs : Option (List Recv))
    (sends : Option (List Session.Send)) (hup : Bool) : Exchange :=
  let x := match recvs with
    | some recvs => readSession id recvs x
    | none => x
  let x := match sends with
    | some sends =>
      let now := x.nowNs
      x.tick.modify id fun s => if s.dead then s else s.flush now sends
    | none => x
  if hup then x.modify id fun s => { s with dead := true } else x

/-- `flush_dirty_sessions` (exchange.cpp:627-637). -/
def flushDirtySessions (x : Exchange) (sends : ℕ → List Session.Send) : Exchange :=
  let x := x.dirty.foldl (fun x id =>
    let now := x.nowNs
    x.tick.modify id fun s => ({ s with dirty := false } : Session).flush now (sends id)) x
  { x with dirty := [] }

/-- One action of the event loop. -/
def step (x : Exchange) : Action → Exchange
  | .accept kind => x.accept kind
  | .session id recvs sends hup => x.onSessionEvent id recvs sends hup
  | .synth locate => if x.engine.validLocate locate then x.synthStep locate else x
  | .heartbeat now => ({ x with md := x.md.heartbeatIfIdle now x.nowNs } : Exchange).tick
  | .watchdog now id => x.watchdog now id
  | .reap id =>
    match x.session? id with
    | none => x
    | some s => if s.dead then x.closeSession id else x
  | .flushDirty sends => x.flushDirtySessions sends
  | .flushFeed => ({ x with md := x.md.flush x.nowNs } : Exchange).tick

/-- The configuration that the model reads. -/
structure Config where
  symbols : List Symbol
  stp : SelfMatchPolicy := .cancelResting
  dropEvery : ℕ := 0
  seed : UInt64 := 42

/-- A symbol with the default configuration. -/
def listSymbol (e : MatchingEngine) (symbol : Symbol) : MatchingEngine :=
  match e.addSymbol symbol {} with
  | .ok (e, _) => e
  | .error _ => e

/-- The constructor and the start of day (exchange.cpp:392-409, 1072-1078): every symbol is
listed with the default configuration. -/
def new (cfg : Config) (clock : Clock) : Exchange :=
  let engine := cfg.symbols.foldl listSymbol { stp := cfg.stp }
  let x : Exchange :=
    { engine := engine
      md := .new kSessionName cfg.dropEvery
      synth := cfg.symbols.map fun _ => { fair := 100 * kPriceScale }
      rng := if cfg.seed ≠ 0 then cfg.seed else 0x9E3779B97F4A7C15
      clock := clock }
  let ts := x.midNow
  let x := x.tick.publish (.systemEvent 0 ts 79)
  let x := (List.range engine.books.length).foldl (fun x i =>
    x.publish (.stockDirectory (UInt16.ofNat (i + 1)) ts (engine.symbol (i + 1)) 100)) x
  let x := x.publish (.systemEvent 0 ts 81)
  ({ x with md := x.md.flush x.nowNs } : Exchange).tick

/-- The process after a run of actions. -/
def after (cfg : Config) (clock : Clock) (actions : List Action) : Exchange :=
  actions.foldl step (new cfg clock)

end Exchange

end PulseForge
