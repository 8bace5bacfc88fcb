import PulseForge.Model.MatchingEngine
import PulseForge.Interface.RefBook

/-!
# The reference matcher

What a price-time priority venue does, over sorted lists: a `Market` is the two sides of a
symbol, each best price first and oldest first within a price, and `RefEngine` holds one
market per symbol. `walk` goes through the contra side once, front to back; there is no
loop, no cached best level and no pool.

`RefEngine.submit` and `RefEngine.cancel` are the reference for the two calls of the engine.
-/

set_option autoImplicit false

namespace PulseForge

/-- The two sides of one symbol. -/
structure Market where
  cfg : BookConfig
  bids : List BookOrder
  asks : List BookOrder
deriving Repr, DecidableEq

namespace Market

def side (m : Market) : Side → List BookOrder
  | .buy => m.bids
  | .sell => m.asks

def setSide (m : Market) (s : Side) (l : List BookOrder) : Market :=
  match s with
  | .buy => { m with bids := l }
  | .sell => { m with asks := l }

/-- All resting orders. -/
def orders (m : Market) : List BookOrder := m.bids ++ m.asks

def find (m : Market) (id : ℕ) : Option BookOrder := m.orders.find? fun o => o.id = id

/-- The order joins its side at the back of its price level. -/
def rest (m : Market) (o : BookOrder) : Market :=
  m.setSide o.side
    ((m.side o.side).orderedInsert (fun x y => o.side.better x.price y.price) o)

/-- The order loses `by'` shares in its place; it goes when it has none left. -/
def take (m : Market) (o : BookOrder) (by' : ℕ) : Market :=
  m.setSide o.side
    (if by' = o.qty then (m.side o.side).filter fun x => x.id ≠ o.id
    else (m.side o.side).map fun x => if x.id = o.id then { x with qty := x.qty - by' } else x)

/-- Why the book would refuse to let a validated order rest. -/
def refuses (m : Market) (id : ℕ) : Prop :=
  m.orders.length = m.cfg.maxOrders ∨ id = 0 ∨ (m.find id).isSome

instance (m : Market) (id : ℕ) : Decidable (m.refuses id) :=
  inferInstanceAs (Decidable (_ ∨ _ ∨ _))

end Market

/-- What is true of every market of a well-formed engine. -/
structure Market.WF (m : Market) : Prop where
  cfg : m.cfg.Accepted
  nodup : (m.orders.map BookOrder.id).Nodup
  sorted : ∀ s, (m.side s).Pairwise fun o o' => ¬ s.better o'.price o.price
  side_eq : ∀ s, ∀ o ∈ m.side s, o.side = s
  qty_pos : ∀ o ∈ m.orders, 0 < o.qty
  onGrid : ∀ o ∈ m.orders, m.cfg.onGrid o.price
  id_ne_zero : ∀ o ∈ m.orders, o.id ≠ 0
  room : m.orders.length ≤ m.cfg.maxOrders

/-- The outcome of walking the contra side: what is left of it, what is left of the order
(`none` when self-match prevention ended it), the next match number and the events. -/
structure Walk where
  contra : List BookOrder
  remaining : Option ℕ
  nextMatch : ℕ
  events : List Event
deriving Repr, DecidableEq

/-- An event in front of the others. -/
def Walk.after (w : Walk) (ev : Event) : Walk := { w with events := ev :: w.events }

/-- Walk the contra side, best price first and oldest first, while the limit allows it. -/
def walk (stp : SelfMatchPolicy) (locate : ℕ) (req : OrderRequest) :
    ℕ → ℕ → List BookOrder → Walk
  | nextMatch, remaining, [] => ⟨[], some remaining, nextMatch, []⟩
  | nextMatch, remaining, maker :: rest =>
    if remaining = 0 ∨ ¬ req.side.crosses maker.price req.price then
      ⟨maker :: rest, some remaining, nextMatch, []⟩
    else if req.owner ≠ 0 ∧ maker.owner = req.owner then
      match stp with
      | .cancelResting =>
        (walk stp locate req nextMatch remaining rest).after
          (.restingCancelled locate maker maker.qty .selfMatch)
      | .cancelIncoming =>
        ⟨maker :: rest, none, nextMatch, [.takerCancelled locate req remaining .selfMatch]⟩
    else
      let q := min remaining maker.qty
      let fill := Event.fill locate (MatchingEngine.makeFill nextMatch req maker q remaining)
      if q = maker.qty then
        (walk stp locate req ((nextMatch + 1) % 2 ^ 64) (remaining - q) rest).after fill
      else
        ⟨{ maker with qty := maker.qty - q } :: rest, some (remaining - q),
          (nextMatch + 1) % 2 ^ 64, [fill]⟩

structure RefEngine where
  stp : SelfMatchPolicy
  maxOrderQty : ℕ
  markets : List Market
  symbols : List Symbol
  nextMatch : ℕ
deriving DecidableEq

/-- Every market is well-formed. -/
def RefEngine.WF (r : RefEngine) : Prop := ∀ m ∈ r.markets, m.WF

/-- The resting order that `remaining` shares of a request become. -/
def OrderRequest.resting (req : OrderRequest) (remaining : ℕ) : BookOrder :=
  ⟨req.id, req.price, remaining, req.owner, req.userRef, req.side⟩

namespace RefEngine

/-- The market of a locate, if it is listed. -/
def market? (r : RefEngine) (locate : ℕ) : Option Market :=
  if locate = 0 then none else r.markets[locate - 1]?

def setMarket (r : RefEngine) (locate : ℕ) (m : Market) : RefEngine :=
  { r with markets := r.markets.set (locate - 1) m }

/-- The checks made before an order is accepted, in the order they are made. -/
def refusal (r : RefEngine) (locate : ℕ) (req : OrderRequest) : Option RejectReason :=
  match r.market? locate with
  | none => some .unknownSymbol
  | some m =>
    if ¬ (0 < req.qty ∧ req.qty ≤ r.maxOrderQty) then some .badQty
    else if ¬ m.cfg.onGrid req.price then some .badPrice
    else if (m.find req.id).isSome then some .duplicateId
    else none

/-- The remainder of an order that met no more eligible makers. -/
def settle (r : RefEngine) (locate : ℕ) (m : Market) (req : OrderRequest) (remaining : ℕ) :
    RefEngine × List Event :=
  if remaining = 0 then (r, [])
  else if req.tif = .ioc then (r, [.takerCancelled locate req remaining .immediateOrCancel])
  else if m.refuses req.id then (r, [.takerCancelled locate req remaining .supervisory])
  else
    (r.setMarket locate (m.rest (req.resting remaining)),
      [.rested locate (req.resting remaining)])

def submit (r : RefEngine) (locate : ℕ) (req : OrderRequest) : RefEngine × List Event :=
  match r.refusal locate req, r.market? locate with
  | some why, _ => (r, [.rejected locate req why])
  | none, none => (r, [])
  | none, some m =>
    let w := walk r.stp locate req r.nextMatch req.qty (m.side req.side.opposite)
    let m' := m.setSide req.side.opposite w.contra
    let r' := { r.setMarket locate m' with nextMatch := w.nextMatch }
    match w.remaining with
    | none => (r', .accepted locate req :: w.events)
    | some remaining =>
      let (r'', evs) := r'.settle locate m' req remaining
      (r'', .accepted locate req :: w.events ++ evs)

/-- A cancel reduces the order of that owner to `newQty` shares, in its place. -/
def cancel (r : RefEngine) (locate id newQty owner : ℕ) (why : CancelReason) :
    RefEngine × CancelResult × List Event :=
  match r.market? locate with
  | none => (r, .unknownSymbol, [])
  | some m =>
    match m.find id with
    | none => (r, .unknownOrder, [])
    | some o =>
      if o.owner ≠ owner then (r, .notOwner, [])
      else if o.qty ≤ newQty then (r, .noChange, [])
      else
        (r.setMarket locate (m.take o (o.qty - newQty)), .ok,
          [.restingCancelled locate o (o.qty - newQty) why])

end RefEngine

end PulseForge
