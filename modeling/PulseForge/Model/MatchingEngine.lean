import PulseForge.Model.OrderBook

/-!
# Price-time priority matching (`matching_engine.hpp`, `matching_engine.cpp`)

The listener of the source is a list of callbacks here: each holds the event and the engine
as the listener sees it when the callback runs. The matching loop is written with fuel, and
`none` says that it did not finish; `submit_isSome` of the analysis shows that it always
does. Match numbers are `uint64_t` and wrap.
-/

set_option autoImplicit false

namespace PulseForge

/-- matching_engine.hpp:61-69. -/
structure OrderRequest where
  id : ℕ := 0
  side : Side := .buy
  price : ℤ := 0
  qty : ℕ := 0
  tif : TimeInForce := .day
  owner : ℕ := 0
  userRef : ℕ := 0
deriving Repr, DecidableEq, Inhabited

inductive RejectReason where
  | badPrice
  | badQty
  | duplicateId
  | bookFull
  | unknownSymbol
deriving Repr, DecidableEq

inductive CancelReason where
  | userRequested
  | immediateOrCancel
  | selfMatch
  | supervisory
deriving Repr, DecidableEq

inductive SelfMatchPolicy where
  | cancelResting
  | cancelIncoming
deriving Repr, DecidableEq

/-- matching_engine.hpp:77-92. -/
structure Fill where
  matchNumber : ℕ
  price : ℤ
  qty : ℕ
  makerId : ℕ
  makerOwner : ℕ
  makerUserRef : ℕ
  makerSide : Side
  makerRemaining : ℕ
  takerId : ℕ
  takerOwner : ℕ
  takerUserRef : ℕ
  takerRemaining : ℕ
deriving Repr, DecidableEq

/-- The callbacks of `EngineListener` (matching_engine.hpp:94-111). -/
inductive Event where
  | accepted (locate : ℕ) (req : OrderRequest)
  | rejected (locate : ℕ) (req : OrderRequest) (why : RejectReason)
  | fill (locate : ℕ) (fill : Fill)
  | rested (locate : ℕ) (order : BookOrder)
  | restingCancelled (locate : ℕ) (before : BookOrder) (cancelled : ℕ) (why : CancelReason)
  | takerCancelled (locate : ℕ) (req : OrderRequest) (cancelled : ℕ) (why : CancelReason)
deriving Repr, DecidableEq

inductive CancelResult where
  | ok
  | noChange
  | unknownOrder
  | unknownSymbol
  | notOwner
deriving Repr, DecidableEq

/-- matching_engine.hpp:145-150, without the listener. -/
structure MatchingEngine where
  stp : SelfMatchPolicy := .cancelResting
  maxOrderQty : ℕ := 1000000
  books : List OrderBook := []
  symbols : List Symbol := []
  nextMatch : ℕ := 1

/-- One call of the listener, and the engine it can look at. -/
structure Callback where
  event : Event
  engine : MatchingEngine

namespace MatchingEngine

/-- A book of no symbol, read when a locate is not listed; no modelled call does. -/
def noBook : OrderBook where
  cfg := ⟨0, 0, 1, 0⟩
  levelsPerSide := 0
  bids := ⟨[], [], -1⟩
  asks := ⟨[], [], -1⟩
  nodes := []
  freeHead := kNil
  live := 0
  ids := ⟨[], 0, 0, 0, 0⟩

/-- `book(locate)`; locates count from 1. -/
def book (e : MatchingEngine) (locate : ℕ) : OrderBook := e.books.getD (locate - 1) noBook

/-- The engine with the book of one symbol replaced. -/
def setBook (e : MatchingEngine) (locate : ℕ) (b : OrderBook) : MatchingEngine :=
  { e with books := e.books.set (locate - 1) b }

def validLocate (e : MatchingEngine) (locate : ℕ) : Prop := 1 ≤ locate ∧ locate ≤ e.books.length

instance (e : MatchingEngine) (locate : ℕ) : Decidable (e.validLocate locate) :=
  inferInstanceAs (Decidable (_ ∧ _))

/-- matching_engine.cpp:13-17; the locate is a `uint16_t`. -/
def addSymbol (e : MatchingEngine) (symbol : Symbol) (cfg : BookConfig) :
    Except String (MatchingEngine × ℕ) := do
  let b ← OrderBook.new cfg
  let e := { e with books := e.books ++ [b], symbols := e.symbols ++ [symbol] }
  return (e, e.books.length % 2 ^ 16)

/-- matching_engine.cpp:19-26. -/
def findSymbol (e : MatchingEngine) (symbol : Symbol) : ℕ :=
  match e.symbols.findIdx? fun s => s = symbol with
  | none => 0
  | some i => (i + 1) % 2 ^ 16

/-- `trade_count`, on `uint64_t` (matching_engine.hpp:138). -/
def tradeCount (e : MatchingEngine) : ℕ := (e.nextMatch + 2 ^ 64 - 1) % 2 ^ 64

/-- The fill of `q` shares between an incoming order and the resting order `maker`. -/
def makeFill (matchNumber : ℕ) (req : OrderRequest) (maker : BookOrder) (q remaining : ℕ) :
    Fill where
  matchNumber := matchNumber
  price := maker.price
  qty := q
  makerId := maker.id
  makerOwner := maker.owner
  makerUserRef := maker.userRef
  makerSide := maker.side
  makerRemaining := maker.qty - q
  takerId := req.id
  takerOwner := req.owner
  takerUserRef := req.userRef
  takerRemaining := remaining - q

/-- The matching loop (matching_engine.cpp:50-96). The second component is what remains of
the order when the loop is left, or `none` when `submit` returned from inside it. -/
def matchLoop (locate : ℕ) (req : OrderRequest) :
    ℕ → MatchingEngine → ℕ → Option (MatchingEngine × Option ℕ × List Callback)
  | 0, _, _ => none
  | fuel + 1, e, remaining =>
    if remaining = 0 then some (e, some 0, [])
    else match (e.book locate).front req.side.opposite with
      | none => some (e, some remaining, [])
      | some maker =>
        if ¬ req.side.crosses maker.price req.price then some (e, some remaining, [])
        else if req.owner ≠ 0 ∧ maker.owner = req.owner then
          match e.stp with
          | .cancelResting =>
            let e' := e.setBook locate ((e.book locate).remove maker.id).1
            (matchLoop locate req fuel e' remaining).map fun (e'', rest, cbs) =>
              (e'', rest, ⟨.restingCancelled locate maker maker.qty .selfMatch, e'⟩ :: cbs)
          | .cancelIncoming =>
            some (e, none, [⟨.takerCancelled locate req remaining .selfMatch, e⟩])
        else
          let q := min remaining maker.qty
          let e' := { e.setBook locate ((e.book locate).reduceFront req.side.opposite q) with
            nextMatch := (e.nextMatch + 1) % 2 ^ 64 }
          (matchLoop locate req fuel e' (remaining - q)).map fun (e'', rest, cbs) =>
            (e'', rest, ⟨.fill locate (makeFill e.nextMatch req maker q remaining), e'⟩ :: cbs)

/-- What becomes of the remainder (matching_engine.cpp:98-114). -/
def restOrCancel (e : MatchingEngine) (locate : ℕ) (req : OrderRequest) (remaining : ℕ) :
    MatchingEngine × List Callback :=
  if remaining = 0 then (e, [])
  else if req.tif = .ioc then
    (e, [⟨.takerCancelled locate req remaining .immediateOrCancel, e⟩])
  else
    match (e.book locate).add req.id req.side req.price remaining req.owner req.userRef with
    | (b, .ok) =>
      let e' := e.setBook locate b
      (e', [⟨.rested locate ((b.find req.id).getD default), e'⟩])
    | (b, _) =>
      let e' := e.setBook locate b
      (e', [⟨.takerCancelled locate req remaining .supervisory, e'⟩])

/-- Why an order is refused, or `none` if it is accepted (matching_engine.cpp:29-47). -/
def validate (e : MatchingEngine) (locate : ℕ) (req : OrderRequest) : Option RejectReason :=
  if ¬ e.validLocate locate then some .unknownSymbol
  else if req.qty = 0 ∨ e.maxOrderQty < req.qty then some .badQty
  else if ¬ (e.book locate).validPrice req.price then some .badPrice
  else if ((e.book locate).find req.id).isSome then some .duplicateId
  else none

/-- matching_engine.cpp:28-115. Every turn of the loop but the last takes an order out of
the book or uses up the incoming one, so one turn more than there are orders is enough. -/
def submit (e : MatchingEngine) (locate : ℕ) (req : OrderRequest) :
    Option (MatchingEngine × List Callback) :=
  match e.validate locate req with
  | some why => some (e, [⟨.rejected locate req why, e⟩])
  | none =>
    (matchLoop locate req ((e.book locate).orderCount + 1) e req.qty).map fun (e', left, cbs) =>
      let accepted : Callback := ⟨.accepted locate req, e⟩
      match left with
      | none => (e', accepted :: cbs)
      | some remaining =>
        let (e'', cbs') := restOrCancel e' locate req remaining
        (e'', accepted :: cbs ++ cbs')

/-- matching_engine.cpp:117-144. -/
def cancel (e : MatchingEngine) (locate id newQty owner : ℕ)
    (why : CancelReason := .userRequested) : MatchingEngine × CancelResult × List Callback :=
  if ¬ e.validLocate locate then (e, .unknownSymbol, [])
  else match (e.book locate).find id with
    | none => (e, .unknownOrder, [])
    | some o =>
      if o.owner ≠ owner then (e, .notOwner, [])
      else if o.qty ≤ newQty then (e, .noChange, [])
      else
        let cancelled := o.qty - newQty
        let b := if newQty = 0 then ((e.book locate).remove id).1
          else ((e.book locate).reduce id cancelled).1
        let e' := e.setBook locate b
        (e', .ok, [⟨.restingCancelled locate o cancelled why, e'⟩])

end MatchingEngine

end PulseForge
