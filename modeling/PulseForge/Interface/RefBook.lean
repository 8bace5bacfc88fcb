import Mathlib.Data.Finmap
import PulseForge.Model.OrderBook

/-!
# The textbook book

What an order book is for, with no ladder, bitmap, pool or links: per side a map from price
to the FIFO of the orders at that price, kept as a list sorted best price first with no
empty FIFO, and a finite map from id to where the order rests, bounded by `max_orders`.

`BookOp` and `BookAnswer` are the calls of the public interface of `OrderBook` and what they
return; `OrderBook.call` and `RefBook.call` are one call on either book. Two members have a
documented precondition, `reduce_front` and `best_price`; a call that would break it is not
made and answers `skipped`.
-/

set_option autoImplicit false

namespace PulseForge

/-- The price levels of one side, best price first. -/
abbrev LevelMap := List (ℤ × List BookOrder)

namespace LevelMap

/-- A level in front of a map; a level without orders is not kept. -/
def consLevel (p : ℤ) (os : List BookOrder) (m : LevelMap) : LevelMap :=
  if os = [] then m else (p, os) :: m

/-- Change the FIFO at one price. -/
def alter (s : Side) (p : ℤ) (f : List BookOrder → List BookOrder) : LevelMap → LevelMap
  | [] => consLevel p (f []) []
  | (p', os) :: m =>
    if p' = p then consLevel p (f os) m
    else if s.better p p' then consLevel p (f []) ((p', os) :: m)
    else (p', os) :: alter s p f m

/-- The FIFO at one price. -/
def fifoAt (p : ℤ) : LevelMap → List BookOrder
  | [] => []
  | (p', os) :: m => if p' = p then os else fifoAt p m

/-- All orders of the side. -/
def orders (m : LevelMap) : List BookOrder := m.flatMap Prod.snd

/-- The total open shares of a FIFO. -/
def totalQty (os : List BookOrder) : ℕ := (os.map BookOrder.qty).sum

/-- The view of one level. -/
def view (lv : ℤ × List BookOrder) : LevelView := ⟨lv.1, totalQty lv.2, lv.2.length⟩

end LevelMap

structure RefBook where
  cfg : BookConfig
  bids : LevelMap
  asks : LevelMap
  index : Finmap fun _ : ℕ => Side × ℤ

/-- What the constructor accepts (order_book.cpp:58-62), with level indices that fit. -/
structure BookConfig.Accepted (c : BookConfig) : Prop where
  tick : 0 < c.tickSize
  band : c.minPrice ≤ c.maxPrice
  span : c.maxPrice - c.minPrice < 2 ^ 63
  grid : (c.maxPrice - c.minPrice) % c.tickSize = 0
  orders_pos : 0 < c.maxOrders
  orders_lt : c.maxOrders < kNil
  levels_lt : c.levels < 2 ^ 31

/-- A price of the band, on the tick grid. -/
def BookConfig.onGrid (c : BookConfig) (p : ℤ) : Prop :=
  c.minPrice ≤ p ∧ p ≤ c.maxPrice ∧ c.tickSize ∣ p - c.minPrice

instance (c : BookConfig) (p : ℤ) : Decidable (c.onGrid p) :=
  inferInstanceAs (Decidable (_ ∧ _ ∧ _))

namespace RefBook

def new (cfg : BookConfig) : RefBook := ⟨cfg, [], [], ∅⟩

def side (r : RefBook) : Side → LevelMap
  | .buy => r.bids
  | .sell => r.asks

/-- Change the FIFO at one price of one side. -/
def alter (r : RefBook) (s : Side) (p : ℤ) (f : List BookOrder → List BookOrder) : RefBook :=
  match s with
  | .buy => { r with bids := LevelMap.alter .buy p f r.bids }
  | .sell => { r with asks := LevelMap.alter .sell p f r.asks }

def orderCount (r : RefBook) : ℕ := r.index.keys.card

def find (r : RefBook) (id : ℕ) : Option BookOrder :=
  match r.index.lookup id with
  | none => none
  | some (s, p) => (LevelMap.fifoAt p (r.side s)).find? fun o => o.id = id

def front (r : RefBook) (s : Side) : Option BookOrder := (LevelMap.orders (r.side s)).head?

def add (r : RefBook) (id : ℕ) (s : Side) (p : ℤ) (qty owner userRef : ℕ) :
    RefBook × AddResult :=
  if ¬ r.cfg.onGrid p then (r, .badPrice)
  else if qty = 0 then (r, .badQty)
  else if r.orderCount = r.cfg.maxOrders then (r, .full)
  else if id = 0 ∨ id ∈ r.index then (r, .duplicateId)
  else
    ({ r.alter s p (· ++ [⟨id, p, qty, owner, userRef, s⟩]) with
        index := r.index.insert id (s, p) }, .ok)

/-- Take the order out of its FIFO and out of the index. -/
def drop (r : RefBook) (o : BookOrder) : RefBook :=
  { r.alter o.side o.price (fun os => os.filter fun x => x.id ≠ o.id) with
    index := r.index.erase o.id }

/-- Take `by'` shares off an order; it goes when it has none left. -/
def take (r : RefBook) (o : BookOrder) (by' : ℕ) : RefBook :=
  if by' = o.qty then r.drop o
  else r.alter o.side o.price fun os =>
    os.map fun x => if x.id = o.id then { x with qty := x.qty - by' } else x

def reduce (r : RefBook) (id by' : ℕ) : RefBook × Bool :=
  match r.find id with
  | none => (r, false)
  | some o => if o.qty < by' then (r, false) else (r.take o by', true)

def remove (r : RefBook) (id : ℕ) : RefBook × Bool :=
  match r.find id with
  | none => (r, false)
  | some o => (r.drop o, true)

/-- The best level of a side, as a view. -/
def best (r : RefBook) (s : Side) : Option LevelView := (r.side s).head?.map LevelMap.view

def levelAt (r : RefBook) (s : Side) (p : ℤ) : LevelView :=
  LevelMap.view (p, LevelMap.fifoAt p (r.side s))

end RefBook

/-! ## Calls -/

/-- A call on a book. -/
inductive BookOp where
  | add (id : ℕ) (side : Side) (price : ℤ) (qty owner userRef : ℕ)
  | reduce (id by' : ℕ)
  | remove (id : ℕ)
  | reduceFront (side : Side) (by' : ℕ)
  | clear
  | find (id : ℕ)
  | front (side : Side)
  | empty (side : Side)
  | bestPrice (side : Side)
  | bestQty (side : Side)
  | bestCount (side : Side)
  | levelAt (side : Side) (price : ℤ)
  | forEachLevel (side : Side) (maxLevels : ℕ)
  | forEachOrder
  | orderCount
deriving Repr, DecidableEq

/-- What a call returns or visits. -/
inductive BookAnswer where
  | added (r : AddResult)
  | done (ok : Bool)
  | order (o : Option BookOrder)
  | price (p : ℤ)
  | count (n : ℕ)
  | levels (vs : List LevelView)
  | orders (os : List BookOrder)
  | nothing
  | skipped
deriving Repr, DecidableEq

/-- One call on the source's book. -/
def OrderBook.call (b : OrderBook) : BookOp → OrderBook × BookAnswer
  | .add id side price qty owner userRef =>
    let (b', r) := b.add id side price qty owner userRef
    (b', .added r)
  | .reduce id by' => let (b', ok) := b.reduce id by'; (b', .done ok)
  | .remove id => let (b', ok) := b.remove id; (b', .done ok)
  | .reduceFront side by' =>
    match b.front side with
    | none => (b, .skipped)
    | some o => if by' ≤ o.qty then (b.reduceFront side by', .nothing) else (b, .skipped)
  | .clear => (b.clear, .nothing)
  | .find id => (b, .order (b.find id))
  | .front side => (b, .order (b.front side))
  | .empty side => (b, .done (b.empty side))
  | .bestPrice side => (b, if b.empty side then .skipped else .price (b.bestPrice side))
  | .bestQty side => (b, .count (b.bestQty side))
  | .bestCount side => (b, .count (b.bestCount side))
  | .levelAt side price => (b, .levels [b.levelAt side price])
  | .forEachLevel side maxLevels => (b, .levels (b.forEachLevel side maxLevels))
  | .forEachOrder => (b, .orders b.forEachOrder)
  | .orderCount => (b, .count b.orderCount)

/-- One call on the textbook book. -/
def RefBook.call (r : RefBook) : BookOp → RefBook × BookAnswer
  | .add id side price qty owner userRef =>
    let (r', a) := r.add id side price qty owner userRef
    (r', .added a)
  | .reduce id by' => let (r', ok) := r.reduce id by'; (r', .done ok)
  | .remove id => let (r', ok) := r.remove id; (r', .done ok)
  | .reduceFront side by' =>
    match r.front side with
    | none => (r, .skipped)
    | some o => if by' ≤ o.qty then (r.take o by', .nothing) else (r, .skipped)
  | .clear => (RefBook.new r.cfg, .nothing)
  | .find id => (r, .order (r.find id))
  | .front side => (r, .order (r.front side))
  | .empty side => (r, .done (r.side side).isEmpty)
  | .bestPrice side =>
    (r, match r.best side with
      | none => .skipped
      | some v => .price v.price)
  | .bestQty side => (r, .count (((r.best side).map LevelView.qty).getD 0))
  | .bestCount side => (r, .count (((r.best side).map LevelView.orders).getD 0))
  | .levelAt side price => (r, .levels [r.levelAt side price])
  | .forEachLevel side maxLevels => (r, .levels (((r.side side).take maxLevels).map LevelMap.view))
  | .forEachOrder => (r, .orders (LevelMap.orders r.bids ++ LevelMap.orders r.asks))
  | .orderCount => (r, .count r.orderCount)

end PulseForge
