import PulseForge.Model.FlatIdMap
import PulseForge.Model.TradingTypes

/-!
# `OrderBook`: ladder, bitmap, pool and id index (`order_book.hpp`, `order_book.cpp`)

One symbol's resting orders. Each side is a ladder of price levels indexed by
`(price - min_price) / tick_size`, with an occupancy bitmap and the cached best index; all
orders live in one pool of nodes, threaded by `prev`/`next` into one FIFO per level and by
`next` into the free list; `ids` maps an order id to its pool index.

The source's `BookOrder` holds its own FIFO links. Here the links stand beside the order
in a `Node`, so that a `BookOrder` is what callers and listeners can see of it. Level
indices and `best` are `int32_t` in the source (`new` sees to fewer than `2 ^ 31` levels);
they are integers here, as are the level totals, whose bounds `levelQty_lt` of the analysis
gives.
Array reads out of bounds give a default value and writes do nothing; no reachable book
makes one.
-/

set_option autoImplicit false

namespace PulseForge

/-! ## Bitmap scans -/

/-- `__builtin_clzll`: how many zero bits stand above the highest set bit. -/
def clzll (x : BitVec 64) : ℕ := (List.range 64).findIdx fun i => x.getLsbD (63 - i)

/-- `__builtin_ctzll`: how many zero bits stand below the lowest set bit. -/
def ctzll (x : BitVec 64) : ℕ := (List.range 64).findIdx fun i => x.getLsbD i

/-- The word loop of `bitmap_find_prev`, at word `w`. -/
def findPrevLoop (bits : List (BitVec 64)) : ℕ → BitVec 64 → ℤ
  | w, word =>
    if word ≠ 0 then (w <<< 6 : ℕ) + (63 - clzll word : ℕ)
    else match w with
      | 0 => -1
      | w + 1 => findPrevLoop bits w (bits.getD w 0)

/-- Highest set bit index `≤ idx`, or `-1` (order_book.cpp:12-31). -/
def bitmapFindPrev (bits : List (BitVec 64)) (idx : ℤ) : ℤ :=
  if idx < 0 then -1
  else
    let w := idx.toNat >>> 6
    let b := idx.toNat &&& 63
    let mask := if b = 63 then BitVec.allOnes 64 else (1#64 <<< (b + 1)) - 1
    findPrevLoop bits w (bits.getD w 0 &&& mask)

/-- The word loop of `bitmap_find_next`, at word `w`; it runs at most once per word. -/
def findNextLoop (bits : List (BitVec 64)) : ℕ → ℕ → BitVec 64 → ℤ
  | 0, _, _ => -1
  | fuel + 1, w, word =>
    if word ≠ 0 then (w <<< 6 : ℕ) + (ctzll word : ℕ)
    else if bits.length ≤ w + 1 then -1
    else findNextLoop bits fuel (w + 1) (bits.getD (w + 1) 0)

/-- Lowest set bit index `≥ idx`, or `-1` (order_book.cpp:33-53). -/
def bitmapFindNext (bits : List (BitVec 64)) (idx : ℤ) : ℤ :=
  let i := if idx < 0 then 0 else idx.toNat
  let w := i >>> 6
  if bits.length ≤ w then -1
  else findNextLoop bits bits.length w (bits.getD w 0 &&& (BitVec.allOnes 64 <<< (i &&& 63)))

/-- Set bit `i` of the bitmap. -/
def bitmapSet (bits : List (BitVec 64)) (i : ℕ) : List (BitVec 64) :=
  bits.modify (i >>> 6) fun w => w ||| (1#64 <<< (i &&& 63))

/-- Clear bit `i` of the bitmap. -/
def bitmapReset (bits : List (BitVec 64)) (i : ℕ) : List (BitVec 64) :=
  bits.modify (i >>> 6) fun w => w &&& ~~~ (1#64 <<< (i &&& 63))

/-! ## The data -/

/-- order_book.hpp:68-73, with the defaults. -/
structure BookConfig where
  minPrice : ℤ := 50 * kPriceScale
  maxPrice : ℤ := 150 * kPriceScale
  tickSize : ℤ := kCent
  maxOrders : ℕ := 1 <<< 16
deriving Repr, DecidableEq

/-- How many price levels a side has (order_book.cpp:63). -/
def BookConfig.levels (c : BookConfig) : ℕ := ((c.maxPrice - c.minPrice) / c.tickSize).toNat + 1

/-- One resting order, without its FIFO links (order_book.hpp:78-87). -/
structure BookOrder where
  id : ℕ
  price : ℤ
  qty : ℕ
  owner : ℕ
  userRef : ℕ
  side : Side
deriving Repr, DecidableEq, Inhabited

structure LevelView where
  price : ℤ
  qty : ℕ
  orders : ℕ
deriving Repr, DecidableEq

/-- The null pool index. -/
def kNil : ℕ := 0xFFFFFFFF

/-- A pool node: the order and the pool indices ahead of it and behind it. -/
structure Node where
  order : BookOrder
  prev : ℕ
  next : ℕ
deriving Repr, DecidableEq, Inhabited

structure Level where
  qty : ℕ
  head : ℕ
  tail : ℕ
  count : ℕ
deriving Repr, DecidableEq

/-- A price with no orders. -/
def Level.empty : Level := ⟨0, kNil, kNil, 0⟩

structure Ladder where
  levels : List Level
  bits : List (BitVec 64)
  best : ℤ
deriving Repr, DecidableEq

inductive AddResult where
  | ok
  | badPrice
  | badQty
  | duplicateId
  | full
deriving Repr, DecidableEq

/-- order_book.hpp:182-189. -/
structure OrderBook where
  cfg : BookConfig
  levelsPerSide : ℕ
  bids : Ladder
  asks : Ladder
  nodes : List Node
  freeHead : ℕ
  live : ℕ
  ids : FlatIdMap ℕ
deriving Repr, DecidableEq

namespace OrderBook

/-! ## Access -/

def ladder (b : OrderBook) : Side → Ladder
  | .buy => b.bids
  | .sell => b.asks

/-- A write to the ladder of one side. -/
def modifyLadder (b : OrderBook) (s : Side) (f : Ladder → Ladder) : OrderBook :=
  match s with
  | .buy => { b with bids := f b.bids }
  | .sell => { b with asks := f b.asks }

/-- The level record at index `idx`. -/
def level (b : OrderBook) (s : Side) (idx : ℕ) : Level :=
  (b.ladder s).levels.getD idx Level.empty

/-- A write to one level record. -/
def modifyLevel (b : OrderBook) (s : Side) (idx : ℕ) (f : Level → Level) : OrderBook :=
  b.modifyLadder s fun l => { l with levels := l.levels.modify idx f }

/-- A write to the occupancy bitmap of one side. -/
def modifyBits (b : OrderBook) (s : Side) (f : List (BitVec 64) → List (BitVec 64)) : OrderBook :=
  b.modifyLadder s fun l => { l with bits := f l.bits }

/-- A write to the cached best level of one side. -/
def setBest (b : OrderBook) (s : Side) (best : ℤ) : OrderBook :=
  b.modifyLadder s fun l => { l with best := best }

/-- The pool node at index `n`. -/
def node (b : OrderBook) (n : ℕ) : Node := b.nodes.getD n default

/-- A write to one pool node. -/
def modifyNode (b : OrderBook) (n : ℕ) (f : Node → Node) : OrderBook :=
  { b with nodes := b.nodes.modify n f }

def indexOf (b : OrderBook) (p : ℤ) : ℤ := (p - b.cfg.minPrice) / b.cfg.tickSize

def priceOf (b : OrderBook) (idx : ℤ) : ℤ := b.cfg.minPrice + idx * b.cfg.tickSize

/-- order_book.cpp:96-99. -/
def validPrice (b : OrderBook) (p : ℤ) : Bool :=
  decide (b.cfg.minPrice ≤ p) && decide (p ≤ b.cfg.maxPrice) &&
    (p - b.cfg.minPrice) % b.cfg.tickSize == 0

/-- Next non-empty level strictly worse than `idx`, or `-1` (order_book.cpp:153-157). -/
def nextWorse (b : OrderBook) (s : Side) (idx : ℤ) : ℤ :=
  match s with
  | .buy => bitmapFindPrev b.bids.bits (idx - 1)
  | .sell => bitmapFindNext b.asks.bits (idx + 1)

/-! ## Construction and clearing -/

/-- The set bits of a bitmap in the order `clear` meets them, from `idx` on. -/
def setBits (bits : List (BitVec 64)) : ℕ → ℤ → List ℕ
  | 0, _ => []
  | fuel + 1, idx =>
    let i := bitmapFindNext bits idx
    if i < 0 then [] else i.toNat :: setBits bits fuel (i + 1)

/-- `clear` on one ladder: only the levels the bitmap marks are reset. -/
def Ladder.clear (l : Ladder) : Ladder where
  levels := (setBits l.bits (64 * l.bits.length + 1) 0).foldl
    (fun levels i => levels.set i Level.empty) l.levels
  bits := l.bits.map fun _ => 0
  best := -1

/-- order_book.cpp:74-94. -/
def clear (b : OrderBook) : OrderBook :=
  { b with
    bids := Ladder.clear b.bids
    asks := Ladder.clear b.asks
    nodes := b.nodes.mapIdx fun i n =>
      { n with next := if i + 1 < b.nodes.length then i + 1 else kNil }
    freeHead := if b.nodes.isEmpty then kNil else 0
    live := 0
    ids := b.ids.clear }

/-- The constructor (order_book.cpp:57-72). Signed overflow in `max_price - min_price` is
undefined in the source, and `index_of` casts the index of a level to `int32_t`: a band that
overflows, or that has `2 ^ 31` levels or more, is refused here. -/
def new (cfg : BookConfig) : Except String OrderBook :=
  if cfg.tickSize ≤ 0 ∨ cfg.maxPrice < cfg.minPrice ∨ 2 ^ 63 ≤ cfg.maxPrice - cfg.minPrice ∨
      (cfg.maxPrice - cfg.minPrice) % cfg.tickSize ≠ 0 ∨ cfg.maxOrders = 0 ∨
      kNil ≤ cfg.maxOrders ∨ 2 ^ 31 ≤ cfg.levels then
    .error "OrderBook: invalid BookConfig"
  else match FlatIdMap.new cfg.maxOrders with
    | none => .error "OrderBook: invalid BookConfig"
    | some ids =>
      let l : Ladder :=
        { levels := List.replicate cfg.levels Level.empty
          bits := List.replicate ((cfg.levels + 63) / 64) 0
          best := -1 }
      .ok <| clear
        { cfg := cfg, levelsPerSide := cfg.levels, bids := l, asks := l
          nodes := List.replicate cfg.maxOrders default
          freeHead := kNil, live := 0, ids := ids }

/-! ## Mutation -/

/-- The better of the cached best level and a level that just became non-empty. -/
def improveBest (s : Side) (best idx : ℤ) : ℤ :=
  if best < 0 ∨ s.better idx best then idx else best

/-- The FIFO part of `add` (order_book.cpp:132-142): node `n`, already holding its order, is
appended at the tail of its level, and an empty level becomes occupied. -/
def append (b : OrderBook) (side : Side) (idx n : ℕ) (order : BookOrder) : OrderBook :=
  let tail := (b.level side idx).tail
  let b := b.modifyNode n fun _ => ⟨order, tail, kNil⟩
  let b := if tail ≠ kNil then b.modifyNode tail fun o => { o with next := n }
    else (b.modifyLevel side idx fun lv => { lv with head := n }).modifyBits side
      fun bits => bitmapSet bits idx
  b.modifyLevel side idx fun lv =>
    { lv with tail := n, qty := lv.qty + order.qty, count := lv.count + 1 }

/-- order_book.cpp:101-151. -/
def add (b : OrderBook) (id : ℕ) (side : Side) (price : ℤ) (qty : ℕ)
    (owner userRef : ℕ) : OrderBook × AddResult :=
  if ¬ b.validPrice price then (b, .badPrice)
  else if qty = 0 then (b, .badQty)
  else if b.freeHead = kNil then (b, .full)
  else
    let n := b.freeHead
    match b.ids.insert id n with
    | (_, false) => (b, .duplicateId)
    | (ids, true) =>
      let idx := b.indexOf price
      let b := { b with ids := ids, freeHead := (b.node n).next }
      let b := b.append side idx.toNat n ⟨id, price, qty, owner, userRef, side⟩
      let b := b.setBest side (improveBest side (b.ladder side).best idx)
      ({ b with live := b.live + 1 }, .ok)

/-- The FIFO part of `unlink_and_free` (order_book.cpp:165-176): the neighbours of node `n`
are joined. -/
def detach (b : OrderBook) (side : Side) (idx n : ℕ) : OrderBook :=
  let o := b.node n
  let b := if o.prev ≠ kNil then b.modifyNode o.prev fun p => { p with next := o.next }
    else b.modifyLevel side idx fun lv => { lv with head := o.next }
  if o.next ≠ kNil then b.modifyNode o.next fun p => { p with prev := o.prev }
  else b.modifyLevel side idx fun lv => { lv with tail := o.prev }

/-- The level part of `unlink_and_free` (order_book.cpp:177-187): the totals shrink, and a
level that becomes empty leaves the bitmap and hands the best level on. -/
def shrinkLevel (b : OrderBook) (side : Side) (idx qty : ℕ) : OrderBook :=
  let b := b.modifyLevel side idx fun lv => { lv with qty := lv.qty - qty, count := lv.count - 1 }
  if (b.level side idx).count = 0 then
    let b := b.modifyLevel side idx fun _ => Level.empty
    let b := b.modifyBits side fun bits => bitmapReset bits idx
    if (idx : ℤ) = (b.ladder side).best then b.setBest side (b.nextWorse side idx) else b
  else b

/-- The pool part of `unlink_and_free` (order_book.cpp:189-192). -/
def release (b : OrderBook) (n id : ℕ) : OrderBook :=
  let b := { b with ids := (b.ids.erase id).1 }
  let b := b.modifyNode n fun p => { p with next := b.freeHead }
  { b with freeHead := n, live := b.live - 1 }

/-- order_book.cpp:159-193. -/
def unlinkAndFree (b : OrderBook) (n : ℕ) : OrderBook :=
  let o := (b.node n).order
  let idx := (b.indexOf o.price).toNat
  ((b.detach o.side idx n).shrinkLevel o.side idx o.qty).release n o.id

/-- Take `by` shares off a node that keeps some, and off its level. -/
def reduceNode (b : OrderBook) (n : ℕ) (by' : ℕ) : OrderBook :=
  let o := (b.node n).order
  (b.modifyNode n fun p => { p with order := { p.order with qty := p.order.qty - by' } })
    |>.modifyLevel o.side (b.indexOf o.price).toNat fun lv => { lv with qty := lv.qty - by' }

/-- order_book.cpp:195-211. -/
def reduce (b : OrderBook) (id : ℕ) (by' : ℕ) : OrderBook × Bool :=
  match b.ids.find id with
  | none => (b, false)
  | some n =>
    if (b.node n).order.qty < by' then (b, false)
    else if by' = (b.node n).order.qty then (b.unlinkAndFree n, true)
    else (b.reduceNode n by', true)

/-- order_book.cpp:213-220. -/
def remove (b : OrderBook) (id : ℕ) : OrderBook × Bool :=
  match b.ids.find id with
  | none => (b, false)
  | some n => (b.unlinkAndFree n, true)

/-- The pool index of the oldest order of the best level. -/
def frontNode (b : OrderBook) (s : Side) : ℕ := (b.level s (b.ladder s).best.toNat).head

/-- order_book.cpp:230-241; called only with a non-empty side and `by ≤ front.qty`. -/
def reduceFront (b : OrderBook) (s : Side) (by' : ℕ) : OrderBook :=
  let n := b.frontNode s
  if (b.node n).order.qty ≤ by' then b.unlinkAndFree n
  else
    (b.modifyNode n fun p => { p with order := { p.order with qty := p.order.qty - by' } })
      |>.modifyLevel s (b.ladder s).best.toNat fun lv => { lv with qty := lv.qty - by' }

/-! ## Observation -/

/-- order_book.cpp:222-228. -/
def front (b : OrderBook) (s : Side) : Option BookOrder :=
  if (b.ladder s).best < 0 then none else some (b.node (b.frontNode s)).order

/-- order_book.cpp:243-246. -/
def find (b : OrderBook) (id : ℕ) : Option BookOrder :=
  (b.ids.find id).map fun n => (b.node n).order

def empty (b : OrderBook) (s : Side) : Bool := decide ((b.ladder s).best < 0)

def bestPrice (b : OrderBook) (s : Side) : ℤ := b.priceOf (b.ladder s).best

def bestQty (b : OrderBook) (s : Side) : ℕ :=
  if (b.ladder s).best < 0 then 0 else (b.level s (b.ladder s).best.toNat).qty

def bestCount (b : OrderBook) (s : Side) : ℕ :=
  if (b.ladder s).best < 0 then 0 else (b.level s (b.ladder s).best.toNat).count

/-- order_book.cpp:258-267. -/
def levelAt (b : OrderBook) (s : Side) (p : ℤ) : LevelView :=
  if ¬ b.validPrice p then ⟨p, 0, 0⟩
  else
    let lv := b.level s (b.indexOf p).toNat
    ⟨p, lv.qty, lv.count⟩

/-- The views `for_each_level` visits from level `idx` on (order_book.hpp:199-208). -/
def forEachLevelFrom (b : OrderBook) (s : Side) : ℕ → ℤ → List LevelView
  | 0, _ => []
  | maxLevels + 1, idx =>
    if idx < 0 then []
    else
      let lv := b.level s idx.toNat
      ⟨b.priceOf idx, lv.qty, lv.count⟩ :: b.forEachLevelFrom s maxLevels (b.nextWorse s idx)

def forEachLevel (b : OrderBook) (s : Side) (maxLevels : ℕ) : List LevelView :=
  b.forEachLevelFrom s maxLevels (b.ladder s).best

/-- The level indices `for_each_order` visits, from `idx` on; at most one per level. -/
def walkLevels (b : OrderBook) (s : Side) : ℕ → ℤ → List ℕ
  | 0, _ => []
  | fuel + 1, idx => if idx < 0 then [] else idx.toNat :: b.walkLevels s fuel (b.nextWorse s idx)

/-- The pool indices of one FIFO, from `n` on; at most one per node. -/
def walkNodes (b : OrderBook) : ℕ → ℕ → List ℕ
  | 0, _ => []
  | fuel + 1, n => if n = kNil then [] else n :: b.walkNodes fuel (b.node n).next

/-- The orders of one side, best price first and oldest first within a price. -/
def orders (b : OrderBook) (s : Side) : List BookOrder :=
  (b.walkLevels s (b.levelsPerSide + 1) (b.ladder s).best).flatMap fun idx =>
    (b.walkNodes (b.nodes.length + 1) (b.level s idx).head).map fun n => (b.node n).order

/-- What `for_each_order` visits (order_book.hpp:210-221). -/
def forEachOrder (b : OrderBook) : List BookOrder := b.orders .buy ++ b.orders .sell

def orderCount (b : OrderBook) : ℕ := b.live

end OrderBook

end PulseForge
