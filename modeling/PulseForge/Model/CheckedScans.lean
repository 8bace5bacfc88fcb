import PulseForge.Model.OrderBook

/-!
# The bitmap scans with their checks (`order_book.cpp`)

The two scans on `int32_t` indices, with everything that could go wrong: a word read outside the
vector, a shift by 64 or more, a builtin called on zero, a result that is no `int32_t`, and a
loop that is not done when its fuel is used up all give `none`. Over them stand the operations of
the book that scan (`unlink_and_free` through `next_worse`, `clear`, and the two walks), which
do the rest of their work as in `Model.OrderBook`.
-/

set_option autoImplicit false

namespace PulseForge.Checked

open OrderBook

/-! ## Checks -/

/-- A result of `int32_t` arithmetic. -/
def int32 (x : ℤ) : Option ℤ := if -2 ^ 31 ≤ x ∧ x < 2 ^ 31 then some x else none

/-- A shift of a `uint64_t`. -/
def shl (x : BitVec 64) (n : ℕ) : Option (BitVec 64) := if n < 64 then some (x <<< n) else none

/-- `__builtin_clzll`, which is undefined for zero. -/
def builtinClzll (x : BitVec 64) : Option ℕ := if x = 0 then none else some (clzll x)

/-- `__builtin_ctzll`, which is undefined for zero. -/
def builtinCtzll (x : BitVec 64) : Option ℕ := if x = 0 then none else some (ctzll x)

/-! ## The scans -/

/-- The loop of `bitmap_find_prev`; `w` is an `int32_t`. -/
def findPrevLoop (bits : List (BitVec 64)) : ℕ → ℤ → BitVec 64 → Option ℤ
  | 0, _, _ => none
  | fuel + 1, w, word =>
    if word ≠ 0 then do
      let high ← int32 (w * 64)
      let zeros ← builtinClzll word
      int32 (high + (63 - zeros))
    else do
      let w ← int32 (w - 1)
      if w < 0 then some (-1)
      else do
        let word ← bits[w.toNat]?
        findPrevLoop bits fuel w word

/-- The mask of the first word: bits `0..b`, careful at `b == 63`. -/
def prevMask (b : ℕ) : Option (BitVec 64) :=
  if b = 63 then some (BitVec.allOnes 64) else (shl 1 (b + 1)).map fun m => m - 1

/-- order_book.cpp:12-31. -/
def bitmapFindPrev (bits : List (BitVec 64)) (fuel : ℕ) (idx : ℤ) : Option ℤ :=
  if idx < 0 then some (-1)
  else do
    let w := idx.toNat >>> 6
    let mask ← prevMask (idx.toNat &&& 63)
    let word ← bits[w]?
    findPrevLoop bits fuel w (word &&& mask)

/-- The loop of `bitmap_find_next`; `w` is a `size_t`. -/
def findNextLoop (bits : List (BitVec 64)) : ℕ → ℕ → BitVec 64 → Option ℤ
  | 0, _, _ => none
  | fuel + 1, w, word =>
    if word ≠ 0 then do
      let zeros ← builtinCtzll word
      int32 ((w <<< 6) + zeros : ℕ)
    else if bits.length ≤ w + 1 then some (-1)
    else do
      let word ← bits[w + 1]?
      findNextLoop bits fuel (w + 1) word

/-- order_book.cpp:33-53. -/
def bitmapFindNext (bits : List (BitVec 64)) (fuel : ℕ) (idx : ℤ) : Option ℤ :=
  let i := if idx < 0 then 0 else idx.toNat
  let w := i >>> 6
  if bits.length ≤ w then some (-1)
  else do
    let word ← bits[w]?
    let mask ← shl (BitVec.allOnes 64) (i &&& 63)
    findNextLoop bits fuel w (word &&& mask)

/-! ## What calls them -/

variable (fuel : ℕ)

/-- order_book.cpp:153-157. -/
def nextWorse (b : OrderBook) (s : Side) (idx : ℤ) : Option ℤ :=
  match s with
  | .buy => do
    let idx ← int32 (idx - 1)
    bitmapFindPrev b.bids.bits fuel idx
  | .sell => do
    let idx ← int32 (idx + 1)
    bitmapFindNext b.asks.bits fuel idx

/-- The level part of `unlink_and_free`. -/
def shrinkLevel (b : OrderBook) (side : Side) (idx qty : ℕ) : Option OrderBook :=
  let b := b.modifyLevel side idx fun lv => { lv with qty := lv.qty - qty, count := lv.count - 1 }
  if (b.level side idx).count = 0 then
    let b := b.modifyLevel side idx fun _ => Level.empty
    let b := b.modifyBits side fun bits => bitmapReset bits idx
    if (idx : ℤ) = (b.ladder side).best then
      (nextWorse fuel b side idx).map fun best => b.setBest side best
    else some b
  else some b

/-- order_book.cpp:159-193. -/
def unlinkAndFree (b : OrderBook) (n : ℕ) : Option OrderBook :=
  let o := (b.node n).order
  let idx := (b.indexOf o.price).toNat
  (shrinkLevel fuel (b.detach o.side idx n) o.side idx o.qty).map fun b => b.release n o.id

/-- order_book.cpp:195-211. -/
def reduce (b : OrderBook) (id : ℕ) (by' : ℕ) : Option (OrderBook × Bool) :=
  match b.ids.find id with
  | none => some (b, false)
  | some n =>
    if (b.node n).order.qty < by' then some (b, false)
    else if by' = (b.node n).order.qty then (unlinkAndFree fuel b n).map fun b => (b, true)
    else some (b.reduceNode n by', true)

/-- order_book.cpp:213-220. -/
def remove (b : OrderBook) (id : ℕ) : Option (OrderBook × Bool) :=
  match b.ids.find id with
  | none => some (b, false)
  | some n => (unlinkAndFree fuel b n).map fun b => (b, true)

/-- order_book.cpp:230-241. -/
def reduceFront (b : OrderBook) (s : Side) (by' : ℕ) : Option OrderBook :=
  let n := b.frontNode s
  if (b.node n).order.qty ≤ by' then unlinkAndFree fuel b n
  else some (b.reduceFront s by')

/-- The loop of `clear` over one ladder, at level `i`. -/
def clearLoop (bits : List (BitVec 64)) : ℕ → ℤ → List Level → Option (List Level)
  | 0, _, _ => none
  | steps + 1, i, levels =>
    if i < 0 then some levels
    else if levels.length ≤ i.toNat then none
    else do
      let next ← int32 (i + 1)
      let next ← bitmapFindNext bits fuel next
      clearLoop bits steps next (levels.set i.toNat Level.empty)

/-- `clear` on one ladder. -/
def clearLadder (l : Ladder) : Option Ladder := do
  let i ← bitmapFindNext l.bits fuel 0
  let levels ← clearLoop fuel l.bits fuel i l.levels
  some { levels := levels, bits := l.bits.map fun _ => 0, best := -1 }

/-- order_book.cpp:74-94. -/
def clear (b : OrderBook) : Option OrderBook := do
  let bids ← clearLadder fuel b.bids
  let asks ← clearLadder fuel b.asks
  some { b.clear with bids := bids, asks := asks }

/-- `for_each_level` from level `idx` on (order_book.hpp:199-208). -/
def forEachLevelFrom (b : OrderBook) (s : Side) : ℕ → ℤ → Option (List LevelView)
  | 0, _ => some []
  | maxLevels + 1, idx =>
    if idx < 0 then some []
    else do
      let lv := b.level s idx.toNat
      let next ← nextWorse fuel b s idx
      let views ← forEachLevelFrom b s maxLevels next
      some (⟨b.priceOf idx, lv.qty, lv.count⟩ :: views)

/-- The outer loop of `for_each_order` on one side, from level `idx` on. -/
def walkLevels (b : OrderBook) (s : Side) : ℕ → ℤ → Option (List ℕ)
  | 0, _ => none
  | steps + 1, idx =>
    if idx < 0 then some []
    else do
      let next ← nextWorse fuel b s idx
      let levels ← walkLevels b s steps next
      some (idx.toNat :: levels)

/-- The orders of one side. -/
def orders (b : OrderBook) (s : Side) : Option (List BookOrder) :=
  (walkLevels fuel b s fuel (b.ladder s).best).map fun levels => levels.flatMap fun idx =>
    (b.walkNodes (b.nodes.length + 1) (b.level s idx).head).map fun n => (b.node n).order

/-- order_book.hpp:210-221. -/
def forEachOrder (b : OrderBook) : Option (List BookOrder) := do
  let bids ← orders fuel b .buy
  let asks ← orders fuel b .sell
  some (bids ++ asks)

end PulseForge.Checked
