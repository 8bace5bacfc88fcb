import PulseForge.Foundation.MachineInt
import PulseForge.Model.TradingTypes

/-!
# Pre-trade risk checks (`risk.hpp`)

Every order passes `RiskGate.check` before it is sent. The `int64_t` fields are integers, and
`i64` is what a result becomes.
-/

set_option autoImplicit false

namespace PulseForge

/-- risk.hpp:48-55, with the defaults. -/
structure RiskLimits where
  maxOrderQty : ℕ := 1000
  maxNotional : ℤ := 250000 * kPriceScale
  maxPosition : ℤ := 2000
  maxOpenOrders : ℕ := 4
  maxOrdersPerSec : ℕ := 200
  priceCollarBps : ℤ := 50
deriving Repr, DecidableEq

inductive RiskVerdict where
  | pass
  | killSwitch
  | maxOrderQty
  | maxNotional
  | noReference
  | priceCollar
  | maxOpenOrders
  | maxPosition
  | throttled
deriving Repr, DecidableEq

/-- The gate (risk.hpp:166-174); `sentTimes` is the ring of the last send times. -/
structure RiskGate where
  lim : RiskLimits
  position : ℤ := 0
  openBuy : ℤ := 0
  openSell : ℤ := 0
  openOrders : ℕ := 0
  killed : Bool := false
  sentTimes : List ℕ
  nextSlot : ℕ := 0
  sentCount : ℕ := 0
deriving Repr, DecidableEq

namespace RiskGate

/-- risk.hpp:88-89. -/
def new (lim : RiskLimits) : RiskGate where
  lim := lim
  sentTimes := List.replicate (if 0 < lim.maxOrdersPerSec then lim.maxOrdersPerSec else 1) 0

/-- The position if every open order of the side and `qty` shares more were filled. -/
def worstCase (g : RiskGate) (side : Side) (qty : ℕ) : ℤ :=
  match side with
  | .buy => i64 (i64 (g.position + g.openBuy) + qty)
  | .sell => i64 (i64 (g.position - g.openSell) - qty)

/-- The test of the worst case against the limit (risk.hpp:112-115). -/
def overLimit (g : RiskGate) (side : Side) (qty : ℕ) : Bool :=
  match side with
  | .buy => g.lim.maxPosition < g.worstCase .buy qty
  | .sell => g.worstCase .sell qty < i64 (-g.lim.maxPosition)

/-- The sum of that test does not fit its type. -/
def overflows (g : RiskGate) (side : Side) (qty : ℕ) : Bool :=
  match side with
  | .buy => (2 : ℤ) ^ 63 ≤ g.position + g.openBuy + qty
  | .sell => g.position - g.openSell - qty < -(2 : ℤ) ^ 63

/-- risk.hpp:91-125. -/
def check (g : RiskGate) (side : Side) (price : ℤ) (qty : ℕ) (reference : ℤ) (nowNs : ℕ) :
    RiskVerdict :=
  if g.killed then .killSwitch
  else if qty = 0 ∨ g.lim.maxOrderQty < qty then .maxOrderQty
  else if g.lim.maxNotional < i64 (price * qty) then .maxNotional
  else if reference ≤ 0 then .noReference
  else
    let dev := if reference < price then i64 (price - reference) else i64 (reference - price)
    if i64 (g.lim.priceCollarBps * reference) < i64 (dev * 10000) then .priceCollar
    else if g.lim.maxOpenOrders ≤ g.openOrders then .maxOpenOrders
    else if g.overLimit side qty then .maxPosition
    else if g.sentTimes.length ≤ g.sentCount ∧
        (nowNs + 2 ^ 64 - g.sentTimes.getD g.nextSlot 0) % 2 ^ 64 < 1000000000 then .throttled
    else .pass

/-- risk.hpp:127-133. -/
def onOrderSent (g : RiskGate) (side : Side) (qty nowNs : ℕ) : RiskGate :=
  { g with
    openOrders := (g.openOrders + 1) % 2 ^ 32
    openBuy := if side = .buy then i64 (g.openBuy + qty) else g.openBuy
    openSell := if side = .sell then i64 (g.openSell + qty) else g.openSell
    sentTimes := g.sentTimes.set g.nextSlot nowNs
    nextSlot := (g.nextSlot + 1) % g.sentTimes.length
    sentCount := (g.sentCount + 1) % 2 ^ 64 }

/-- risk.hpp:135-144. -/
def onFill (g : RiskGate) (side : Side) (qty : ℕ) : RiskGate :=
  match side with
  | .buy => { g with position := i64 (g.position + qty), openBuy := i64 (g.openBuy - qty) }
  | .sell => { g with position := i64 (g.position - qty), openSell := i64 (g.openSell - qty) }

/-- risk.hpp:146-148. -/
def onCancelled (g : RiskGate) (side : Side) (qty : ℕ) : RiskGate :=
  match side with
  | .buy => { g with openBuy := i64 (g.openBuy - qty) }
  | .sell => { g with openSell := i64 (g.openSell - qty) }

/-- risk.hpp:150-154. -/
def onOrderClosed (g : RiskGate) : RiskGate := { g with openOrders := g.openOrders - 1 }

/-- risk.hpp:156. -/
def setKillSwitch (g : RiskGate) (on : Bool) : RiskGate := { g with killed := on }

/-! ## Runs -/

/-- A call that changes the gate. -/
inductive Call where
  | sent (side : Side) (qty nowNs : ℕ)
  | fill (side : Side) (qty : ℕ)
  | cancelled (side : Side) (qty : ℕ)
  | closed
  | killSwitch (on : Bool)
deriving Repr, DecidableEq

def apply (g : RiskGate) : Call → RiskGate
  | .sent side qty nowNs => g.onOrderSent side qty nowNs
  | .fill side qty => g.onFill side qty
  | .cancelled side qty => g.onCancelled side qty
  | .closed => g.onOrderClosed
  | .killSwitch on => g.setKillSwitch on

/-- The gate after some calls. -/
def run (lim : RiskLimits) (calls : List Call) : RiskGate := calls.foldl apply (new lim)

end RiskGate

end PulseForge
