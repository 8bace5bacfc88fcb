import PulseForge.Model.OrderBook
import PulseForge.Model.RiskGate

/-!
# The imbalance strategy (`strategy.hpp`)

A book update becomes an order to send, or nothing.
-/

set_option autoImplicit false

namespace PulseForge

/-- strategy.hpp:39-45, with the defaults. -/
structure StrategyParams where
  imbalancePct : ℤ := 60
  orderQty : ℕ := 100
  minTopQty : ℕ := 200
  cooldownNs : ℕ := 1000000
  maxPosition : ℤ := 1000
deriving Repr, DecidableEq

structure Signal where
  side : Side
  price : ℤ
  qty : ℕ
  imbalancePct : ℤ
deriving Repr, DecidableEq

structure ImbalanceStrategy where
  p : StrategyParams
  lastSignalNs : ℕ := 0
deriving Repr, DecidableEq

namespace ImbalanceStrategy

/-- strategy.hpp:58-89. Division truncates. -/
def onBookUpdate (s : ImbalanceStrategy) (book : OrderBook) (position : ℤ) (orderInFlight : Bool)
    (nowNs : ℕ) : Option Signal × ImbalanceStrategy :=
  if orderInFlight || book.empty .buy || book.empty .sell then (none, s)
  else if (nowNs + 2 ^ 64 - s.lastSignalNs) % 2 ^ 64 < s.p.cooldownNs then (none, s)
  else
    let bid := i64 (book.bestQty .buy)
    let ask := i64 (book.bestQty .sell)
    let total := i64 (bid + ask)
    if (total % 2 ^ 64).toNat < s.p.minTopQty then (none, s)
    else
      let diff := i64 (bid - ask)
      let q : ℤ := s.p.orderQty
      let pct := (i64 (diff * 100)).tdiv total
      if i64 (s.p.imbalancePct * total) < i64 (diff * 100) ∧ i64 (position + q) ≤ s.p.maxPosition then
        (some ⟨.buy, book.bestPrice .sell, s.p.orderQty, pct⟩, { s with lastSignalNs := nowNs })
      else if i64 (s.p.imbalancePct * total) < i64 (i64 (-diff) * 100) ∧
          i64 (-s.p.maxPosition) ≤ i64 (position - q) then
        (some ⟨.sell, book.bestPrice .buy, s.p.orderQty, pct⟩, { s with lastSignalNs := nowNs })
      else (none, s)

end ImbalanceStrategy

end PulseForge
