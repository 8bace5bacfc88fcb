import PulseForge.Model.Itch
import PulseForge.Model.MatchingEngine

/-!
# What the exchange publishes of an engine event (`exchange.cpp`)

The public half of the listener callbacks: `on_fill`, `on_rested` and `on_resting_cancelled`
build one ITCH message each, the others none. Casts to the widths of the message fields are
those of the source; `now` is the reading of the real-time clock in the callback.
-/

set_option autoImplicit false

namespace PulseForge

/-- `mid_now()` at a reading of the clock. -/
def midNow (now : ℕ) : UInt64 := UInt64.ofNat (nsSinceMidnight now)

namespace MatchingEngine

/-- `symbol(locate)`. -/
def symbol (e : MatchingEngine) (locate : ℕ) : Symbol := e.symbols.getD (locate - 1) fun _ => 0

end MatchingEngine

/-- The 'E' of a fill names the resting order (exchange.cpp:447-455). -/
def executedMessage (locate : ℕ) (ts : UInt64) (f : Fill) : Itch.Message :=
  .orderExecuted (UInt16.ofNat locate) ts (UInt64.ofNat f.makerId) (UInt32.ofNat f.qty)
    (UInt64.ofNat f.matchNumber)

/-- The 'A' of a resting order, live and in snapshots (exchange.cpp:469-478, 890-897). -/
def addMessage (locate : ℕ) (ts : UInt64) (stock : Symbol) (o : BookOrder) : Itch.Message :=
  .addOrder (UInt16.ofNat locate) ts (UInt64.ofNat o.id) o.side (UInt32.ofNat o.qty) stock
    (UInt32.ofInt o.price)

/-- The 'D' or 'X' of a cancelled resting order (exchange.cpp:484-499). -/
def cancelMessage (locate : ℕ) (ts : UInt64) (before : BookOrder) (cancelled : ℕ) :
    Itch.Message :=
  if cancelled = before.qty then
    .orderDelete (UInt16.ofNat locate) ts (UInt64.ofNat before.id)
  else
    .orderCancel (UInt16.ofNat locate) ts (UInt64.ofNat before.id) (UInt32.ofNat cancelled)

/-- The message published in a callback. -/
def publicMessage (e : MatchingEngine) (now : ℕ) : Event → Option Itch.Message
  | .fill locate f => some (executedMessage locate (midNow now) f)
  | .rested locate o => some (addMessage locate (midNow now) (e.symbol locate) o)
  | .restingCancelled locate before cancelled _ =>
    some (cancelMessage locate (midNow now) before cancelled)
  | .accepted .. | .rejected .. | .takerCancelled .. => none

end PulseForge
