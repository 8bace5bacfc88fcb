import PulseForge.Model.Itch
import PulseForge.Model.OrderBook

/-!
# The feed handler (`feed_handler.hpp`)

Sequence tracking, and the application of one decoded message to a replica book.
-/

set_option autoImplicit false

namespace PulseForge

inductive Verdict where
  | apply
  | duplicate
  | gap
deriving Repr, DecidableEq

/-- The next sequence number expected, a `uint64_t`. -/
structure SequenceTracker where
  expected : ℕ := 1
deriving Repr, DecidableEq

namespace SequenceTracker

/-- One message with sequence `seq` (feed_handler.hpp:57-63). -/
def onMessage (t : SequenceTracker) (seq : ℕ) : Verdict × SequenceTracker :=
  if seq = t.expected then (.apply, ⟨(t.expected + 1) % 2 ^ 64⟩)
  else if seq < t.expected then (.duplicate, t)
  else (.gap, t)

/-- A heartbeat says which sequence number comes next (feed_handler.hpp:66-68). -/
def onHeartbeat (t : SequenceTracker) (nextSeq : ℕ) : Verdict :=
  if t.expected < nextSeq then .gap else .apply

end SequenceTracker

inductive ApplyResult where
  | applied
  | ignored
  | inconsistent
deriving Repr, DecidableEq

/-- The answer of a book mutation, as the handler reports it. -/
def ApplyResult.ofBool (ok : Bool) : ApplyResult := if ok then .applied else .inconsistent

/-- `apply_itch` (feed_handler.hpp:89-119). -/
def applyItch (book : OrderBook) (locate : UInt16) : Itch.Message → OrderBook × ApplyResult
  | .addOrder l _ orderRef side shares _ price =>
    if l ≠ locate then (book, .ignored)
    else
      let (book, answer) := book.add orderRef.toNat side price.toNat shares.toNat 0 0
      (book, .ofBool (answer = .ok))
  | .orderExecuted l _ orderRef executedShares _ =>
    if l ≠ locate then (book, .ignored)
    else (book.reduce orderRef.toNat executedShares.toNat).map id .ofBool
  | .orderCancel l _ orderRef cancelledShares =>
    if l ≠ locate then (book, .ignored)
    else (book.reduce orderRef.toNat cancelledShares.toNat).map id .ofBool
  | .orderDelete l _ orderRef =>
    if l ≠ locate then (book, .ignored)
    else (book.remove orderRef.toNat).map id .ofBool
  | .systemEvent .. | .stockDirectory .. | .endOfSnapshot .. => (book, .ignored)

end PulseForge
