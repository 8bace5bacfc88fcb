import PulseForge.Interface.EventFlow

/-!
# The markets behind a message of the feed

The event log is a history of the markets: what an event does to them can be read off it, and
only the events that the feed publishes do anything. So the markets behind the `k`-th public
event are those that the first `k` of them make of the empty ones.
-/

set_option autoImplicit false

namespace PulseForge

namespace Event

/-- The feed publishes the event. -/
def isPublic : Event → Bool
  | .fill .. | .rested .. | .restingCancelled .. => true
  | .accepted .. | .rejected .. | .takerCancelled .. => false

/-- What an event does to the markets. -/
def enact (r : RefEngine) : Event → RefEngine
  | .fill locate f =>
    match r.market? locate with
    | none => r
    | some m =>
      match m.find f.makerId with
      | none => r
      | some maker => r.setMarket locate (m.take maker f.qty)
  | .rested locate o =>
    match r.market? locate with
    | none => r
    | some m => r.setMarket locate (m.rest o)
  | .restingCancelled locate o cancelled _ =>
    match r.market? locate with
    | none => r
    | some m => r.setMarket locate (m.take o cancelled)
  | .accepted .. | .rejected .. | .takerCancelled .. => r

end Event

/-- The public events of a log. -/
def publicEvents (log : List Event) : List Event := log.filter Event.isPublic

/-- The markets behind the first `k` public events of a log. -/
def RefEngine.behind (r : RefEngine) (log : List Event) (k : ℕ) : RefEngine :=
  ((publicEvents log).take k).foldl Event.enact r

end PulseForge
