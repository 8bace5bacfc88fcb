import PulseForge.Foundation.Machine

/-!
# The event ring and its reader (`shared_events.hpp`, `telemetry_bridge.cpp`)

Writers record events into a shared ring; the telemetry bridge polls it and reports what is new.
A call of either is one step. Of the text a poll builds only the events are kept, with their
fields; the configuration and the statistics in front of them are left out.
-/

set_option autoImplicit false

namespace PulseForge

open Foundation

/-- shared_events.hpp:44. -/
def kEventRingCapacity : ℕ := 16384

/-- shared_events.hpp:46-53. -/
inductive EventType where
  | received
  | invalid
  | gap
  | recovered
  | processed
  | queueFull
deriving Repr, DecidableEq

/-- `static_cast<uint8_t>(type)`. -/
def EventType.code : EventType → UInt8
  | .received => 0
  | .invalid => 1
  | .gap => 2
  | .recovered => 3
  | .processed => 4
  | .queueFull => 5

/-- shared_events.hpp:55-62. -/
structure TickEvent where
  type : UInt8
  workerId : UInt32
  sequence : UInt64
  tsNs : UInt64
  latencyNs : UInt64
deriving Repr, DecidableEq, Inhabited

/-- shared_events.hpp:97-101. -/
structure SharedEventRing where
  writeIndex : UInt64
  events : List TickEvent

namespace SharedEventRing

/-- `event_ring_reset`: the events stay as they are (shared_events.hpp:103-106). -/
def reset (ring : SharedEventRing) : SharedEventRing := { ring with writeIndex := 0 }

/-- `event_ring_record` (shared_events.hpp:126-136). -/
def record (ring : SharedEventRing) (e : TickEvent) : SharedEventRing where
  writeIndex := ring.writeIndex + 1
  events := ring.events.set (ring.writeIndex.toNat % kEventRingCapacity) e

/-- The loop of `build_snapshot_json` from `idx` up to `current` (telemetry_bridge.cpp:191-202);
it makes `count` rounds, which are fuel enough. -/
def readLoop (ring : SharedEventRing) (current : UInt64) : ℕ → UInt64 → List TickEvent
  | 0, _ => []
  | fuel + 1, idx =>
    if idx = current then []
    else ring.events.getD (idx.toNat % kEventRingCapacity) default ::
      ring.readLoop current fuel (idx + 1)

/-- The events that `build_snapshot_json` reports, and `last_seen` behind it
(telemetry_bridge.cpp:180-203). -/
def poll (ring : SharedEventRing) (lastSeen : UInt64) : List TickEvent × UInt64 :=
  let current := ring.writeIndex
  let count := current - lastSeen
  if kEventRingCapacity < count.toNat then
    (ring.readLoop current kEventRingCapacity (current - UInt64.ofNat kEventRingCapacity), current)
  else (ring.readLoop current count.toNat lastSeen, current)

end SharedEventRing

/-! ## Writers and the reader -/

/-- The ring and the variable of the reader. -/
structure Telemetry where
  ring : SharedEventRing
  lastSeen : UInt64 := 0

namespace Telemetry

/-- A complete call. -/
inductive Action where
  | record (type : EventType) (sequence tsNs latencyNs : UInt64) (workerId : UInt32)
  | poll
deriving Repr, DecidableEq

/-- One call, with the events it reports. -/
def step (t : Telemetry) : Action → Telemetry × List TickEvent
  | .record type sequence tsNs latencyNs workerId =>
    ({ t with ring := t.ring.record ⟨type.code, workerId, sequence, tsNs, latencyNs⟩ }, [])
  | .poll =>
    let (events, lastSeen) := t.ring.poll t.lastSeen
    ({ t with lastSeen := lastSeen }, events)

/-- What the polls of a run report, one after the other, from a ring that was reset. -/
def reports (ring : SharedEventRing) (actions : List Action) : List TickEvent :=
  (run step { ring := ring.reset } actions).2.flatten

end Telemetry

end PulseForge
