import PulseForge.Model.SnapshotServer

/-!
# The tick receiver (`receiver.cpp`)

The body of the receive loop: `process_one` on a datagram, and `drain_recoveries` on the
requests that are under way. What the queue answers to `try_push` is an argument of the step.
`live`, `declared`, `answered` and `enqueued` record the ticks received, the gaps that were found,
the requests that ended and what went into the queue; the program does not read them. The shared
statistics and the telemetry events repeat the counters and are left out.
-/

set_option autoImplicit false

namespace PulseForge

/-- queue_backend.hpp:46. -/
inductive PushStatus where
  | ok
  | full
  | closed
deriving Repr, DecidableEq

/-- receiver.cpp:75. -/
def kMaxPendingRecoveries : ℕ := 8

/-- How far a request is: under way, answered by the server, or ready in its future. A request
that fails is ready with nothing. -/
inductive Progress where
  | asked
  | served (srv : SnapshotServer)
  | ready (msgs : List TickMessage)

/-- One future of `pending_recoveries`, with the arguments of its request. -/
structure Recovery where
  fromSeq : UInt64
  count : UInt64
  progress : Progress := .asked

/-- A gap that was declared, and whether a request for it was dispatched. -/
structure Gap where
  start : UInt64
  count : UInt64
  dispatched : Bool
deriving Repr, DecidableEq

/-- A request that ended, with the ring of the server that answered it; `none` when it failed. -/
structure Answered where
  fromSeq : UInt64
  count : UInt64
  srv : Option SnapshotServer

/-- What `request_snapshot_recovery` returns. -/
def Answered.msgs (a : Answered) : List TickMessage :=
  match a.srv with
  | none => []
  | some srv => srv.handleClient a.fromSeq a.count

/-- How a tick came into the queue. -/
inductive Origin where
  | live
  | recovered
deriving Repr, DecidableEq

/-- The variables of the receive loop (receiver.cpp:423-430). -/
structure Receiver where
  snapshotEnabled : Bool
  received : UInt64 := 0
  invalid : UInt64 := 0
  gaps : UInt64 := 0
  reorders : UInt64 := 0
  queueFull : UInt64 := 0
  recovered : UInt64 := 0
  lastSeq : UInt64 := 0
  haveLast : Bool := false
  stop : Bool := false
  pending : List Recovery := []
  live : List TickMessage := []
  declared : List Gap := []
  answered : List Answered := []
  enqueued : List (Origin × TickMessage) := []

namespace Receiver

/-! ## A datagram -/

/-- The gap that a tick shows: the test of receiver.cpp:489-492. -/
def gapOf (r : Receiver) (msg : TickMessage) : Option (UInt64 × UInt64) :=
  if r.haveLast && decide (r.lastSeq + 1 < msg.sequence) then
    some (r.lastSeq + 1, msg.sequence - (r.lastSeq + 1))
  else none

/-- Gap detection (receiver.cpp:488-511). -/
def track (r : Receiver) (msg : TickMessage) : Receiver :=
  let r : Receiver :=
    match r.gapOf msg with
    | some (gapStart, g) =>
      let dispatch := r.snapshotEnabled && decide (r.pending.length < kMaxPendingRecoveries)
      { r with
        gaps := r.gaps + g
        pending :=
          if dispatch then r.pending ++ [{ fromSeq := gapStart, count := g }] else r.pending
        declared := r.declared ++ [{ start := gapStart, count := g, dispatched := dispatch }] }
    | none =>
      if r.haveLast && decide (msg.sequence < r.lastSeq) then { r with reorders := r.reorders + 1 }
      else r
  { r with lastSeq := msg.sequence, haveLast := true, live := r.live ++ [msg] }

/-- How the loop around `try_push` ends: `Ok`, `Closed`, or `Full` when `g_stop` is set. -/
inductive PushEnd where
  | ok
  | closed
  | stopped
deriving Repr, DecidableEq

/-- The tick is in the queue. -/
def enqueue (r : Receiver) (origin : Origin) (msg : TickMessage) : Receiver :=
  { r with enqueued := r.enqueued ++ [(origin, msg)] }

/-- The loop around `try_push` (receiver.cpp:521-545): `fulls` times `Full`, and then its end. -/
def pushLoop (msg : TickMessage) (ends : PushEnd) : ℕ → Bool → Receiver → Receiver
  | 0, fullReported, r =>
    match ends with
    | .ok => r.enqueue .live msg
    | .closed => { r with stop := true }
    | .stopped => if fullReported then r else { r with queueFull := r.queueFull + 1 }
  | fulls + 1, fullReported, r =>
    let r := if fullReported then r else { r with queueFull := r.queueFull + 1 }
    pushLoop msg ends fulls true r

/-- `process_one` (receiver.cpp:469-548); `whole` says that the datagram has the size of a
tick. -/
def processOne (r : Receiver) (msg : TickMessage) (whole : Bool) (fulls : ℕ) (ends : PushEnd) :
    Receiver :=
  if !whole || !messageIsValid msg then { r with invalid := r.invalid + 1 }
  else pushLoop msg ends fulls false (({ r with received := r.received + 1 } : Receiver).track msg)

/-! ## The requests under way -/

/-- The ticks of one answer go to the queue, which answers `queue k` to the `k`-th of them
(receiver.cpp:447-456). -/
def pushRecovered (queue : ℕ → PushStatus) : List TickMessage → ℕ → Receiver → Receiver
  | [], _, r => r
  | m :: msgs, k, r =>
    let r :=
      if queue k = .ok then ({ r with recovered := r.recovered + 1 } : Receiver).enqueue .recovered m
      else r
    pushRecovered queue msgs (k + 1) r

/-- The loop of `drain_recoveries` at index `i` (receiver.cpp:438-462): the last element takes the
place of one that is done. Each round goes one index on or takes one element off, so the number
of elements is fuel enough. `queue` answers the calls of `try_push` in order. -/
def drainLoop (queue : ℕ → PushStatus) : ℕ → ℕ → ℕ → Receiver → Receiver
  | 0, _, _, r => r
  | fuel + 1, i, k, r =>
    match r.pending[i]? with
    | none => r
    | some p =>
      match p.progress with
      | .asked | .served _ => drainLoop queue fuel (i + 1) k r
      | .ready msgs =>
        let r := pushRecovered queue msgs k r
        let r := { r with pending := (r.pending.set i (r.pending.getLastD p)).dropLast }
        drainLoop queue fuel i (k + msgs.length) r

/-- `drain_recoveries`. -/
def drainRecoveries (r : Receiver) (queue : ℕ → PushStatus) : Receiver :=
  drainLoop queue r.pending.length 0 0 r

/-- The server answers the request of number `i`. -/
def serve (r : Receiver) (i : ℕ) (srv : SnapshotServer) : Receiver :=
  match r.pending[i]? with
  | some ⟨fromSeq, count, .asked⟩ =>
    { r with pending := r.pending.set i ⟨fromSeq, count, .served srv⟩ }
  | _ => r

/-- The future of number `i` becomes ready: with the answer of the server, or with nothing when
`request_snapshot_recovery` fails (snapshot_client.cpp:41-96). -/
def finish (r : Receiver) (i : ℕ) (success : Bool) : Receiver :=
  match r.pending[i]? with
  | some ⟨fromSeq, count, progress⟩ =>
    let done (srv : Option SnapshotServer) : Receiver :=
      let answer : Answered := ⟨fromSeq, count, srv⟩
      { r with
        pending := r.pending.set i ⟨fromSeq, count, .ready answer.msgs⟩
        answered := r.answered ++ [answer] }
    match progress, success with
    | .served srv, true => done (some srv)
    | .asked, false | .served _, false => done none
    | _, _ => r
  | none => r

end Receiver

/-- The receiver and the recovery service of the publisher. -/
structure TickSystem where
  srv : SnapshotServer := {}
  receiver : Receiver

namespace TickSystem

/-- The start of both programs. -/
def new (snapshotEnabled : Bool) : TickSystem :=
  { receiver := { snapshotEnabled := snapshotEnabled } }

/-- What may happen: the publisher generates a tick, a datagram arrives, a request goes on or
ends, or the receiver looks at its requests. -/
inductive Act where
  | record (msg : TickMessage)
  | arrive (msg : TickMessage) (whole : Bool) (fulls : ℕ) (ends : Receiver.PushEnd)
  | serve (i : ℕ)
  | finish (i : ℕ) (success : Bool)
  | drain (queue : ℕ → PushStatus)

def step (s : TickSystem) : Act → TickSystem
  | .record msg => { s with srv := s.srv.record msg }
  | .arrive msg whole fulls ends =>
    { s with receiver := s.receiver.processOne msg whole fulls ends }
  | .serve i => { s with receiver := s.receiver.serve i s.srv }
  | .finish i success => { s with receiver := s.receiver.finish i success }
  | .drain queue => { s with receiver := s.receiver.drainRecoveries queue }

def after (s : TickSystem) (acts : List Act) : TickSystem := acts.foldl step s

end TickSystem

end PulseForge
