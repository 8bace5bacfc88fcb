import PulseForge.Model.EventRing
import PulseForge.Model.QueueMutex
import PulseForge.Model.SnapshotServer

/-!
# The worker threads (`worker.cpp`, `stats.hpp`)

Any number of workers pop from one queue and fold what they measure into shared atomics. A worker
is at one of its accesses to shared memory, and a step performs that access together with the local
work up to the next one; a critical section of the queue is one access, and so is a call that
records an event. A schedule says which thread moves, what clock it reads, and whether a weak
compare-exchange fails for no reason. The receive loop is a thread that pushes, records its own
events, sets the gauge and closes the queue. `log`, `samples` and `recorded` record the calls of
the queue, the messages with what was measured, and the events of the workers; the program does not
read them. The artificial delay is left out: a thread may sleep between any two steps.
-/

set_option autoImplicit false

namespace PulseForge

open Foundation

/-- The group that the workers write (stats.hpp:43-48). -/
structure WorkerStats where
  processed : UInt64 := 0
  latencyTotalNs : UInt64 := 0
  latencyMaxNs : UInt64 := 0
  queueDepth : UInt64 := 0
deriving Repr, DecidableEq

/-- The access to shared memory that is next, with the variables of the round (worker.cpp:33-75). -/
inductive WorkerAt where
  | pop
  | count (lat : UInt64)
  | total (lat : UInt64)
  | loadMax (lat : UInt64)
  | raiseMax (lat cur : UInt64)
  | depth (lat : UInt64)
  | gauge (lat depth : UInt64)
  | event (lat : UInt64)
  | done
deriving Repr, DecidableEq

/-- A thread in `worker_run` and its totals (worker.cpp:24-28). -/
structure Worker where
  next : WorkerAt := .pop
  msg : TickMessage := default
  processed : UInt64 := 0
  latTotal : UInt64 := 0
  latMax : UInt64 := 0
deriving Repr, DecidableEq

/-- What a worker measured of a message. -/
structure Sample where
  worker : ℕ
  msg : TickMessage
  latency : UInt64
deriving Repr, DecidableEq

/-- The queue, the shared memory and the threads; a worker's id is its index. `events` is a null
pointer when telemetry is off. -/
structure WorkerPool where
  queue : QueueMutex TickMessage
  stats : WorkerStats := {}
  events : Option SharedEventRing
  workers : List Worker
  log : QueueHistory TickMessage := []
  samples : List Sample := []
  recorded : List TickEvent := []

/-- The local totals take a message in (worker.cpp:43-48). -/
def Worker.measure (w : Worker) (msg : TickMessage) (lat : UInt64) : Worker where
  next := .count lat
  msg := msg
  processed := w.processed + 1
  latTotal := w.latTotal + lat
  latMax := if w.latMax < lat then lat else w.latMax

/-- The event of a message (worker.cpp:71-74); the id of a worker is cast to 32 bits. -/
def Worker.event (w : Worker) (id : ℕ) (now lat : UInt64) : TickEvent where
  type := EventType.processed.code
  workerId := UInt32.ofNat id
  sequence := w.msg.sequence
  tsNs := now
  latencyNs := lat

namespace WorkerPool

/-- Every thread at its first line, the queue empty and the counters reset. -/
def new (capacity : UInt64) (workers : ℕ) (events : Option SharedEventRing) : WorkerPool where
  queue := QueueMutex.new capacity
  events := events.map SharedEventRing.reset
  workers := List.replicate workers {}

/-- The worker goes on from `next`. -/
def put (s : WorkerPool) (id : ℕ) (w : Worker) (next : WorkerAt) : WorkerPool :=
  { s with workers := s.workers.set id { w with next } }

/-- `pop` and the local work behind it; a thread that waits stays where it is. -/
def stepPop (s : WorkerPool) (id : ℕ) (w : Worker) (now : UInt64) : WorkerPool :=
  match s.queue.consumerPop with
  | none => s
  | some (queue, .closed, _) =>
    ({ s with queue, log := s.log ++ [(.pop, .closed)] } : WorkerPool).put id w .done
  | some (queue, .ok, written) =>
    let msg := written.getD w.msg
    let lat := now - msg.sendTimestampNs
    { s with
      queue
      log := s.log ++ [(.pop, .got msg)]
      samples := s.samples ++ [⟨id, msg, lat⟩]
      workers := s.workers.set id (w.measure msg lat) }

/-- A step of worker `id` (worker.cpp:32-75). -/
def stepWorker (s : WorkerPool) (id : ℕ) (w : Worker) (now : UInt64) (spurious : Bool) :
    WorkerPool :=
  match w.next with
  | .pop => s.stepPop id w now
  | .count lat =>
    ({ s with stats.processed := s.stats.processed + 1 } : WorkerPool).put id w (.total lat)
  | .total lat =>
    ({ s with stats.latencyTotalNs := s.stats.latencyTotalNs + lat } : WorkerPool).put id w
      (.loadMax lat)
  | .loadMax lat => s.put id w (.raiseMax lat s.stats.latencyMaxNs)
  | .raiseMax lat cur =>
    if cur < lat then
      if s.stats.latencyMaxNs = cur ∧ !spurious then
        ({ s with stats.latencyMaxNs := lat } : WorkerPool).put id w (.depth lat)
      else s.put id w (.raiseMax lat s.stats.latencyMaxNs)
    else s.put id w (.depth lat)
  | .depth lat => s.put id w (.gauge lat s.queue.depth)
  | .gauge lat depth =>
    ({ s with stats.queueDepth := depth } : WorkerPool).put id w
      (if s.events.isSome then .event lat else .pop)
  | .event lat =>
    let e := w.event id now lat
    ({ s with
        events := s.events.map fun ring => ring.record e
        recorded := s.recorded ++ [e] } : WorkerPool).put id w .pop
  | .done => s

/-- What the schedule lets happen. -/
inductive Act where
  | tryPush (msg : TickMessage)
  | record (e : TickEvent)
  | gauge (depth : UInt64)
  | close
  | worker (id : ℕ) (now : UInt64) (spurious : Bool)
deriving Repr, DecidableEq

def step (s : WorkerPool) : Act → WorkerPool
  | .tryPush msg =>
    let (queue, status) := s.queue.tryPush msg
    { s with queue, log := s.log ++ [(.tryPush msg, status.answer)] }
  | .record e => { s with events := s.events.map fun ring => ring.record e }
  | .gauge depth => { s with stats.queueDepth := depth }
  | .close => { s with queue := s.queue.close, log := s.log ++ [(.close, .done)] }
  | .worker id now spurious =>
    match s.workers[id]? with
    | some w => s.stepWorker id w now spurious
    | none => s

/-- A schedule. -/
def run (s : WorkerPool) (acts : List Act) : WorkerPool := acts.foldl step s

end WorkerPool

end PulseForge
