import PulseForge.Foundation.BoundedQueue

/-!
# The queue behind a mutex (`queue_mutex.hpp`, `queue_mutex.cpp`)

A function of the queue holds its mutex from beginning to end, except while it waits: what it does
with the mutex in hand is one step. A thread whose predicate does not hold waits, and re-checks the
predicate when it is notified or wakes for no reason; a schedule says which thread makes a call or
wakes up, so every order of the critical sections is a schedule. Notifications are left out: a
thread may wake at any time. `log` records the calls that returned, with their answers; the program
does not read it. Nothing depends on what a message is.
-/

set_option autoImplicit false

namespace PulseForge

open Foundation

variable {α : Type}

/-- queue_mutex.hpp:84-92, less the mutex and the condition variables. -/
structure QueueMutex (α : Type) where
  buf : List α
  capacity : UInt64
  head : UInt64 := 0
  tail : UInt64 := 0
  count : UInt64 := 0
  closed : Bool := false
deriving Repr, DecidableEq

/-- `IQueueConsumer::PopStatus` (queue_backend.hpp). -/
inductive PopStatus where
  | ok
  | closed
deriving Repr, DecidableEq

namespace QueueMutex

/-- `QueueMutex::Status` (queue_mutex.hpp:40-44). -/
inductive Status where
  | ok
  | full
  | closed
deriving Repr, DecidableEq

/-- The constructor (queue_mutex.cpp:19-20). -/
def new [Inhabited α] (capacity : UInt64) : QueueMutex α :=
  { buf := List.replicate capacity.toNat default, capacity }

/-- `close` (queue_mutex.cpp:24-32). -/
def close (q : QueueMutex α) : QueueMutex α := { q with closed := true }

/-- Lines 40-42 of `push`, and 55-57 of `try_push`. -/
def store (q : QueueMutex α) (msg : α) : QueueMutex α :=
  { q with
    buf := q.buf.set q.tail.toNat msg
    tail := (q.tail + 1) % q.capacity
    count := q.count + 1 }

/-- `push` (queue_mutex.cpp:34-45); `none` when it waits on `not_full_`. -/
def push (q : QueueMutex α) (msg : α) : Option (QueueMutex α × Status) :=
  if q.count < q.capacity || q.closed then
    if q.closed then some (q, .closed) else some (q.store msg, .ok)
  else none

/-- `try_push` (queue_mutex.cpp:47-60). -/
def tryPush (q : QueueMutex α) (msg : α) : QueueMutex α × Status :=
  if q.closed then (q, .closed)
  else if q.count = q.capacity then (q, .full)
  else (q.store msg, .ok)

/-- `pop` (queue_mutex.cpp:62-73), with the message it writes; `none` when it waits on
`not_empty_`. -/
def pop [Inhabited α] (q : QueueMutex α) : Option (QueueMutex α × Status × Option α) :=
  if 0 < q.count || q.closed then
    if q.count = 0 && q.closed then some (q, .closed, none)
    else
      some ({ q with head := (q.head + 1) % q.capacity, count := q.count - 1 },
        .ok, some (q.buf.getD q.head.toNat default))
  else none

/-- `depth` (queue_mutex.cpp:75-78). -/
def depth (q : QueueMutex α) : UInt64 := q.count

/-! ## The adapter of queue_backend.cpp -/

/-- `MutexConsumer::pop` (queue_backend.cpp:54-57). -/
def consumerPop [Inhabited α] (q : QueueMutex α) :
    Option (QueueMutex α × PopStatus × Option α) :=
  q.pop.map fun (q, status, msg) => (q, if status = .closed then .closed else .ok, msg)

/-! ## The threads -/

/-- The answer of a push. -/
def Status.answer : Status → QueueAnswer α
  | .ok => .ok
  | .full => .full
  | .closed => .closed

/-- A critical section of a call, from taking the mutex or waking up with it. -/
def critical [Inhabited α] (q : QueueMutex α) :
    QueueCall α → Option (QueueMutex α × QueueAnswer α)
  | .push msg => (q.push msg).map fun (q, status) => (q, status.answer)
  | .tryPush msg => let (q, status) := q.tryPush msg; some (q, status.answer)
  | .pop =>
    q.pop.map fun
      | (q, _, some msg) => (q, .got msg)
      | (q, _, none) => (q, .closed)
  | .close => some (q.close, .done)

/-- What the schedule lets happen: a thread that is in no call makes one, or a waiting one wakes up
with the mutex. -/
inductive Act (α : Type) where
  | call (thread : ℕ) (c : QueueCall α)
  | wake (thread : ℕ)
deriving Repr, DecidableEq

/-- The queue with its threads: the call in which a thread waits. -/
structure System (α : Type) where
  queue : QueueMutex α
  waiting : ℕ → Option (QueueCall α) := fun _ => none
  log : List (ℕ × QueueCall α × QueueAnswer α) := []

namespace System

def new [Inhabited α] (capacity : UInt64) : System α := { queue := QueueMutex.new capacity }

/-- The thread runs a critical section of its call: it returns, or waits. -/
def enter [Inhabited α] (s : System α) (thread : ℕ) (c : QueueCall α) : System α :=
  match s.queue.critical c with
  | some (queue, answer) =>
    { queue, waiting := Function.update s.waiting thread none, log := s.log ++ [(thread, c, answer)] }
  | none => { s with waiting := Function.update s.waiting thread (some c) }

def step [Inhabited α] (s : System α) : Act α → System α
  | .call thread c => if s.waiting thread = none then s.enter thread c else s
  | .wake thread =>
    match s.waiting thread with
    | some c => s.enter thread c
    | none => s

/-- A schedule. -/
def run [Inhabited α] (s : System α) (acts : List (Act α)) : System α := acts.foldl step s

/-- The calls that returned, with their answers, whichever thread made them. -/
def history (s : System α) : QueueHistory α := s.log.map Prod.snd

end System

end QueueMutex

end PulseForge
