import PulseForge.Foundation.BoundedQueue
import PulseForge.Foundation.CallLog

/-!
# The ring of one producer and one consumer (`spsc_ring.hpp`, `spsc_ring.cpp`)

The ring, and the two threads that use it: each is at one of the accesses to shared memory of
the function it is in, and a step performs that access together with the local work up to the
next one. A schedule says which thread moves, and what the producer calls when it is in no
function; every interleaving is a schedule. A `Run` logs the calls of the threads and what their
functions answer. `pushed` and `popped` are the messages behind `tail_` and `head_`; the program
does not read them. Nothing depends on what a message is. The count of spins before a yield in
`SpscConsumer::pop` is left out.
-/

set_option autoImplicit false

namespace PulseForge

open Foundation

/-- `next_pow2` (spsc_ring.cpp:4-10, and again mpmc_fanout.cpp:4-10) on `size_t`: `none` when 64
doublings do not reach `n`, because `p` has wrapped to `0` and stays there. -/
def nextPow2Loop (n : UInt64) : ℕ → UInt64 → Option UInt64
  | 0, _ => none
  | fuel + 1, p => if p < n then nextPow2Loop n fuel (p <<< 1) else some p

def nextPow2 (n : UInt64) : Option UInt64 := nextPow2Loop n 65 1

variable {α : Type}

/-- spsc_ring.hpp:92-99. -/
structure SpscRing (α : Type) where
  head : UInt64 := 0
  tail : UInt64 := 0
  closed : Bool := false
  buf : List α
  mask : UInt64
deriving Repr, DecidableEq

namespace SpscRing

/-- The constructor (spsc_ring.cpp:13-14); `none` when it does not return. -/
def new [Inhabited α] (capacity : UInt64) : Option (SpscRing α) :=
  (nextPow2 capacity).map fun p => { buf := List.replicate p.toNat default, mask := p - 1 }

/-- spsc_ring.hpp:77. -/
def capacity (r : SpscRing α) : ℕ := (r.mask + 1).toNat

/-! ## The producer -/

/-- Where the producer is: in no function, in `try_push` (spsc_ring.cpp:22-36), or in `close`
(spsc_ring.cpp:16-20). -/
inductive Producer (α : Type) where
  | idle
  | loadClosed (msg : α)
  | loadTail (msg : α)
  | loadHead (msg : α) (tail : UInt64)
  | writeSlot (msg : α) (tail : UInt64)
  | storeTail (msg : α) (tail : UInt64)
  | storeClosed
deriving Repr, DecidableEq

/-! ## The consumer -/

/-- Where the consumer is: in no function, or in `pop` (queue_backend.cpp:89-101), with `try_pop`
(spsc_ring.cpp:38-49) and behind it `closed_and_empty` (spsc_ring.cpp:51-58). -/
inductive Consumer (α : Type) where
  | idle
  | loadHead
  | loadTail (head : UInt64)
  | readSlot (head : UInt64)
  | storeHead (head : UInt64) (msg : α)
  | loadClosed
  | loadHeadAgain
  | loadTailAgain (head : UInt64)
deriving Repr, DecidableEq

/-- The ring with its threads. -/
structure System (α : Type) where
  ring : SpscRing α
  producer : Producer α := .idle
  consumer : Consumer α := .idle
  pushed : List α := []
  popped : List α := []
deriving Repr, DecidableEq

/-- What a step is about: the slot it writes, or the answer that the function of the thread
returns with it. -/
inductive Event (α : Type) where
  | wrote (slot : ℕ)
  | pushOk
  | pushFull
  | pushClosed
  | closed
  | popOk (msg : α)
  | popClosed
deriving Repr, DecidableEq

/-- The answer to the caller. -/
def Event.answer : Event α → Option (QueueAnswer α)
  | .wrote _ => none
  | .pushOk => some .ok
  | .pushFull => some .full
  | .pushClosed | .popClosed => some .closed
  | .closed => some .done
  | .popOk msg => some (.got msg)

/-- What the schedule lets happen: the producer calls `try_push` or `close`, or makes its next
access; the consumer calls `pop`, or makes its next access. -/
inductive Act (α : Type) where
  | push (msg : α)
  | close
  | producer
  | pop
  | consumer
deriving Repr, DecidableEq

namespace System

/-- The next access of the producer. -/
def stepProducer (s : System α) : System α × Option (Event α) :=
  match s.producer with
  | .idle => (s, none)
  | .loadClosed msg =>
    if s.ring.closed then ({ s with producer := .idle }, some .pushClosed)
    else ({ s with producer := .loadTail msg }, none)
  | .loadTail msg => ({ s with producer := .loadHead msg s.ring.tail }, none)
  | .loadHead msg tail =>
    if s.ring.buf.length ≤ (tail - s.ring.head).toNat then
      ({ s with producer := .idle }, some .pushFull)
    else ({ s with producer := .writeSlot msg tail }, none)
  | .writeSlot msg tail =>
    let slot := (tail &&& s.ring.mask).toNat
    ({ s with ring := { s.ring with buf := s.ring.buf.set slot msg }, producer := .storeTail msg tail },
      some (.wrote slot))
  | .storeTail msg tail =>
    ({ s with
        ring := { s.ring with tail := tail + 1 }, producer := .idle, pushed := s.pushed ++ [msg] },
      some .pushOk)
  | .storeClosed =>
    ({ s with ring := { s.ring with closed := true }, producer := .idle }, some .closed)

/-- The next access of the consumer. -/
def stepConsumer [Inhabited α] (s : System α) : System α × Option (Event α) :=
  match s.consumer with
  | .idle => (s, none)
  | .loadHead => ({ s with consumer := .loadTail s.ring.head }, none)
  | .loadTail head =>
    if head = s.ring.tail then ({ s with consumer := .loadClosed }, none)
    else ({ s with consumer := .readSlot head }, none)
  | .readSlot head =>
    ({ s with consumer := .storeHead head (s.ring.buf.getD (head &&& s.ring.mask).toNat default) },
      none)
  | .storeHead head msg =>
    ({ s with
        ring := { s.ring with head := head + 1 }, consumer := .idle, popped := s.popped ++ [msg] },
      some (.popOk msg))
  | .loadClosed =>
    if s.ring.closed then ({ s with consumer := .loadHeadAgain }, none)
    else ({ s with consumer := .loadHead }, none)
  | .loadHeadAgain => ({ s with consumer := .loadTailAgain s.ring.head }, none)
  | .loadTailAgain head =>
    if head = s.ring.tail then ({ s with consumer := .idle }, some .popClosed)
    else ({ s with consumer := .loadHead }, none)

/-- One step; a thread that is in a function calls no other. -/
def step [Inhabited α] (s : System α) : Act α → System α × Option (Event α)
  | .push msg =>
    match s.producer with
    | .idle => ({ s with producer := .loadClosed msg }, none)
    | _ => (s, none)
  | .close =>
    match s.producer with
    | .idle => ({ s with producer := .storeClosed }, none)
    | _ => (s, none)
  | .producer => s.stepProducer
  | .pop =>
    match s.consumer with
    | .idle => ({ s with consumer := .loadHead }, none)
    | _ => (s, none)
  | .consumer => s.stepConsumer

/-- The system behind a schedule. -/
def after [Inhabited α] (s : System α) (acts : List (Act α)) : System α :=
  acts.foldl (fun s act => (s.step act).1) s

end System

/-! ## The calls -/

inductive Thread where
  | producer
  | consumer
deriving Repr, DecidableEq

/-- The system with the calls of its threads. -/
structure Run (α : Type) where
  system : System α
  calls : CallLog Thread (QueueCall α) (QueueAnswer α) := {}

namespace Run

/-- One step: a call goes into the log with the answer that the thread gets. -/
def step [Inhabited α] (r : Run α) (act : Act α) : Run α :=
  let (system, ev) := r.system.step act
  let answer := ev.bind Event.answer
  match act with
  | .push msg => { system, calls := r.calls.call .producer (.tryPush msg) }
  | .close => { system, calls := r.calls.call .producer .close }
  | .producer => { system, calls := r.calls.answer .producer answer }
  | .pop => { system, calls := r.calls.call .consumer .pop }
  | .consumer => { system, calls := r.calls.answer .consumer answer }

/-- A schedule. -/
def after [Inhabited α] (r : Run α) (acts : List (Act α)) : Run α := acts.foldl step r

/-- The calls that returned, with their answers, whichever thread made them. -/
def history (r : Run α) : QueueHistory α := r.calls.returned.map Prod.snd

end Run

end SpscRing

end PulseForge
